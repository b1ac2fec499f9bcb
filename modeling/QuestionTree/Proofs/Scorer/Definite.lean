import QuestionTree.Proofs.Number.Compensated
import QuestionTree.Proofs.Scorer.Logarithm
import QuestionTree.Proofs.Training.Partition

/-!
# Masses whose sums are numbers

A list lets in masses of any magnitude, and their sums are not always numbers. The compensated sum
is none once the masses before the last one add up to no finite value. As long as it is finite it is
the exact sum but for a small part of it. The entropy is none if the masses add up to no finite
value, or if the mass of a box is so small a part of their sum that its share is rounded to zero.
Wherever a mass or an entropy is a number, it is not negative.
-/

namespace QuestionTree

namespace Binary64

open Float.Model
open ExampleList (Counts)

variable {log2 : Float → Float} {x : Float} {box : Box Float} {mass total : Float}
  {counted : List (Box Float × Float)} {examples : List (Example Float)}

/-! ### Counted masses -/

/-- What holds of the masses counted for the boxes, and of the total of all masses. -/
structure Totals (counted : List (Box Float × Float)) (total : Float) : Prop where
  zero_le : ∀ c ∈ counted, 0 ≤ c.2
  le_total : ∀ c ∈ counted, c.2 ≤ total
  total_nonneg : 0 ≤ total
  le_zero_iff : total ≤ 0 ↔ ∀ c ∈ counted, c.2 ≤ 0

theorem of_mem_count {c : Box Float × Float} (h : c ∈ Id3.count box mass counted) :
    c ∈ counted ∨ c.2 = 0 + mass ∨ ∃ d ∈ counted, c.2 = d.2 + mass := by
  induction counted with
  | nil =>
    rw [Id3.count, List.mem_singleton] at h
    exact .inr (.inl (congrArg Prod.snd h))
  | cons d rest ih =>
    rw [Id3.count] at h
    split at h
    · rcases List.mem_cons.1 h with rfl | h
      · exact .inr (.inr ⟨d, List.mem_cons_self, rfl⟩)
      · exact .inl (List.mem_cons_of_mem d h)
    · rcases List.mem_cons.1 h with rfl | h
      · exact .inl List.mem_cons_self
      · rcases ih h with hold | hnew | ⟨e, he, hsum⟩
        · exact .inl (List.mem_cons_of_mem d hold)
        · exact .inr (.inl hnew)
        · exact .inr (.inr ⟨e, List.mem_cons_of_mem d he, hsum⟩)

theorem count_le_zero_iff (hmass : 0 ≤ mass) (h : ∀ c ∈ counted, 0 ≤ c.2) :
    (∀ c ∈ Id3.count box mass counted, c.2 ≤ 0) ↔ (∀ c ∈ counted, c.2 ≤ 0) ∧ mass ≤ 0 := by
  induction counted with
  | nil =>
    have hsum := add_le_zero_iff zero_le_zero hmass
    rw [Id3.count, List.forall_mem_singleton]
    exact ⟨fun h => ⟨List.forall_mem_nil _, (hsum.1 h).2⟩, fun h => hsum.2 ⟨zero_le_zero, h.2⟩⟩
  | cons d rest ih =>
    obtain ⟨hd, hrest⟩ := List.forall_mem_cons.1 h
    have hsum := add_le_zero_iff hd hmass
    rw [Id3.count, List.forall_mem_cons]
    split
    · rw [List.forall_mem_cons]
      exact (and_congr_left' hsum).trans and_right_comm
    · rw [List.forall_mem_cons, ih hrest]
      exact and_assoc.symm

theorem Totals.count (h : Totals counted total) (hmass : 0 ≤ mass) (box : Box Float) :
    Totals (Id3.count box mass counted) (total + mass) := by
  have hsum := zero_le_add h.total_nonneg hmass
  have hlarger := le_add h.total_nonneg hmass
  refine ⟨fun c hc => ?_, fun c hc => ?_, hsum, ?_⟩
  · rcases of_mem_count hc with hold | hnew | ⟨d, hd, hgrown⟩
    · exact h.zero_le c hold
    · exact hnew ▸ zero_le_add zero_le_zero hmass
    · exact hgrown ▸ zero_le_add (h.zero_le d hd) hmass
  · rcases of_mem_count hc with hold | hnew | ⟨d, hd, hgrown⟩
    · exact le_trans_of_nonneg (h.zero_le c hold) h.total_nonneg hsum (h.le_total c hold) hlarger
    · exact hnew ▸ add_le_add_of_le zero_le_zero h.total_nonneg hmass h.total_nonneg
    · exact hgrown ▸ add_le_add_of_le (h.zero_le d hd) h.total_nonneg hmass (h.le_total d hd)
  · rw [add_le_zero_iff h.total_nonneg hmass, count_le_zero_iff hmass h.zero_le, h.le_zero_iff]

theorem plainMass_concat (examples : List (Example Float)) (e : Example Float) :
    plainMass (examples ++ [e]) = plainMass examples + e.mass :=
  List.foldl_concat ..

theorem totals_counts (h : ∀ e ∈ examples, 0 ≤ e.mass) :
    Totals (Id3.counts examples) (plainMass examples) := by
  induction examples using List.reverseRecOn with
  | nil => exact ⟨nofun, nofun, zero_le_zero, iff_of_true zero_le_zero nofun⟩
  | append_singleton examples e ih =>
    rw [Id3.counts_concat, plainMass_concat]
    have hinit := ih fun d hd => h d (List.mem_append_left [e] hd)
    exact hinit.count (h e (List.mem_append_right examples (List.mem_singleton_self e))) e.box

/-! ### Scores -/

/-- A total is infinite, or some mass that was counted is too small a part of it. -/
theorem fades_iff (h : Totals counted total) :
    (∃ c ∈ counted, 0 < c.2 ∧ Fades c.2 total) ↔
      total.isFinite = false ∨ ∃ c ∈ counted, 0 < c.2 ∧ Vanishes c.2 total := by
  constructor
  · rintro ⟨c, hc, hpos, hinfinite | hvanishes⟩
    · exact .inl hinfinite
    · exact .inr ⟨c, hc, hpos, hvanishes⟩
  · rintro (hinfinite | ⟨c, hc, hpos, hvanishes⟩)
    · have hsome : ¬ total ≤ 0 := fun hnone => by
        rw [isFinite_of_le h.total_nonneg hnone rfl] at hinfinite
        cases hinfinite
      rw [h.le_zero_iff] at hsome
      push Not at hsome
      obtain ⟨c, hc, hpos⟩ := hsome
      exact ⟨c, hc, (zero_lt_iff (h.zero_le c hc)).2 hpos, .inl hinfinite⟩
    · exact ⟨c, hc, hpos, .inr hvanishes⟩

/-- The score is a number that is not negative, unless a box has mass but no share. -/
theorem entropyScore_cases (hlog : Logarithmic log2) (h : ∀ e ∈ examples, 0 ≤ e.mass) :
    (unpacked (entropyScore log2 examples) = .notANumber ∧
        ∃ c ∈ Id3.counts examples, 0 < c.2 ∧ Fades c.2 (plainMass examples)) ∨
      (0 ≤ entropyScore log2 examples ∧
        ¬ ∃ c ∈ Id3.counts examples, 0 < c.2 ∧ Fades c.2 (plainMass examples)) := by
  have htotals := totals_counts h
  rw [entropyScore_eq]
  by_cases hnone : plainMass examples ≤ 0
  · rw [if_pos hnone]
    refine .inr ⟨zero_le_zero, ?_⟩
    rintro ⟨c, hc, hpos, -⟩
    exact (zero_lt_iff (htotals.zero_le c hc)).1 hpos (htotals.le_zero_iff.1 hnone c hc)
  · rw [if_neg hnone]
    have hterm := fun c hc => term_cases hlog (htotals.zero_le c hc) htotals.total_nonneg
      (htotals.le_total c hc) hnone
    have hall : ∀ t ∈ terms log2 examples, unpacked t = .notANumber ∨ 0 ≤ t := by
      intro t ht
      obtain ⟨c, hc, rfl⟩ := mem_terms_iff.1 ht
      exact (hterm c hc).imp And.left And.left
    rcases foldl_add_cases hall zero_le_neg_zero with ⟨hsum, t, ht, hnumber⟩ | ⟨hsum, hnonneg⟩
    · obtain ⟨c, hc, rfl⟩ := mem_terms_iff.1 ht
      rcases hterm c hc with ⟨-, hfades⟩ | ⟨hterm, -⟩
      · exact .inl ⟨hsum, c, hc, hfades⟩
      · exact absurd hterm (not_zero_le_of_notANumber hnumber)
    · refine .inr ⟨hsum, ?_⟩
      rintro ⟨c, hc, hfades⟩
      rcases hterm c hc with ⟨hnumber, -⟩ | ⟨-, hstays⟩
      · exact not_zero_le_of_notANumber hnumber (hnonneg _ (mem_terms_iff.2 ⟨c, hc, rfl⟩))
      · exact hstays hfades

theorem isNaN_iff : x.isNaN = true ↔ unpacked x = .notANumber := by
  rw [isNaN_eq]
  cases unpacked x with
  | notANumber => exact iff_of_true rfl rfl
  | infinity s => exact iff_of_false nofun nofun
  | zero s => exact iff_of_false nofun nofun
  | finite s mantissa exponent _ => exact iff_of_false nofun nofun

/-- The exact sum of the masses of examples, in units. -/
def exactMass (examples : List (Example Float)) : Int := exactSum (examples.map Example.mass)

/-- When the sums over examples are numbers, and what they are then. -/
structure Definite (log2 : Float → Float) (examples : List (Example Float)) : Prop where
  /-- The mass is not a number exactly if that of all examples but the last one is not finite. -/
  isNaN_totalMass_iff : (Example.totalMass examples).isNaN = true ↔
    (Example.totalMass examples.dropLast).isFinite = false
  totalMass_nonneg : (Example.totalMass examples).isNaN = false → 0 ≤ Example.totalMass examples
  /-- A finite mass is the exact one but for a small part of it, for any number of examples that fit
  into a memory. -/
  totalMass_error : examples.length ≤ 2 ^ 44 → (Example.totalMass examples).isFinite = true →
    2 ^ 48 * ((units (Example.totalMass examples) - exactMass examples).natAbs : Int) ≤
      exactMass examples
  /-- The mass is finite as long as the exact one is at most half of what there are no bits for. -/
  isFinite_totalMass : examples.length ≤ 2 ^ 44 → 2 * exactMass examples ≤ overflowUnits →
    (Example.totalMass examples).isFinite = true
  /-- The entropy is not a number exactly if the masses have no finite sum, or if some box with a
  mass has a share that is rounded to zero. -/
  isNaN_entropyScore_iff : (entropyScore log2 examples).isNaN = true ↔
    (plainMass examples).isFinite = false ∨
      ∃ c ∈ Id3.counts examples, 0 < c.2 ∧ Vanishes c.2 (plainMass examples)
  entropyScore_nonneg : (entropyScore log2 examples).isNaN = false →
    0 ≤ entropyScore log2 examples

theorem definite_of_counts (hlog : Logarithmic log2) (h : ∀ e ∈ examples, Counts e.mass) :
    Definite log2 examples := by
  have hmasses : ∀ v ∈ examples.map Example.mass, Counts v := List.forall_mem_map.2 h
  have hdropLast : (examples.map Example.mass).dropLast = examples.dropLast.map Example.mass :=
    List.map_dropLast.symm
  have hiff := isNaN_compensatedSum_iff hmasses
  rw [hdropLast] at hiff
  have hnonneg : ∀ e ∈ examples, 0 ≤ e.mass := fun e he => (h e he).2
  have hfades := fades_iff (totals_counts hnonneg)
  have hlength : (examples.map Example.mass).length = examples.length := List.length_map _
  refine ⟨hiff, compensatedSum_nonneg hmasses, fun hmany => ?_, fun hmany => ?_, ?_,
    fun hnumber => ?_⟩
  · exact compensatedSum_error hmasses (hlength ▸ hmany)
  · exact isFinite_runningSum hmasses (hlength ▸ hmany)
  · rw [isNaN_iff, ← hfades]
    rcases entropyScore_cases hlog hnonneg with ⟨hscore, hsome⟩ | ⟨hscore, hnone⟩
    · exact iff_of_true hscore hsome
    · exact iff_of_false (fun hnumber => not_zero_le_of_notANumber hnumber hscore) hnone
  · rcases entropyScore_cases hlog hnonneg with ⟨hscore, -⟩ | ⟨hscore, -⟩
    · rw [isNaN_iff.2 hscore] at hnumber
      cases hnumber
    · exact hscore

end Binary64

namespace ExampleList

open Binary64

variable {l : ExampleList Float} {log2 : Float → Float} {examples : List (Example Float)}

theorem Built.counts (h : l.Built) : ∀ e ∈ l.examples, Counts e.mass := by
  induction h with
  | blank hschema h =>
    obtain ⟨⟨⟩, _, h⟩ := bind_eq_ok_iff.1 h
    cases h
    exact nofun
  | @add l l' e _ h ih =>
    obtain ⟨_, hrange, _, heq⟩ := eq_of_add h
    have hcounts : Counts e.item.mass := by
      by_contra hnot
      rw [checkRange_mass_of_not hnot] at hrange
      cases hrange
    rw [heq, ExampleList.examples, List.map_append]
    exact List.forall_mem_append.2 ⟨ih, List.forall_mem_singleton.2 hcounts⟩

theorem built_add {e : Handle (Example Float)} (h : l.Built)
    (hschema : e.item.record.schema = l.schema) (hmass : Counts e.item.mass)
    (hnew : l.holds e = false) : (⟨l.schema, l.members ++ [e]⟩ : ExampleList Float).Built := by
  have hsame := Schema.requireSame_eq h.schema_built (hschema ▸ h.schema_built)
  refine .add h (e := e) ?_
  rw [ExampleList.add, hsame, if_pos hschema.symm, checkRange_mass hmass, hnew]
  rfl

/-- The masses of a list, and those of any part of it, have sums that are numbers unless these are
too large, and entropies that are numbers unless a share is too small. -/
theorem definite_of_built (h : l.Built) (hpart : examples ⊆ l.examples) (hlog : Logarithmic log2) :
    Definite log2 examples :=
  definite_of_counts hlog fun e he => h.counts e (hpart he)

end ExampleList

namespace Sample

open Binary64
open ExampleList (Counts built_add)

/-- A red thing that shows its own tag, with a given mass. -/
def weigh (mass : Float) (tag : Nat) : Handle (Example Float) :=
  ⟨tag, ⟨⟨schema, [some 0]⟩, Box.single (Float.ofNat tag), mass⟩⟩

/-- A list of such things. -/
def weighed (masses : List Float) : ExampleList Float :=
  ⟨schema, masses.zipIdx.map fun (mass, tag) => weigh mass tag⟩

theorem built_weighed {masses : List Float} (h : ∀ mass ∈ masses, Counts mass) :
    (weighed masses).Built := by
  induction masses using List.reverseRecOn with
  | nil =>
    have hblank : (ExampleList.blank schema : Except Error (ExampleList Float)) =
        .ok ⟨schema, []⟩ := rfl
    exact .blank built_schema hblank
  | append_singleton masses mass ih =>
    have hmembers : weighed (masses ++ [mass]) =
        ⟨schema, (weighed masses).members ++ [weigh mass masses.length]⟩ := by
      simp [weighed, List.zipIdx_append]
    have htags : (weighed masses).members.map Handle.tag = List.range' 0 masses.length := by
      rw [weighed, List.map_map, ← List.zipIdx_map_snd]
      rfl
    have hnew : (weighed masses).holds (weigh mass masses.length) = false := by
      rw [Bool.eq_false_iff, Ne, ExampleList.holds_iff, htags, weigh, List.mem_range'_1]
      dsimp only
      omega
    rw [hmembers]
    exact built_add (ih fun m hm => h m (List.mem_append_left [mass] hm)) rfl
      (h mass List.mem_concat_self) hnew

/-- The logarithm where it is a whole number between minus one and zero, or infinite. -/
def stepLog (p : Float) : Float := if p ≤ 0 then -(1 / 0) else if p ≤ 0.5 then -1 else 0

theorem logarithmic_stepLog : Logarithmic stepLog := by
  refine ⟨fun p hpos _ => ?_, fun p s hp => ?_⟩
  · rw [stepLog]
    split_ifs
    · decide +kernel
    · decide +kernel
    · exact zero_le_zero
  · have hnone : p ≤ 0 := by
      rw [le_iff_compare, hp]
      rfl
    rw [stepLog, if_pos hnone]
    rfl

end Sample

namespace ExampleList

open Binary64 Sample

/-- Two things of mass one, and one of the least mass there is, which has no share left. -/
theorem definite_weighed : (weighed [1, 1, 5e-324]).Built ∧ Logarithmic stepLog ∧
    Definite stepLog (weighed [1, 1, 5e-324]).examples ∧
    (weighed [1, 1, 5e-324]).totalMass = 2 ∧
    (entropyScore stepLog (weighed [1, 1, 5e-324]).examples).isNaN = true := by
  have hcounts : ∀ mass ∈ [1, 1, 5e-324], Counts mass := by decide +kernel
  have hbuilt := built_weighed hcounts
  have hdefinite := definite_of_built hbuilt (List.Subset.refl _) logarithmic_stepLog
  refine ⟨hbuilt, logarithmic_stepLog, hdefinite, ?_, hdefinite.isNaN_entropyScore_iff.2 (.inr ?_)⟩
  · decide +kernel
  · decide +kernel

/-- Two things of the greatest mass there is, and one of mass one: the third one makes a sum that
there are no bits for into one that is not a number. -/
theorem isNaN_totalMass_weighed : (weighed [maxMass, maxMass, 1]).Built ∧
    (weighed [maxMass, maxMass, 1]).totalMass.isNaN = true := by
  have hcounts : ∀ mass ∈ [maxMass, maxMass, 1], Counts mass := by decide +kernel
  exact ⟨built_weighed hcounts, by decide +kernel⟩

end ExampleList

end QuestionTree
