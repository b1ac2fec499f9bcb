import QuestionTree.Proofs.Number.Amounts
import QuestionTree.Proofs.Scorer.Counting

/-!
# Entropy with a given logarithm

The binary logarithm of floating-point values is not part of the model, so the entropy is read here
with any function in its place. Of this function it matters only that it is not positive up to one,
and that it is the negative infinity at zero. The term of a box is then a number that is not
negative, unless the share of the box is rounded to zero: no factor makes up for the infinity.
-/

namespace QuestionTree

namespace Binary64

open Float.Model
open UnpackedFloat (Sign)

variable {log2 : Float → Float} {count total p x y : Float}

/-! ### The logarithm as a parameter -/

/-- The operations on floating-point values, with a binary logarithm of one's own. -/
@[reducible]
def arithmetic (log2 : Float → Float) : Arithmetic Float :=
  { (inferInstance : Arithmetic Float) with log2 := log2 }

theorem compareValues_arithmetic (log2 : Float → Float) (values values' : List Float) :
    @Box.compareValues Float (arithmetic log2) values values' =
      Box.compareValues values values' := by
  induction values generalizing values' with
  | nil => cases values' <;> rfl
  | cons x values ih =>
    cases values' with
    | nil => rfl
    | cons y values' => exact congrArg (Ordering.then (compare x y)) (ih values')

theorem same_arithmetic (log2 : Float → Float) (box box' : Box Float) :
    @Box.same Float (arithmetic log2) box box' = box.same box' :=
  congrArg (fun data => (compare box.rows box'.rows).then
    ((compare box.columns box'.columns).then data) == .eq)
      (compareValues_arithmetic log2 box.data box'.data)

theorem count_arithmetic (log2 : Float → Float) (box : Box Float) (mass : Float)
    (counted : List (Box Float × Float)) :
    @Id3.count Float (arithmetic log2) box mass counted = Id3.count box mass counted := by
  induction counted with
  | nil => rfl
  | cons c rest ih =>
    rw [@Id3.count.eq_2 Float (arithmetic log2), Id3.count, ih, same_arithmetic]

theorem counts_arithmetic (log2 : Float → Float) (examples : List (Example Float)) :
    @Id3.counts Float (arithmetic log2) examples = Id3.counts examples := by
  induction examples using List.reverseRecOn with
  | nil => rfl
  | append_singleton examples e ih =>
    rw [@Id3.counts_concat Float (arithmetic log2), Id3.counts_concat, ih, count_arithmetic]

/-- The score of examples by their entropy, with a binary logarithm of one's own. -/
def entropyScore (log2 : Float → Float) (examples : List (Example Float)) : Float :=
  (@Id3.scorer Float (arithmetic log2)).score examples

theorem entropyScore_log2 (examples : List (Example Float)) :
    entropyScore Float.log2 examples = Id3.scorer.score examples := rfl

/-- The masses of examples, added up one after the other. -/
def plainMass (examples : List (Example Float)) : Float :=
  examples.foldl (fun total e => total + e.mass) 0

/-- The term of a box in the entropy. -/
def term (log2 : Float → Float) (count total : Float) : Float :=
  @Id3.entropyTerm Float (arithmetic log2) count total

theorem term_eq (log2 : Float → Float) (count total : Float) :
    term log2 count total =
      if count ≤ 0 ∨ total ≤ 0 then 0 else -(count / total) * log2 (count / total) := rfl

/-- The terms of all boxes, in the order of their masses. -/
def terms (log2 : Float → Float) (examples : List (Example Float)) : List Float :=
  (((Id3.counts examples).map Prod.snd).mergeSort fun a b => compare a b != .gt).map fun mass =>
    term log2 mass (plainMass examples)

theorem mem_terms_iff {t : Float} {examples : List (Example Float)} : t ∈ terms log2 examples ↔
    ∃ c ∈ Id3.counts examples, term log2 c.2 (plainMass examples) = t := by
  rw [terms, List.mem_map]
  simp only [List.mem_mergeSort, List.mem_map, exists_exists_and_eq_and]

theorem entropyScore_eq (log2 : Float → Float) (examples : List (Example Float)) :
    entropyScore log2 examples =
      if plainMass examples ≤ 0 then 0 else (terms log2 examples).foldl (· + ·) (-0) := by
  rw [terms, ← counts_arithmetic log2]
  rfl

/-! ### Terms -/

/-- What is used of a binary logarithm: it is not positive for a share, and infinite for none. -/
structure Logarithmic (log2 : Float → Float) : Prop where
  nonpos : ∀ p, 0 < p → p ≤ 1 → log2 p ≤ 0
  zero : ∀ p s, unpacked p = .zero s → unpacked (log2 p) = .infinity .negative

/-- Whether the mass of a box is too small a part of a total to have a share in it. -/
def Fades (count total : Float) : Prop := total.isFinite = false ∨ Vanishes count total

theorem term_of_zero (hcount : count ≤ 0) : term log2 count total = 0 := by
  rw [term_eq, if_pos (.inl hcount)]

theorem term_of_pos (hcount : ¬ count ≤ 0) (htotal : ¬ total ≤ 0) :
    term log2 count total = -(count / total) * log2 (count / total) := by
  rw [term_eq, if_neg (not_or.2 ⟨hcount, htotal⟩)]

theorem units_pos (hx : x.isFinite = true) (hpos : ¬ x ≤ 0) : 0 < units x := by
  rw [le_zero_iff_units hx] at hpos
  omega

/-- The term of a box without a share is not a number. -/
theorem term_of_fades (hlog : Logarithmic log2) (hcount : 0 ≤ count) (htotal : 0 ≤ total)
    (hle : count ≤ total) (hpos : ¬ count ≤ 0) (hpos' : ¬ total ≤ 0) (hfades : Fades count total) :
    unpacked (term log2 count total) = .notANumber := by
  rw [term_of_pos hpos hpos']
  rcases infinity_or_of_nonneg htotal with htop | ⟨hfinite, -⟩
  · rcases infinity_or_of_nonneg hcount with htop' | ⟨hfinite', -⟩
    · exact notANumber_mul (neg_notANumber (infinity_div_infinity htop' htop)) _
    · have hshare := div_infinity hfinite' (units_pos hfinite' hpos) htop
      exact neg_zero_mul_infinity hshare (hlog.zero _ _ hshare)
  · have hfinite' := isFinite_of_le hcount hle hfinite
    have hvanishes : Vanishes count total := hfades.resolve_left fun hinfinite => by
      rw [hfinite] at hinfinite
      cases hinfinite
    obtain ⟨n, hread, -, hzero⟩ := reads_share hfinite' hfinite (units_pos hfinite' hpos)
      ((le_iff_units hfinite' hfinite).1 hle)
    obtain rfl := hzero.2 hvanishes
    exact neg_zero_mul_infinity hread.eq_zero (hlog.zero _ _ hread.eq_zero)

theorem term_nonneg (hlog : Logarithmic log2) (hcount : 0 ≤ count) (hle : count ≤ total)
    (hpos : ¬ count ≤ 0) (hpos' : ¬ total ≤ 0) (hstays : ¬ Fades count total) :
    0 ≤ term log2 count total := by
  rw [term_of_pos hpos hpos']
  have hfinite : total.isFinite = true := Bool.of_not_eq_false fun h => hstays (.inl h)
  have hfinite' := isFinite_of_le hcount hle hfinite
  obtain ⟨n, hread, hone, hzero⟩ := reads_share hfinite' hfinite (units_pos hfinite' hpos)
    ((le_iff_units hfinite' hfinite).1 hle)
  have hne : n ≠ 0 := fun h => hstays (.inr (hzero.1 h))
  have hlt := hone.trans_lt oneUnits_lt
  have hunits : units (count / total) = n := hread.unpackedUnits_eq
  have hone' : (1 : Float).isFinite = true := rfl
  refine neg_mul_nonneg hread hlt hne (hlog.nonpos _ ?_ ?_)
  · refine (lt_iff_units rfl hread.isFinite).2 ?_
    rw [hunits]
    exact Int.natCast_pos.2 (Nat.pos_of_ne_zero hne)
  · refine (le_iff_units hread.isFinite hone').2 ?_
    rw [hunits, units_one]
    exact Int.ofNat_le.2 hone

theorem term_cases (hlog : Logarithmic log2) (hcount : 0 ≤ count) (htotal : 0 ≤ total)
    (hle : count ≤ total) (hpos : ¬ total ≤ 0) :
    (unpacked (term log2 count total) = .notANumber ∧ 0 < count ∧ Fades count total) ∨
      (0 ≤ term log2 count total ∧ ¬ (0 < count ∧ Fades count total)) := by
  rw [zero_lt_iff hcount]
  by_cases hnone : count ≤ 0
  · rw [term_of_zero hnone]
    exact .inr ⟨zero_le_zero, fun h => h.1 hnone⟩
  · by_cases hfades : Fades count total
    · exact .inl ⟨term_of_fades hlog hcount htotal hle hnone hpos hfades, hnone, hfades⟩
    · exact .inr ⟨term_nonneg hlog hcount hle hnone hpos hfades, fun h => hfades h.2⟩

end Binary64

end QuestionTree
