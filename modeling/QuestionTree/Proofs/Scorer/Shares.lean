import QuestionTree.Proofs.Scorer.Balance
import QuestionTree.Proofs.Scorer.Counting
import QuestionTree.Proofs.Scorer.Entropy

/-!
# The entropy of a mixture

The entropy of some examples depends on the share that each box has in their mass. To put two lists
together is to mix their shares, weighted by the masses of the lists. As the function
`-p * log p` is concave, the mixture has at least the weighted mean of the entropies of both lists,
and it is strictly concave, so there is nothing more than this mean only if every box has the same
share in both. What a split gains by entropy is this difference, hence no split loses anything.
-/

namespace QuestionTree

namespace Id3

/-! ### The masses of the boxes -/

section Exact

variable {ν : Type} [ExactArithmetic ν]

/-- The mass of the examples that show a box. -/
def massAt (box : Box ν) (examples : List (Example ν)) : ν :=
  (examples.map fun e => if e.box.same box then e.mass else 0).sum

/-- The mass that was counted for a box. -/
def countedAt (box : Box ν) (counted : List (Box ν × ν)) : ν :=
  (counted.map fun c => if c.1.same box then c.2 else 0).sum

/-- The share of the mass that the examples with a box have. -/
def share (box : Box ν) (examples : List (Example ν)) : ν :=
  massAt box examples / Example.totalMass examples

variable {box : Box ν} {examples left right : List (Example ν)} {counted : List (Box ν × ν)}

theorem massAt_append :
    massAt box (left ++ right) = massAt box left + massAt box right := by
  rw [massAt, List.map_append, List.sum_append]
  rfl

theorem massAt_perm (h : left.Perm right) : massAt box left = massAt box right :=
  (h.map _).sum_eq

theorem massAt_nonneg (hmass : ∀ e ∈ examples, 0 ≤ e.mass) : 0 ≤ massAt box examples := by
  refine List.sum_nonneg fun mass hmem => ?_
  obtain ⟨e, he, rfl⟩ := List.mem_map.1 hmem
  split
  · exact hmass e he
  · exact le_refl 0

theorem massAt_le (hmass : ∀ e ∈ examples, 0 ≤ e.mass) :
    massAt box examples ≤ Example.totalMass examples := by
  rw [ExactArithmetic.totalMass_eq]
  refine List.sum_le_sum fun e he => ?_
  split
  · exact le_refl e.mass
  · exact hmass e he

theorem totalMass_append :
    Example.totalMass (left ++ right) = Example.totalMass left + Example.totalMass right := by
  rw [ExactArithmetic.totalMass_eq, ExactArithmetic.totalMass_eq, ExactArithmetic.totalMass_eq,
    List.map_append, List.sum_append]

/-! ### The masses that are counted -/

theorem countedAt_count {mass : ν} (hbox : box.Filled) (hfilled : ∀ c ∈ counted, c.1.Filled)
    (other : Box ν) :
    countedAt other (count box mass counted) =
      countedAt other counted + if box.same other then mass else 0 := by
  induction counted with
  | nil => simp [countedAt, count]
  | cons c rest ih =>
    obtain ⟨b, n⟩ := c
    obtain ⟨hb, hrest⟩ := List.forall_mem_cons.1 hfilled
    have hcons : ∀ (n : ν) (rest : List (Box ν × ν)), countedAt other ((b, n) :: rest) =
        (if b.same other then n else 0) + countedAt other rest := fun _ _ => List.sum_cons
    rw [count]
    split
    · rename_i hsame
      have hfirst : b = box := (Box.same_iff hb hbox).1 hsame
      rw [hcons, hcons, hfirst]
      split
      · exact add_right_comm ..
      · rw [add_zero]
    · rw [hcons, hcons, ih hrest, add_assoc]

theorem countedAt_eq (hfilled : ∀ c ∈ counted, c.1.Filled) (hbox : box.Filled) :
    (box ∉ counted.map Prod.fst → countedAt box counted = 0) ∧
      ((counted.map Prod.fst).Nodup → ∀ n, (box, n) ∈ counted → countedAt box counted = n) := by
  induction counted with
  | nil => exact ⟨fun _ => rfl, fun _ n hn => absurd hn List.not_mem_nil⟩
  | cons c rest ih =>
    obtain ⟨b, n⟩ := c
    obtain ⟨hb, hrest⟩ := List.forall_mem_cons.1 hfilled
    obtain ⟨hnone, hone⟩ := ih hrest
    have hcons : countedAt box ((b, n) :: rest) =
        (if b.same box then n else 0) + countedAt box rest := List.sum_cons
    have hsame := Box.same_iff hb hbox
    rw [hcons, List.map_cons]
    refine ⟨fun hmem => ?_, fun hnodup m hm => ?_⟩
    · rw [List.mem_cons, not_or] at hmem
      obtain ⟨hne, hmem⟩ := hmem
      rw [if_neg fun h => hne (hsame.1 h).symm, hnone hmem, zero_add]
    · obtain ⟨hnew, hothers⟩ := List.nodup_cons.1 hnodup
      rcases List.mem_cons.1 hm with heq | hm
      · cases heq
        rw [if_pos (hsame.2 rfl), hnone hnew, add_zero]
      · have hlisted : box ∈ rest.map Prod.fst := List.mem_map_of_mem hm
        rw [if_neg fun h => hnew (hsame.1 h ▸ hlisted), hone hothers m hm, zero_add]

/-- What counting out some examples leads to. -/
structure Tallies (examples : List (Example ν)) (counted : List (Box ν × ν)) : Prop where
  nodup : (counted.map Prod.fst).Nodup
  mem_iff : ∀ box, box ∈ counted.map Prod.fst ↔ box ∈ examples.map Example.box
  countedAt_eq : ∀ box, countedAt box counted = massAt box examples

theorem countedAt_counts (hfilled : ∀ e ∈ examples, e.box.Filled) (box : Box ν) :
    countedAt box (counts examples) = massAt box examples := by
  induction examples using List.reverseRecOn with
  | nil => rfl
  | append_singleton examples e ih =>
    obtain ⟨hexamples, he⟩ := List.forall_mem_append.1 hfilled
    rw [counts_concat, countedAt_count (he e (List.mem_singleton_self e))
      (filled_of_mem_counts hexamples), ih hexamples, massAt_append]
    exact congrArg _ List.sum_singleton.symm

theorem tallies_counts (hfilled : ∀ e ∈ examples, e.box.Filled) :
    Tallies examples (counts examples) :=
  ⟨nodup_counts hfilled, fun _ => mem_counts hfilled, countedAt_counts hfilled⟩

open Classical in
/-- A sum over the masses that were counted is one over the boxes, of which there may be more. -/
theorem sum_counts_eq (hfilled : ∀ e ∈ examples, e.box.Filled) {boxes : Finset (Box ν)}
    (hboxes : ∀ box ∈ boxes, box.Filled) (hlisted : ∀ e ∈ examples, e.box ∈ boxes) {f : ν → ν}
    (hzero : f 0 = 0) :
    ((counts examples).map fun c => f c.2).sum = ∑ box ∈ boxes, f (massAt box examples) := by
  obtain ⟨hnodup, hmem, hcounted⟩ := tallies_counts hfilled
  have hknown : ∀ c ∈ counts examples, c.1 ∈ boxes := by
    intro c hc
    obtain ⟨e, he, heq⟩ := List.mem_map.1 ((hmem c.1).1 (List.mem_map_of_mem hc))
    exact heq ▸ hlisted e he
  have hcountedFilled : ∀ c ∈ counts examples, c.1.Filled := fun c hc => hboxes _ (hknown c hc)
  have hterms : ((counts examples).map fun c => f c.2) =
      ((counts examples).map Prod.fst).map fun box => f (massAt box examples) := by
    rw [List.map_map]
    refine List.map_congr_left fun c hc => congrArg f ?_
    rw [← hcounted]
    exact ((countedAt_eq hcountedFilled (hcountedFilled c hc)).2 hnodup c.2 hc).symm
  rw [hterms, ← List.sum_toFinset _ hnodup]
  refine Finset.sum_subset (fun box hbox => ?_) fun box hbox hnot => ?_
  · obtain ⟨c, hc, rfl⟩ := List.mem_map.1 (List.mem_toFinset.1 hbox)
    exact hknown c hc
  · rw [List.mem_toFinset] at hnot
    rw [← hcounted, (countedAt_eq hcountedFilled (hboxes box hbox)).1 hnot, hzero]

end Exact

/-! ### Entropies of shares -/

variable {box : Box ℝ} {boxes : Finset (Box ℝ)} {examples left right : List (Example ℝ)}

theorem entropyTerm_eq_negMulLog {count total : ℝ} (hcount : 0 ≤ count) (htotal : 0 < total) :
    entropyTerm count total = Real.negMulLog (count / total) / Real.log 2 := by
  rcases hcount.eq_or_lt with rfl | hpos
  · rw [zero_div, Real.negMulLog_zero, zero_div]
    exact if_pos (.inl le_rfl)
  · rw [entropyTerm_eq hpos htotal, Real.negMulLog, Real.logb, neg_mul, neg_div, mul_div_assoc]

theorem entropy_eq_sum_share (hmass : ∀ e ∈ examples, 0 ≤ e.mass)
    (hfilled : ∀ e ∈ examples, e.box.Filled) (hboxes : ∀ box ∈ boxes, box.Filled)
    (hlisted : ∀ e ∈ examples, e.box ∈ boxes) (hpos : 0 < Example.totalMass examples) :
    entropy examples = (∑ box ∈ boxes, Real.negMulLog (share box examples)) / Real.log 2 := by
  have hsum := ExactArithmetic.totalMass_eq examples
  have hzero : entropyTerm 0 (Example.totalMass examples) = 0 := if_pos (.inl le_rfl)
  rw [entropy_eq (hsum ▸ hpos), ← hsum, sum_counts_eq hfilled hboxes hlisted
    (f := fun mass => entropyTerm mass (Example.totalMass examples)) hzero, Finset.sum_div]
  exact Finset.sum_congr rfl fun box _ => entropyTerm_eq_negMulLog (massAt_nonneg hmass) hpos

theorem totalMass_eq_sum_massAt (hfilled : ∀ e ∈ examples, e.box.Filled)
    (hboxes : ∀ box ∈ boxes, box.Filled) (hlisted : ∀ e ∈ examples, e.box ∈ boxes) :
    Example.totalMass examples = ∑ box ∈ boxes, massAt box examples := by
  rw [ExactArithmetic.totalMass_eq, ← sum_counts,
    ← sum_counts_eq hfilled hboxes hlisted (f := fun mass => mass) rfl]

open Classical in
/-- The boxes that some examples show. -/
noncomputable def boxesOf (examples : List (Example ℝ)) : Finset (Box ℝ) :=
  (examples.map Example.box).toFinset

theorem mem_boxesOf : box ∈ boxesOf examples ↔ ∃ e ∈ examples, e.box = box := by
  simp [boxesOf]

theorem filled_of_mem_boxesOf (hfilled : ∀ e ∈ examples, e.box.Filled) :
    ∀ box ∈ boxesOf examples, box.Filled := by
  intro box hbox
  obtain ⟨e, he, rfl⟩ := mem_boxesOf.1 hbox
  exact hfilled e he

/-- The entropy is the same if every box has the same mass. -/
theorem entropy_congr (hmass : ∀ e ∈ left ++ right, 0 ≤ e.mass)
    (hfilled : ∀ e ∈ left ++ right, e.box.Filled)
    (h : ∀ box, massAt box left = massAt box right) : entropy left = entropy right := by
  obtain ⟨hleftMass, hrightMass⟩ := List.forall_mem_append.1 hmass
  obtain ⟨hleft, hright⟩ := List.forall_mem_append.1 hfilled
  have hboxes := filled_of_mem_boxesOf hfilled
  have hleftListed : ∀ e ∈ left, e.box ∈ boxesOf (left ++ right) :=
    fun e he => mem_boxesOf.2 ⟨e, List.mem_append_left right he, rfl⟩
  have hrightListed : ∀ e ∈ right, e.box ∈ boxesOf (left ++ right) :=
    fun e he => mem_boxesOf.2 ⟨e, List.mem_append_right left he, rfl⟩
  have htotal : Example.totalMass left = Example.totalMass right := by
    rw [totalMass_eq_sum_massAt hleft hboxes hleftListed,
      totalMass_eq_sum_massAt hright hboxes hrightListed]
    simp only [h]
  by_cases hpos : 0 < Example.totalMass right
  · rw [entropy_eq_sum_share hleftMass hleft hboxes hleftListed (htotal ▸ hpos),
      entropy_eq_sum_share hrightMass hright hboxes hrightListed hpos]
    simp only [share, h, htotal]
  · rw [entropy_eq_zero (by rwa [← ExactArithmetic.totalMass_eq, htotal]),
      entropy_eq_zero (by rwa [← ExactArithmetic.totalMass_eq])]

theorem entropy_perm {others : List (Example ℝ)} (h : examples.Perm others)
    (hmass : ∀ e ∈ examples, 0 ≤ e.mass) (hfilled : ∀ e ∈ examples, e.box.Filled) :
    entropy examples = entropy others := by
  refine entropy_congr ?_ ?_ fun box => massAt_perm h
  · exact List.forall_mem_append.2 ⟨hmass, fun e he => hmass e (h.mem_iff.2 he)⟩
  · exact List.forall_mem_append.2 ⟨hfilled, fun e he => hfilled e (h.mem_iff.2 he)⟩

/-! ### Mixtures -/

/-- The part of the mass of a whole that one of its sides has. -/
noncomputable def part (side other : List (Example ℝ)) : ℝ :=
  Example.totalMass side / (Example.totalMass side + Example.totalMass other)

/-- What a box adds to the entropy of a whole beyond what it adds to the sides in the mean. -/
noncomputable def surplus (box : Box ℝ) (left right : List (Example ℝ)) : ℝ :=
  Real.negMulLog (share box (left ++ right)) -
    (part left right * Real.negMulLog (share box left) +
      part right left * Real.negMulLog (share box right))

section Massive

variable (hleft : 0 < Example.totalMass left) (hright : 0 < Example.totalMass right)

include hleft hright

theorem part_pos : 0 < part left right := div_pos hleft (add_pos hleft hright)

theorem part_add_part : part left right + part right left = 1 := by
  rw [part, part, add_comm (Example.totalMass right), ← add_div,
    div_self (add_pos hleft hright).ne']

/-- The share of a box in the whole is the weighted mean of its shares in the sides. -/
theorem share_append : share box (left ++ right) =
    part left right * share box left + part right left * share box right := by
  have hsum := (add_pos hleft hright).ne'
  rw [share, share, share, part, part, massAt_append, totalMass_append,
    add_comm (Example.totalMass right)]
  field_simp

omit hleft in
theorem share_nonneg (hmass : ∀ e ∈ right, 0 ≤ e.mass) : 0 ≤ share box right :=
  div_nonneg (massAt_nonneg hmass) hright.le

variable (hleftMass : ∀ e ∈ left, 0 ≤ e.mass) (hrightMass : ∀ e ∈ right, 0 ≤ e.mass)

include hleftMass hrightMass

theorem surplus_nonneg (box : Box ℝ) : 0 ≤ surplus box left right := by
  have hleftShare : 0 ≤ share box left := share_nonneg hleft hleftMass
  have hrightShare : 0 ≤ share box right := share_nonneg hright hrightMass
  have hconcave := Real.concaveOn_negMulLog.2 hleftShare hrightShare (part_pos hleft hright).le
    (part_pos hright hleft).le (part_add_part hleft hright)
  rw [surplus, share_append hleft hright]
  exact sub_nonneg_of_le hconcave

theorem surplus_eq_zero_iff (box : Box ℝ) :
    surplus box left right = 0 ↔ share box left = share box right := by
  have hleftShare : 0 ≤ share box left := share_nonneg hleft hleftMass
  have hrightShare : 0 ≤ share box right := share_nonneg hright hrightMass
  constructor
  · intro hzero
    by_contra hne
    have hconcave := Real.strictConcaveOn_negMulLog.2 hleftShare hrightShare hne
      (part_pos hleft hright) (part_pos hright hleft) (part_add_part hleft hright)
    rw [surplus, share_append hleft hright] at hzero
    exact (sub_pos_of_lt hconcave).ne' hzero
  · intro hsame
    rw [surplus, share_append hleft hright, hsame, ← add_mul, ← add_mul,
      part_add_part hleft hright, one_mul, one_mul, sub_self]

theorem gain_eq_sum_surplus (hfilled : ∀ e ∈ left ++ right, e.box.Filled) :
    (scorer.split left right (scorer.score (left ++ right))).gain =
      (∑ box ∈ boxesOf (left ++ right), surplus box left right) / Real.log 2 := by
  obtain ⟨hleftFilled, hrightFilled⟩ := List.forall_mem_append.1 hfilled
  have hboxes := filled_of_mem_boxesOf hfilled
  have hlisted : ∀ e ∈ left ++ right, e.box ∈ boxesOf (left ++ right) :=
    fun e he => mem_boxesOf.2 ⟨e, he, rfl⟩
  obtain ⟨hleftListed, hrightListed⟩ := List.forall_mem_append.1 hlisted
  have hwhole : 0 < Example.totalMass (left ++ right) := by
    rw [totalMass_append]
    exact add_pos hleft hright
  have hgain : (scorer.split left right (scorer.score (left ++ right))).gain =
      entropy (left ++ right) - part left right * entropy left -
        part right left * entropy right := by
    rw [split_eq (scorer.score (left ++ right)) rfl rfl hleft hright, part, part,
      add_comm (Example.totalMass right)]
    rfl
  rw [hgain, entropy_eq_sum_share (List.forall_mem_append.2 ⟨hleftMass, hrightMass⟩) hfilled hboxes
      hlisted hwhole, entropy_eq_sum_share hleftMass hleftFilled hboxes hleftListed hleft,
    entropy_eq_sum_share hrightMass hrightFilled hboxes hrightListed hright]
  simp only [surplus, Finset.sum_sub_distrib, Finset.sum_add_distrib, ← Finset.mul_sum]
  ring

end Massive

theorem gain_of_massless (hmass : ∀ e ∈ left ++ right, 0 ≤ e.mass)
    (hfilled : ∀ e ∈ left ++ right, e.box.Filled)
    (hnone : Example.totalMass left = 0 ∨ Example.totalMass right = 0) :
    (scorer.split left right (scorer.score (left ++ right))).gain = 0 := by
  obtain ⟨hleftMass, hrightMass⟩ := List.forall_mem_append.1 hmass
  obtain ⟨hleft, hright⟩ := List.forall_mem_append.1 hfilled
  have hzero : ∀ {side : List (Example ℝ)}, (∀ e ∈ side, 0 ≤ e.mass) →
      Example.totalMass side = 0 → ∀ box, massAt box side = 0 :=
    fun hside hsum box => le_antisymm (hsum ▸ massAt_le hside) (massAt_nonneg hside)
  show SplitScore.weightedGain left right (entropy (left ++ right)) (entropy left)
    (entropy right) = 0
  rw [SplitScore.weightedGain]
  split
  · rfl
  · rename_i hsome
    have htotal : Example.totalMass left + Example.totalMass right ≠ 0 :=
      (not_le.1 hsome).ne'
    rcases hnone with hnone | hnone
    · have hsame : entropy (left ++ right) = entropy right := by
        refine entropy_congr (List.forall_mem_append.2 ⟨hmass, hrightMass⟩)
          (List.forall_mem_append.2 ⟨hfilled, hright⟩) fun box => ?_
        rw [massAt_append, hzero hleftMass hnone, zero_add]
      rw [hnone, zero_add] at htotal
      rw [hsame, hnone, zero_add, zero_div, zero_mul, sub_zero, div_self htotal, one_mul, sub_self]
    · have hsame : entropy (left ++ right) = entropy left := by
        refine entropy_congr (List.forall_mem_append.2 ⟨hmass, hleftMass⟩)
          (List.forall_mem_append.2 ⟨hfilled, hleft⟩) fun box => ?_
        rw [massAt_append, hzero hrightMass hnone, add_zero]
      rw [hnone, add_zero] at htotal
      rw [hsame, hnone, add_zero, zero_div, zero_mul, sub_zero, div_self htotal, one_mul, sub_self]

/-- What a split by entropy gains, measured against the entropy of the whole. -/
structure Mixes (left right : List (Example ℝ)) : Prop where
  gain_nonneg : 0 ≤ (scorer.split left right (scorer.score (left ++ right))).gain
  /-- Two sides with mass gain nothing exactly if every box has the same share in both. -/
  gain_eq_zero_iff : 0 < Example.totalMass left → 0 < Example.totalMass right →
    ((scorer.split left right (scorer.score (left ++ right))).gain = 0 ↔
      ∀ e ∈ left ++ right, share e.box left = share e.box right)
  gain_of_massless : Example.totalMass left = 0 ∨ Example.totalMass right = 0 →
    (scorer.split left right (scorer.score (left ++ right))).gain = 0

theorem mixes (hmass : ∀ e ∈ left ++ right, 0 ≤ e.mass)
    (hfilled : ∀ e ∈ left ++ right, e.box.Filled) : Mixes left right := by
  obtain ⟨hleftMass, hrightMass⟩ := List.forall_mem_append.1 hmass
  have hlog : 0 < Real.log 2 := Real.log_pos one_lt_two
  refine ⟨?_, fun hleft hright => ?_, gain_of_massless hmass hfilled⟩
  · rcases (ExactArithmetic.totalMass_nonneg hleftMass).eq_or_lt with hnone | hleft
    · exact (gain_of_massless hmass hfilled (.inl hnone.symm)).ge
    · rcases (ExactArithmetic.totalMass_nonneg hrightMass).eq_or_lt with hnone | hright
      · exact (gain_of_massless hmass hfilled (.inr hnone.symm)).ge
      · rw [gain_eq_sum_surplus hleft hright hleftMass hrightMass hfilled]
        refine div_nonneg (Finset.sum_nonneg fun box _ => ?_) hlog.le
        exact surplus_nonneg hleft hright hleftMass hrightMass box
  · rw [gain_eq_sum_surplus hleft hright hleftMass hrightMass hfilled, div_eq_zero_iff,
      or_iff_left hlog.ne', Finset.sum_eq_zero_iff_of_nonneg fun box _ =>
        surplus_nonneg hleft hright hleftMass hrightMass box]
    simp only [surplus_eq_zero_iff hleft hright hleftMass hrightMass, mem_boxesOf,
      forall_exists_index, and_imp, forall_apply_eq_imp_iff₂]

/-- A split of the whole gains what mixing its sides adds to their entropies, which is never
negative. -/
theorem gain_nonneg {whole : List (Example ℝ)} (h : whole.Perm (left ++ right))
    (hmass : ∀ e ∈ whole, 0 ≤ e.mass) (hfilled : ∀ e ∈ whole, e.box.Filled) :
    0 ≤ (scorer.split left right (scorer.score whole)).gain := by
  have hwhole : scorer.score whole = scorer.score (left ++ right) := entropy_perm h hmass hfilled
  rw [hwhole]
  exact (mixes (fun e he => hmass e (h.mem_iff.2 he))
    fun e he => hfilled e (h.mem_iff.2 he)).gain_nonneg

end Id3

end QuestionTree
