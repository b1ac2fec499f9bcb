import QuestionTree.Proofs.Number.Exact
import QuestionTree.Scorer

/-!
# Squared deviations

In arithmetic that does not round, the score by squared deviations is what its name says: the sum of
the squared distances of the observations from their mean, each weighted by the mass of its example.
The definition computes it by sums and squares over vectors of any lengths, so the proof goes by one
coordinate after the other, shorter vectors being zero behind their last value. Nothing is closer to
the values of a coordinate than their mean, hence the deviations on the two sides of a split, each
from a mean of its own, are no more than those on the whole.
-/

namespace QuestionTree

variable {ν : Type} [ExactArithmetic ν]

/-- The observation at a place, zero behind the last one. -/
def Example.coordinate (i : Nat) (e : Example ν) : ν := e.box.data.getD i 0

theorem Example.coordinate_of_size_le {i : Nat} {e : Example ν} (h : e.box.size ≤ i) :
    e.coordinate i = 0 :=
  List.getD_eq_default _ _ h

namespace Variance

/-! ### Weighted sums -/

def massOf (examples : List (Example ν)) : ν := (examples.map Example.mass).sum

/-- The sum of what the examples count, each weighted by its mass. -/
def weighted (value : Example ν → ν) (examples : List (Example ν)) : ν :=
  (examples.map fun e => e.mass * value e).sum

variable {value other : Example ν → ν} {e : Example ν} {examples left right : List (Example ν)}

theorem massOf_cons : massOf (e :: examples) = e.mass + massOf examples := List.sum_cons

theorem weighted_cons :
    weighted value (e :: examples) = e.mass * value e + weighted value examples :=
  List.sum_cons

theorem weighted_append :
    weighted value (left ++ right) = weighted value left + weighted value right := by
  rw [weighted, List.map_append, List.sum_append]
  rfl

theorem weighted_congr (h : ∀ e ∈ examples, value e = other e) :
    weighted value examples = weighted other examples := by
  refine congrArg List.sum (List.map_congr_left fun e he => ?_)
  rw [h e he]

theorem massOf_nonneg (hmass : ∀ e ∈ examples, 0 ≤ e.mass) : 0 ≤ massOf examples := by
  rw [massOf, ← ExactArithmetic.totalMass_eq]
  exact ExactArithmetic.totalMass_nonneg hmass

theorem weighted_nonneg (hmass : ∀ e ∈ examples, 0 ≤ e.mass) (hvalue : ∀ e, 0 ≤ value e) :
    0 ≤ weighted value examples := by
  refine List.sum_nonneg fun term hmem => ?_
  obtain ⟨e, he, rfl⟩ := List.mem_map.1 hmem
  exact mul_nonneg (hmass e he) (hvalue e)

theorem weighted_eq_zero (hmass : ∀ e ∈ examples, 0 ≤ e.mass) (hzero : massOf examples = 0) :
    weighted value examples = 0 := by
  induction examples with
  | nil => rfl
  | cons e examples ih =>
    obtain ⟨he, hrest⟩ := List.forall_mem_cons.1 hmass
    rw [massOf_cons] at hzero
    obtain ⟨hfirst, hothers⟩ := (add_eq_zero_iff_of_nonneg he (massOf_nonneg hrest)).1 hzero
    rw [weighted_cons, hfirst, zero_mul, zero_add, ih hrest hothers]

theorem weighted_sum {ι : Type} (places : Finset ι) (values : ι → Example ν → ν)
    (examples : List (Example ν)) :
    weighted (fun e => ∑ i ∈ places, values i e) examples =
      ∑ i ∈ places, weighted (values i) examples := by
  induction examples with
  | nil => exact Finset.sum_const_zero.symm
  | cons e examples ih =>
    simp only [weighted_cons]
    rw [ih, Finset.sum_add_distrib, Finset.mul_sum]

theorem weighted_sq_sub (value : Example ν → ν) (center : ν) (examples : List (Example ν)) :
    weighted (fun e => (value e - center) ^ 2) examples =
      weighted (fun e => value e ^ 2) examples - 2 * center * weighted value examples +
        center ^ 2 * massOf examples := by
  induction examples with
  | nil =>
    have hempty : ∀ value : Example ν → ν, weighted value [] = 0 := fun _ => rfl
    have hmassless : massOf ([] : List (Example ν)) = 0 := rfl
    rw [hempty, hempty, hempty, hmassless]
    ring
  | cons e examples ih =>
    rw [weighted_cons, weighted_cons, weighted_cons, massOf_cons, ih]
    ring

/-! ### One coordinate -/

/-- The mean of what the examples count, zero if they have no mass. -/
def mean (value : Example ν → ν) (examples : List (Example ν)) : ν :=
  weighted value examples / massOf examples

/-- The weighted sum of the squared distances from the mean. -/
def spread (value : Example ν → ν) (examples : List (Example ν)) : ν :=
  weighted (fun e => (value e - mean value examples) ^ 2) examples

theorem spread_eq (value : Example ν → ν) (hmass : massOf examples ≠ 0) :
    spread value examples = weighted (fun e => value e ^ 2) examples -
      weighted value examples * weighted value examples / massOf examples := by
  rw [spread, weighted_sq_sub, mean]
  field_simp
  ring

/-- No point is closer to the values than their mean. -/
theorem spread_le (value : Example ν → ν) (hmass : ∀ e ∈ examples, 0 ≤ e.mass) (center : ν) :
    spread value examples ≤ weighted (fun e => (value e - center) ^ 2) examples := by
  by_cases hzero : massOf examples = 0
  · rw [spread, weighted_eq_zero hmass hzero, weighted_eq_zero hmass hzero]
  · have hexcess : weighted (fun e => (value e - center) ^ 2) examples =
        spread value examples + massOf examples * (mean value examples - center) ^ 2 := by
      rw [spread_eq value hzero, weighted_sq_sub, mean]
      field_simp
      ring
    rw [hexcess]
    exact le_add_of_nonneg_right (mul_nonneg (massOf_nonneg hmass) (sq_nonneg _))

/-- The sides of a split do not spread more than the whole. -/
theorem spread_add_le (value : Example ν → ν) (hleft : ∀ e ∈ left, 0 ≤ e.mass)
    (hright : ∀ e ∈ right, 0 ≤ e.mass) :
    spread value left + spread value right ≤ spread value (left ++ right) := by
  rw [spread.eq_def value (left ++ right), weighted_append]
  exact add_le_add (spread_le value hleft _) (spread_le value hright _)

theorem weighted_of_zero (h : ∀ e ∈ examples, value e = 0) : weighted value examples = 0 := by
  have hterms : examples.map (fun e => e.mass * value e) = examples.map fun _ => (0 : ν) :=
    List.map_congr_left fun e he => by rw [h e he, mul_zero]
  rw [weighted, hterms, List.map_const', List.sum_replicate, smul_zero]

theorem spread_of_zero (h : ∀ e ∈ examples, value e = 0) : spread value examples = 0 := by
  refine weighted_of_zero fun e he => ?_
  rw [mean, weighted_of_zero h, h e he, zero_div, sub_zero, zero_pow two_ne_zero]

/-! ### All coordinates -/

theorem foldl_max_le_iff {sizes : List Nat} {size bound : Nat} :
    sizes.foldl max size ≤ bound ↔ size ≤ bound ∧ ∀ n ∈ sizes, n ≤ bound := by
  induction sizes generalizing size with
  | nil => simp
  | cons n sizes ih => rw [List.foldl_cons, ih, max_le_iff, List.forall_mem_cons, and_assoc]

omit [ExactArithmetic ν] in
theorem dimension_le_iff {bound : Nat} :
    dimension examples ≤ bound ↔ ∀ e ∈ examples, e.box.size ≤ bound := by
  rw [dimension, foldl_max_le_iff, List.forall_mem_map]
  exact and_iff_right (Nat.zero_le bound)

/-- The sum of the squared deviations of the observations from their mean, each weighted by the mass
of its example. Observations are filled up with zeros. -/
def deviation (examples : List (Example ν)) : ν :=
  weighted (fun e => ∑ i ∈ Finset.range (dimension examples),
    (e.coordinate i - mean (Example.coordinate i) examples) ^ 2) examples

theorem deviation_eq_sum {bound : Nat} (h : dimension examples ≤ bound) :
    deviation examples = ∑ i ∈ Finset.range bound, spread (Example.coordinate i) examples := by
  rw [deviation, weighted_sum]
  refine Finset.sum_subset (Finset.range_subset_range.2 h) fun i _ hbehind => ?_
  have hsize : dimension examples ≤ i := Nat.le_of_not_lt fun hlt =>
    hbehind (Finset.mem_range.2 hlt)
  exact spread_of_zero fun e he => Example.coordinate_of_size_le (dimension_le_iff.1 hsize e he)

theorem deviation_nonneg (hmass : ∀ e ∈ examples, 0 ≤ e.mass) : 0 ≤ deviation examples :=
  weighted_nonneg hmass fun _ => Finset.sum_nonneg fun _ _ => sq_nonneg _

theorem deviation_perm {others : List (Example ν)} (h : examples.Perm others) :
    deviation examples = deviation others := by
  have hweighted : ∀ value : Example ν → ν, weighted value examples = weighted value others :=
    fun value => (h.map _).sum_eq
  have hmass : massOf examples = massOf others := (h.map _).sum_eq
  have hmean : ∀ value : Example ν → ν, mean value examples = mean value others := by
    intro value
    rw [mean, mean, hweighted, hmass]
  have hbound : ∀ bound, dimension examples ≤ bound ↔ dimension others ≤ bound := by
    intro bound
    rw [dimension_le_iff, dimension_le_iff]
    exact forall_congr' fun e => imp_congr_left h.mem_iff
  have hdimension : dimension examples = dimension others :=
    le_antisymm ((hbound _).2 le_rfl) ((hbound _).1 le_rfl)
  simp only [deviation, hdimension, hmean, hweighted]

theorem deviation_add_le (hleft : ∀ e ∈ left, 0 ≤ e.mass) (hright : ∀ e ∈ right, 0 ≤ e.mass) :
    deviation left + deviation right ≤ deviation (left ++ right) := by
  have hsizes := dimension_le_iff.1 (le_refl (dimension (left ++ right)))
  have hleftBound : dimension left ≤ dimension (left ++ right) :=
    dimension_le_iff.2 fun e he => hsizes e (List.mem_append_left right he)
  have hrightBound : dimension right ≤ dimension (left ++ right) :=
    dimension_le_iff.2 fun e he => hsizes e (List.mem_append_right left he)
  rw [deviation_eq_sum hleftBound, deviation_eq_sum hrightBound, deviation_eq_sum le_rfl,
    ← Finset.sum_add_distrib]
  exact Finset.sum_le_sum fun i _ => spread_add_le (Example.coordinate i) hleft hright

/-! ### What is computed -/

/-- A sum over the values of a vector goes on over the zeros behind them. -/
theorem sum_map_eq_sum_range {f : ν → ν} (hzero : f 0 = 0) {values : List ν} {bound : Nat}
    (h : values.length ≤ bound) :
    (values.map f).sum = ∑ i ∈ Finset.range bound, f (values.getD i 0) := by
  induction values generalizing bound with
  | nil => simp [hzero]
  | cons value values ih =>
    cases bound with
    | zero => cases h
    | succ bound =>
      rw [List.map_cons, List.sum_cons, ih (Nat.le_of_succ_le_succ h), Finset.sum_range_succ',
        add_comm]
      rfl

theorem length_addValues (mass : ν) (sums values : List ν) (squares : ν) :
    (addValues mass sums values squares).1.length = sums.length := by
  induction sums generalizing values squares with
  | nil => rfl
  | cons s sums ih =>
    cases values with
    | nil => rfl
    | cons v values => exact congrArg (· + 1) (ih values _)

theorem getD_addValues (mass : ν) {sums values : List ν} (h : values.length ≤ sums.length)
    (squares : ν) (i : Nat) :
    (addValues mass sums values squares).1.getD i 0 = sums.getD i 0 + mass * values.getD i 0 := by
  induction sums generalizing values squares i with
  | nil =>
    rw [List.eq_nil_of_length_eq_zero (Nat.le_zero.1 h)]
    simp [addValues]
  | cons s sums ih =>
    cases values with
    | nil => simp [addValues]
    | cons v values =>
      cases i with
      | zero => rfl
      | succ i => exact ih (Nat.le_of_succ_le_succ h) _ i

theorem squares_addValues (mass : ν) {sums values : List ν} (h : values.length ≤ sums.length)
    (squares : ν) :
    (addValues mass sums values squares).2 =
      squares + mass * (values.map fun v => v ^ 2).sum := by
  induction sums generalizing values squares with
  | nil =>
    rw [List.eq_nil_of_length_eq_zero (Nat.le_zero.1 h)]
    simp [addValues]
  | cons s sums ih =>
    cases values with
    | nil => simp [addValues]
    | cons v values =>
      refine (ih (Nat.le_of_succ_le_succ h) _).trans ?_
      rw [List.map_cons, List.sum_cons]
      ring

/-- What examples add to moments whose sums are as long as the longest of their vectors. -/
structure Moments.Adds (examples : List (Example ν)) (m sum : Moments ν) : Prop where
  length_eq : sum.sums.length = m.sums.length
  sums_eq : ∀ i, sum.sums.getD i 0 = m.sums.getD i 0 + weighted (Example.coordinate i) examples
  squares_eq : sum.squares =
    m.squares + weighted (fun e => (e.box.data.map fun v => v ^ 2).sum) examples
  mass_eq : sum.mass = m.mass + massOf examples

theorem Moments.adds_foldl {examples : List (Example ν)} {m : Moments ν}
    (h : ∀ e ∈ examples, e.box.size ≤ m.sums.length) :
    Adds examples m (examples.foldl Moments.add m) := by
  induction examples generalizing m with
  | nil => exact ⟨rfl, fun i => (add_zero _).symm, (add_zero _).symm, (add_zero _).symm⟩
  | cons e examples ih =>
    obtain ⟨hsize, hrest⟩ := List.forall_mem_cons.1 h
    have hlength : (m.add e).sums.length = m.sums.length := length_addValues ..
    obtain ⟨hlengths, hsums, hsquares, hmass⟩ := ih (m := m.add e) (hlength ▸ hrest)
    refine ⟨hlengths.trans hlength, fun i => ?_, ?_, ?_⟩
    · have hadd : (m.add e).sums.getD i 0 = m.sums.getD i 0 + e.mass * e.coordinate i :=
        getD_addValues e.mass hsize _ i
      rw [List.foldl_cons, hsums, hadd, weighted_cons, add_assoc]
    · have hadd : (m.add e).squares =
          m.squares + e.mass * (e.box.data.map fun v => v ^ 2).sum :=
        squares_addValues e.mass hsize _
      rw [List.foldl_cons, hsquares, hadd, weighted_cons, add_assoc]
    · rw [List.foldl_cons, hmass, massOf_cons, ← add_assoc]
      rfl

theorem adds_moments (examples : List (Example ν)) :
    Moments.Adds examples ⟨List.replicate (dimension examples) 0, 0, 0⟩ (moments examples) := by
  refine Moments.adds_foldl fun e he => ?_
  rw [List.length_replicate]
  exact dimension_le_iff.1 le_rfl e he

theorem mass_moments (examples : List (Example ν)) : (moments examples).mass = massOf examples :=
  (adds_moments examples).mass_eq.trans (zero_add _)

theorem squares_moments (examples : List (Example ν)) :
    (moments examples).squares = ∑ i ∈ Finset.range (dimension examples),
      weighted (fun e => e.coordinate i ^ 2) examples := by
  rw [(adds_moments examples).squares_eq, zero_add, ← weighted_sum]
  refine weighted_congr fun e he => ?_
  exact sum_map_eq_sum_range (zero_pow two_ne_zero) (dimension_le_iff.1 le_rfl e he)

theorem total_squares_moments (examples : List (Example ν)) :
    Arithmetic.total ((moments examples).sums.map fun s => s * s) =
      ∑ i ∈ Finset.range (dimension examples),
        weighted (Example.coordinate i) examples * weighted (Example.coordinate i) examples := by
  have hadds := adds_moments examples
  have hlength : (moments examples).sums.length ≤ dimension examples := by
    rw [hadds.length_eq, List.length_replicate]
  have hsum : ∀ i, (moments examples).sums.getD i 0 = weighted (Example.coordinate i) examples := by
    intro i
    have hstart : (List.replicate (dimension examples) (0 : ν)).getD i 0 = 0 := by
      rw [List.getD_eq_getElem?_getD, List.getElem?_replicate]
      split <;> rfl
    rw [hadds.sums_eq, hstart, zero_add]
  rw [ExactArithmetic.total_eq,
    sum_map_eq_sum_range (f := fun s => s * s) (mul_zero 0) hlength]
  simp only [hsum]

/-- Squares less squared sums over the mass are the deviation from the mean. -/
theorem squares_sub_between (hmass : massOf examples ≠ 0) :
    (moments examples).squares -
        Arithmetic.total ((moments examples).sums.map fun s => s * s) / (moments examples).mass =
      deviation examples := by
  rw [squares_moments, total_squares_moments, mass_moments, Finset.sum_div,
    ← Finset.sum_sub_distrib, deviation_eq_sum le_rfl]
  exact Finset.sum_congr rfl fun i _ => (spread_eq (Example.coordinate i) hmass).symm

theorem sumOfSquares_eq (hmass : ∀ e ∈ examples, 0 ≤ e.mass) :
    sumOfSquares examples = deviation examples := by
  rw [sumOfSquares]
  dsimp only
  split
  · rename_i hnone
    rw [mass_moments] at hnone
    exact (weighted_eq_zero hmass (le_antisymm hnone (massOf_nonneg hmass))).symm
  · rename_i hsome
    rw [mass_moments] at hsome
    have hpos : massOf examples ≠ 0 := fun hzero => hsome hzero.le
    rw [squares_sub_between hpos]
    exact ExactArithmetic.clampAtZero_of_nonneg (deviation_nonneg hmass)

theorem sumOfSquares_perm {others : List (Example ν)} (h : examples.Perm others)
    (hmass : ∀ e ∈ examples, 0 ≤ e.mass) : sumOfSquares others = sumOfSquares examples := by
  rw [sumOfSquares_eq hmass, sumOfSquares_eq fun e he => hmass e (h.mem_iff.2 he),
    deviation_perm h]

theorem sumOfSquares_add_le (hleft : ∀ e ∈ left, 0 ≤ e.mass) (hright : ∀ e ∈ right, 0 ≤ e.mass) :
    sumOfSquares left + sumOfSquares right ≤ sumOfSquares (left ++ right) := by
  have hboth : ∀ e ∈ left ++ right, 0 ≤ e.mass := List.forall_mem_append.2 ⟨hleft, hright⟩
  rw [sumOfSquares_eq hleft, sumOfSquares_eq hright, sumOfSquares_eq hboth]
  exact deviation_add_le hleft hright

/-- A split of the whole gains what its sides deviate less, which is never negative. -/
theorem gain_nonneg {whole : List (Example ν)} (h : whole.Perm (left ++ right))
    (hmass : ∀ e ∈ whole, 0 ≤ e.mass) :
    0 ≤ (scorer.split left right (scorer.score whole)).gain := by
  have hboth : ∀ e ∈ left ++ right, 0 ≤ e.mass := fun e he => hmass e (h.mem_iff.2 he)
  obtain ⟨hleft, hright⟩ := List.forall_mem_append.1 hboth
  have hwhole : scorer.score whole = sumOfSquares (left ++ right) :=
    (sumOfSquares_perm h hmass).symm
  have hgain : (scorer.split left right (scorer.score whole)).gain =
      sumOfSquares (left ++ right) - (sumOfSquares left + sumOfSquares right) := by
    rw [hwhole, ← sub_sub]
    rfl
  rw [hgain]
  exact sub_nonneg_of_le (sumOfSquares_add_le hleft hright)

end Variance

end QuestionTree
