import QuestionTree.Proofs.Example.Mass
import QuestionTree.Proofs.Number.Sums

/-!
# Compensated sums of masses

While a compensated sum of masses is finite, what it carries over is a small part of it, so nothing
but the sum itself can leave the finite values, and with what it carries over it follows the exact
sum closely: each mass moves it away by a small part of this mass, and by a far smaller part of the
sum. Once the sum leaves the finite values, the excess is an infinity or not a number, and from the
next mass on the sum is not a number either. The sum of masses is therefore a number exactly if the
sum of all masses but the last one is finite, and it is finite as long as the exact sum is at most
half of what there are no bits for.
-/

namespace QuestionTree

namespace Binary64

open Float.Model
open Arithmetic (Compensated)
open ExampleList (Counts)
open UnpackedFloat (Sign)

variable {c : Compensated Float} {x v : Float}

/-- A running sum that is finite, with an excess that is a small part of it. -/
structure Steady (c : Compensated Float) : Prop where
  sum_isFinite : c.sum.isFinite = true
  excess_isFinite : c.excess.isFinite = true
  sum_nonneg : 0 ≤ units c.sum
  excess_le : 2 ^ 51 * ((units c.excess).natAbs : Int) ≤ units c.sum

/-- A running sum that there were no bits for. -/
structure Overflown (c : Compensated Float) : Prop where
  sum_eq : unpacked c.sum = .infinity .positive
  excess_eq : unpacked c.excess = .infinity .positive ∨ unpacked c.excess = .notANumber

/-- A running sum that has been added to after there were no bits for it. -/
structure Lost (c : Compensated Float) : Prop where
  sum_eq : unpacked c.sum = .notANumber
  excess_eq : unpacked c.excess = .notANumber

/-- One more value in a running sum, with finite results of the four operations. -/
structure Added (c : Compensated Float) (v : Float) : Prop where
  value_close : Close (units (v - c.excess)) (units v - units c.excess)
  sum_isFinite : (c.add v).sum.isFinite = true
  sum_close : Close (units (c.add v).sum) (units c.sum + units (v - c.excess))
  grown_close : Close (units ((c.add v).sum - c.sum)) (units (c.add v).sum - units c.sum)
  excess_isFinite : (c.add v).excess.isFinite = true
  excess_close : Close (units (c.add v).excess)
    (units ((c.add v).sum - c.sum) - units (v - c.excess))

/-! ### The errors of one addition -/

section Error

variable {sum excess value y t grown rest : Int}

theorem neg_sum_le (hsum : 0 ≤ sum) (hexcess : 2 ^ 51 * (excess.natAbs : Int) ≤ sum)
    (hvalue : 0 ≤ value) (hy : Close y (value - excess)) : -sum ≤ 2 ^ 50 * y := by
  rw [Close] at hy
  omega

theorem sum_error (hsum : 0 ≤ sum) (hy : -sum ≤ 2 ^ 50 * y) (ht : Close t (sum + y)) :
    sum + y ≤ 2 * t ∧ 2 ^ 53 * ((t - sum - y).natAbs : Int) ≤ sum + y := by
  rw [Close] at ht
  omega

theorem grown_error (hsum : 0 ≤ sum) (hy : -sum ≤ 2 ^ 50 * y) (ht : Close t (sum + y))
    (hgrown : Close grown (t - sum)) : 2 ^ 53 * ((grown - y).natAbs : Int) ≤ 3 * t := by
  have hlarge : (2 ^ 53 - 1) * (sum + y) ≤ 2 ^ 53 * t := by
    rw [Close] at ht
    omega
  have herror := (sum_error hsum hy ht).2
  have hsize : (y.natAbs : Int) ≤ sum + y := by omega
  rw [Close] at hgrown
  omega

theorem value_error (hsum : 0 ≤ sum) (hexcess : 2 ^ 51 * (excess.natAbs : Int) ≤ sum)
    (hvalue : 0 ≤ value) (hy : Close y (value - excess)) :
    2 ^ 104 * ((y - (value - excess)).natAbs : Int) ≤ 2 ^ 51 * value + sum ∧
      2 ^ 51 * (y.natAbs : Int) ≤ 2 ^ 52 * value + 2 * sum := by
  have hsize : 2 ^ 51 * ((value - excess).natAbs : Int) ≤ 2 ^ 51 * value + sum := by omega
  rw [Close] at hy
  clear hexcess
  omega

theorem growth_error (hy : 2 ^ 51 * (y.natAbs : Int) ≤ 2 ^ 52 * value + 2 * sum)
    (ht : 2 ^ 53 * ((t - sum - y).natAbs : Int) ≤ sum + y) (hgrown : Close grown (t - sum)) :
    2 ^ 106 * ((grown - (t - sum)).natAbs : Int) ≤
      2 ^ 54 * value + 8 * sum + (sum + y) := by
  have hsize : 2 ^ 53 * ((t - sum).natAbs : Int) ≤ 2 ^ 54 * value + 8 * sum + (sum + y) := by omega
  rw [Close] at hgrown
  clear hy ht
  omega

/-- The sum less its excess grows by the value that is added, up to the errors of the value less the
old excess and of the new excess. -/
theorem drift_le (hsum : 0 ≤ sum) (hexcess : 2 ^ 51 * (excess.natAbs : Int) ≤ sum)
    (hvalue : 0 ≤ value) (hy : Close y (value - excess)) (ht : Close t (sum + y))
    (hgrown : Close grown (t - sum)) (hrest : Close rest (grown - y)) :
    2 ^ 95 * ((t - rest - (sum - excess) - value).natAbs : Int) ≤ 2 ^ 45 * value + t := by
  have hlow := neg_sum_le hsum hexcess hvalue hy
  obtain ⟨hfirst, hsize⟩ := value_error hsum hexcess hvalue hy
  obtain ⟨htwice, hround⟩ := sum_error hsum hlow ht
  have hsecond := growth_error hsize hround hgrown
  have hleft := grown_error hsum hlow ht hgrown
  have hthird : 2 ^ 106 * ((rest - (grown - y)).natAbs : Int) ≤ 3 * t := by
    rw [Close] at hrest
    clear hfirst hsize hround hsecond hexcess
    omega
  have hsplit : t - rest - (sum - excess) - value =
      y - (value - excess) - (grown - (t - sum)) - (rest - (grown - y)) := by
    ring
  rw [hsplit]
  generalize y - (value - excess) = first at *
  generalize grown - (t - sum) = second at *
  generalize rest - (grown - y) = third at *
  clear hexcess hround hleft hsize
  omega

end Error

/-- What a running sum stands for once its excess is taken off. -/
def held (c : Compensated Float) : Int := units c.sum - units c.excess

theorem Steady.neg_le (h : Steady c) (hv : Counts v)
    (hy : Close (units (v - c.excess)) (units v - units c.excess)) :
    -units c.sum ≤ 2 ^ 50 * units (v - c.excess) :=
  neg_sum_le h.sum_nonneg h.excess_le ((zero_le_iff_units hv.1).1 hv.2) hy

/-- Both sums are representable, so their difference is at most the greater of them, and the new
excess is at most the new sum. -/
theorem Steady.added (h : Steady c) (hv : Counts v) (hy : (v - c.excess).isFinite = true)
    (ht : (c.add v).sum.isFinite = true) : Added c v := by
  have hvalue := (nears_sub hv.1 h.excess_isFinite).close hy
  have hlow := h.neg_le hv hvalue
  have hsum : Close (units (c.add v).sum) (units c.sum + units (v - c.excess)) :=
    (nears_add h.sum_isFinite hy).close ht
  obtain ⟨hreprSum, hltSum⟩ := representable_units h.sum_isFinite
  obtain ⟨hreprT, hltT⟩ := representable_units ht
  have hnonneg := h.sum_nonneg
  have htwice := (sum_error hnonneg hlow hsum).1
  have hgrown : ((c.add v).sum - c.sum).isFinite = true := by
    rcases Int.le_total (units c.sum) (units (c.add v).sum) with hle | hle
    · exact ((nears_sub ht h.sum_isFinite).isFinite_of_le hreprT hltT (by omega)).1
    · exact ((nears_sub ht h.sum_isFinite).isFinite_of_le hreprSum hltSum (by omega)).1
  have hgrownClose := (nears_sub ht h.sum_isFinite).close hgrown
  have hleft := grown_error hnonneg hlow hsum hgrownClose
  have hexcess := ((nears_sub hgrown hy).isFinite_of_le hreprT hltT (by omega)).1
  exact ⟨hvalue, ht, hsum, hgrownClose, hexcess, (nears_sub hgrown hy).close hexcess⟩

theorem Steady.add (h : Steady c) (hv : Counts v) (hadded : Added c v) : Steady (c.add v) := by
  have hlow := h.neg_le hv hadded.value_close
  have htwice := (sum_error h.sum_nonneg hlow hadded.sum_close).1
  have hleft := grown_error h.sum_nonneg hlow hadded.sum_close hadded.grown_close
  have hexcess := hadded.excess_close
  have hnonneg := h.sum_nonneg
  rw [Close] at hexcess
  exact ⟨hadded.sum_isFinite, hadded.excess_isFinite, by omega, by omega⟩

theorem Steady.held_add (h : Steady c) (hv : Counts v) (hadded : Added c v) :
    2 ^ 95 * ((held (c.add v) - held c - units v).natAbs : Int) ≤
      2 ^ 45 * units v + units (c.add v).sum :=
  drift_le h.sum_nonneg h.excess_le ((zero_le_iff_units hv.1).1 hv.2) hadded.value_close
    hadded.sum_close hadded.grown_close hadded.excess_close

/-- All results are finite, or there are no bits for the mass less the excess or for the sum. -/
theorem Steady.added_or (h : Steady c) (hv : Counts v) : Added c v ∨ Overflown (c.add v) := by
  have hexcess := h.excess_le
  have hvalue := (zero_le_iff_units hv.1).1 hv.2
  have hnears := nears_sub hv.1 h.excess_isFinite
  have hy : (v - c.excess).isFinite = true ∨ unpacked (v - c.excess) = .infinity .positive := by
    rcases Int.le_total 0 (units v - units c.excess) with hle | hle
    · exact (hnears.isFinite_or hle).imp_left And.left
    · obtain ⟨hrepr, hlt⟩ := representable_units h.excess_isFinite
      exact .inl (hnears.isFinite_of_le hrepr hlt (by omega)).1
  rcases hy with hfinite | htop
  · have hlow := h.neg_le hv (hnears.close hfinite)
    have hsum := h.sum_nonneg
    rcases (nears_add h.sum_isFinite hfinite).isFinite_or (by omega) with ⟨ht, -⟩ | ht
    · exact .inl (h.added hv hfinite ht)
    · have hgrown := infinity_sub ht h.sum_isFinite
      exact .inr ⟨ht, .inl (infinity_sub hgrown hfinite)⟩
  · have ht := add_infinity h.sum_isFinite htop
    have hgrown := infinity_sub ht h.sum_isFinite
    exact .inr ⟨ht, .inr (infinity_sub_infinity hgrown htop)⟩

/-- Taking an infinite excess off a mass leaves the negative infinity, which cancels the sum. -/
theorem Overflown.add (h : Overflown c) (hv : Counts v) : Lost (c.add v) := by
  have ht : unpacked (c.sum + (v - c.excess)) = .notANumber := by
    rcases h.excess_eq with hexcess | hexcess
    · exact infinity_add_neg_infinity h.sum_eq (sub_infinity hv.1 hexcess)
    · exact add_notANumber _ (sub_notANumber v hexcess)
  exact ⟨ht, notANumber_sub (notANumber_sub ht _) _⟩

theorem Lost.add (h : Lost c) (v : Float) : Lost (c.add v) := by
  have ht := notANumber_add h.sum_eq (v - c.excess)
  exact ⟨ht, notANumber_sub (notANumber_sub ht _) _⟩

theorem Overflown.isFinite_eq_false (h : Overflown c) : c.sum.isFinite = false := by
  rw [isFinite_eq, h.sum_eq]
  rfl

theorem Lost.isFinite_eq_false (h : Lost c) : c.sum.isFinite = false := by
  rw [isFinite_eq, h.sum_eq]
  rfl

/-! ### The exact sum -/

/-- The exact sum of some finite values in units. -/
def exactSum (values : List Float) : Int := (values.map units).sum

theorem exactSum_concat (values : List Float) (v : Float) :
    exactSum (values ++ [v]) = exactSum values + units v := by
  rw [exactSum, List.map_append, List.sum_append, List.map_singleton, List.sum_singleton, exactSum]

/-- How far a running sum of so many masses may be from their exact sum. -/
structure Follows (c : Compensated Float) (exact : Int) (count : Nat) : Prop where
  steady : Steady c
  exact_nonneg : 0 ≤ exact
  drift : 2 ^ 95 * ((held c - exact).natAbs : Int) ≤ (2 ^ 45 + 2 * count) * exact

variable {exact : Int} {count : Nat}

/-- The errors of both roundings are small as long as no more masses are added than any memory
holds. -/
theorem Follows.held_close (h : Follows c exact count) (hcount : count ≤ 2 ^ 44) :
    2 ^ 49 * ((held c - exact).natAbs : Int) ≤ exact := by
  have hdrift := h.drift
  have hfactor : (2 ^ 45 + 2 * (count : Int)) * exact ≤ 2 ^ 46 * exact :=
    Int.mul_le_mul_of_nonneg_right (by omega) h.exact_nonneg
  omega

theorem Follows.sum_close (h : Follows c exact count) (hcount : count ≤ 2 ^ 44) :
    2 ^ 48 * ((units c.sum - exact).natAbs : Int) ≤ exact := by
  have hheld := h.held_close hcount
  have hexcess := h.steady.excess_le
  rw [held] at hheld
  omega

theorem Follows.add (h : Follows c exact count) (hcount : count ≤ 2 ^ 44) (hv : Counts v)
    (hadded : Added c v) : Follows (c.add v) (exact + units v) (count + 1) := by
  have hvalue := (zero_le_iff_units hv.1).1 hv.2
  have hexact := h.exact_nonneg
  have hheld := h.held_close hcount
  have hdrift := h.drift
  have hstep := h.steady.held_add hv hadded
  have hnew : units (c.add v).sum ≤ 2 * (exact + units v) := by
    have hexcess := h.steady.excess_le
    have hsum := h.steady.sum_nonneg
    have hlow := h.steady.neg_le hv hadded.value_close
    have hy := (value_error hsum hexcess hvalue hadded.value_close).1
    have ht := (sum_error hsum hlow hadded.sum_close).2
    clear hdrift hstep hexcess
    rw [held] at hheld
    omega
  have hcounts : (2 ^ 45 + 2 * (count : Int)) * exact + 2 ^ 45 * units v + 2 * (exact + units v) ≤
      (2 ^ 45 + 2 * ((count + 1 : Nat) : Int)) * (exact + units v) := by
    have hpart : 0 ≤ (count : Int) * units v := Int.mul_nonneg (Int.natCast_nonneg count) hvalue
    push_cast
    linarith
  refine ⟨h.steady.add hv hadded, by omega, ?_⟩
  omega

/-- A sum that is far from what there are no bits for stays finite. -/
theorem Follows.added_of_le (h : Follows c exact count) (hcount : count ≤ 2 ^ 44) (hv : Counts v)
    (hsmall : 2 * (exact + units v) ≤ overflowUnits) : Added c v := by
  have hvalue := (zero_le_iff_units hv.1).1 hv.2
  have hexact := h.exact_nonneg
  have hheld := h.held_close hcount
  have hexcess := h.steady.excess_le
  rw [held] at hheld
  have hy := (nears_sub hv.1 h.steady.excess_isFinite).isFinite_of_small (by omega)
  have hclose := (nears_sub hv.1 h.steady.excess_isFinite).close hy
  have hlow := h.steady.neg_le hv hclose
  have hsum := h.steady.sum_nonneg
  rw [Close] at hclose
  exact h.steady.added hv hy ((nears_add h.steady.sum_isFinite hy).isFinite_of_small (by omega))

/-! ### Any number of masses -/

/-- The running sum of some values. -/
def runningSum (values : List Float) : Compensated Float :=
  values.foldl Compensated.add ⟨0, 0⟩

variable {values : List Float}

theorem compensatedSum_eq_sum (values : List Float) :
    Arithmetic.compensatedSum values = (runningSum values).sum := rfl

theorem steady_start : Steady (runningSum []) :=
  ⟨rfl, rfl, Int.le_refl 0, Int.le_refl 0⟩

theorem runningSum_concat (values : List Float) (v : Float) :
    runningSum (values ++ [v]) = (runningSum values).add v :=
  List.foldl_append

/-- What has become of a running sum of masses. -/
theorem runningSum_cases (h : ∀ v ∈ values, Counts v) :
    Steady (runningSum values) ∨ Overflown (runningSum values) ∨ Lost (runningSum values) := by
  induction values using List.reverseRecOn with
  | nil => exact .inl steady_start
  | append_singleton values v ih =>
    have hv := h v (List.mem_append_right values (List.mem_singleton_self v))
    rw [runningSum_concat]
    rcases ih fun w hw => h w (List.mem_append_left [v] hw) with hsteady | hover | hlost
    · exact (hsteady.added_or hv).imp (hsteady.add hv) .inl
    · exact .inr (.inr (hover.add hv))
    · exact .inr (.inr (hlost.add v))

/-- The sum of masses is not a number exactly if the sum of all but the last one is not finite. -/
theorem isNaN_compensatedSum_iff (h : ∀ v ∈ values, Counts v) :
    (Arithmetic.compensatedSum values).isNaN = true ↔
      (Arithmetic.compensatedSum values.dropLast).isFinite = false := by
  rcases List.eq_nil_or_concat values with rfl | ⟨init, v, rfl⟩
  · exact iff_of_false (by decide +kernel) (by decide +kernel)
  · rw [List.concat_eq_append] at h ⊢
    have hv := h v List.mem_concat_self
    rw [List.dropLast_concat, compensatedSum_eq_sum, compensatedSum_eq_sum, runningSum_concat]
    rcases runningSum_cases fun w hw => h w (List.mem_append_left [v] hw) with
      hsteady | hover | hlost
    · have hnumber : ((runningSum init).add v).sum.isNaN = false := by
        rcases hsteady.added_or hv with hadded | hover
        · exact isNaN_of_isFinite hadded.sum_isFinite
        · rw [isNaN_eq, hover.sum_eq]
          rfl
      rw [hnumber, hsteady.sum_isFinite]
      exact iff_of_false Bool.false_ne_true nofun
    · rw [isNaN_eq, (hover.add hv).sum_eq, hover.isFinite_eq_false]
      exact iff_of_true rfl rfl
    · rw [isNaN_eq, (hlost.add v).sum_eq, hlost.isFinite_eq_false]
      exact iff_of_true rfl rfl

/-- As long as the sum of masses is a number, it is not negative. -/
theorem compensatedSum_nonneg (h : ∀ v ∈ values, Counts v)
    (hnumber : (Arithmetic.compensatedSum values).isNaN = false) :
    0 ≤ Arithmetic.compensatedSum values := by
  rw [compensatedSum_eq_sum] at hnumber ⊢
  rcases runningSum_cases h with hsteady | hover | hlost
  · exact (zero_le_iff_units hsteady.sum_isFinite).2 hsteady.sum_nonneg
  · exact zero_le_of_infinity hover.sum_eq
  · rw [isNaN_eq, hlost.sum_eq] at hnumber
    cases hnumber

theorem follows_runningSum (h : ∀ v ∈ values, Counts v) (hlength : values.length ≤ 2 ^ 44)
    (hfinite : (runningSum values).sum.isFinite = true) :
    Follows (runningSum values) (exactSum values) values.length := by
  induction values using List.reverseRecOn with
  | nil => exact ⟨steady_start, Int.le_refl 0, Int.le_refl 0⟩
  | append_singleton values v ih =>
    have hinit := fun w hw => h w (List.mem_append_left [v] hw)
    have hv := h v (List.mem_append_right values (List.mem_singleton_self v))
    rw [List.length_append, List.length_singleton] at hlength ⊢
    rw [runningSum_concat] at hfinite ⊢
    rw [exactSum_concat]
    rcases runningSum_cases hinit with hsteady | hover | hlost
    · have hfollows := ih hinit (by omega) hsteady.sum_isFinite
      rcases hsteady.added_or hv with hadded | hover
      · exact hfollows.add (by omega) hv hadded
      · exact absurd hfinite (by rw [hover.isFinite_eq_false]; exact Bool.false_ne_true)
    · exact absurd hfinite (by rw [(hover.add hv).isFinite_eq_false]; exact Bool.false_ne_true)
    · exact absurd hfinite (by rw [(hlost.add v).isFinite_eq_false]; exact Bool.false_ne_true)

theorem isFinite_runningSum (h : ∀ v ∈ values, Counts v) (hlength : values.length ≤ 2 ^ 44)
    (hsmall : 2 * exactSum values ≤ overflowUnits) :
    (runningSum values).sum.isFinite = true := by
  induction values using List.reverseRecOn with
  | nil => rfl
  | append_singleton values v ih =>
    have hinit := fun w hw => h w (List.mem_append_left [v] hw)
    have hv := h v (List.mem_append_right values (List.mem_singleton_self v))
    have hvalue := (zero_le_iff_units hv.1).1 hv.2
    rw [List.length_append, List.length_singleton] at hlength
    rw [exactSum_concat] at hsmall
    rw [runningSum_concat]
    have hfinite := ih hinit (by omega) (by omega)
    have hfollows := follows_runningSum hinit (by omega) hfinite
    exact (hfollows.added_of_le (by omega) hv hsmall).sum_isFinite

/-- The sum of masses is the exact one but for a small part of it. -/
theorem compensatedSum_error (h : ∀ v ∈ values, Counts v) (hlength : values.length ≤ 2 ^ 44)
    (hfinite : (Arithmetic.compensatedSum values).isFinite = true) :
    2 ^ 48 * ((units (Arithmetic.compensatedSum values) - exactSum values).natAbs : Int) ≤
      exactSum values :=
  (follows_runningSum h hlength hfinite).sum_close hlength

end Binary64

end QuestionTree
