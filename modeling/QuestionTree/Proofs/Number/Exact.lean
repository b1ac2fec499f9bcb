import Mathlib
import QuestionTree.Example

/-!
# Arithmetic that does not round

The definitions of scoring and growth can be read over an ordered field with a logarithm. There the
ways of adding that care for rounding are the plain sum: nothing is left over to be taken back, and
the sign of a zero is not seen.
-/

namespace QuestionTree

/-- The operations on an ordered field, whose results are exact, with any function in place of the
logarithm. -/
class ExactArithmetic (ν : Type) extends Field ν, LinearOrder ν, IsStrictOrderedRing ν where
  log2 : ν → ν

namespace ExactArithmetic

variable {ν : Type} [ExactArithmetic ν]

instance : Arithmetic ν where
  decidableLT := inferInstance
  decidableLE := inferInstance
  log2 := log2

/-- An exact addition leaves no excess to be taken back by the next one. -/
theorem foldl_compensated (values : List ν) (sum : ν) :
    values.foldl Arithmetic.Compensated.add ⟨sum, 0⟩ = ⟨sum + values.sum, 0⟩ := by
  induction values generalizing sum with
  | nil => rw [List.foldl_nil, List.sum_nil, add_zero]
  | cons value values ih =>
    have hadd : Arithmetic.Compensated.add ⟨sum, 0⟩ value = ⟨sum + value, 0⟩ := by
      simp [Arithmetic.Compensated.add]
    rw [List.foldl_cons, hadd, ih, List.sum_cons, add_assoc]

theorem compensatedSum_eq (values : List ν) : Arithmetic.compensatedSum values = values.sum := by
  rw [Arithmetic.compensatedSum, foldl_compensated, zero_add]

theorem foldl_add (values : List ν) (sum : ν) :
    values.foldl (· + ·) sum = sum + values.sum := by
  induction values generalizing sum with
  | nil => rw [List.foldl_nil, List.sum_nil, add_zero]
  | cons value values ih => rw [List.foldl_cons, ih, List.sum_cons, add_assoc]

theorem total_eq (values : List ν) : Arithmetic.total values = values.sum := by
  have hzero : (-0 : ν) = 0 := neg_zero
  exact (foldl_add values _).trans (by rw [hzero, zero_add])

theorem clampAtZero_nonneg (a : ν) : 0 ≤ Arithmetic.clampAtZero a := by
  rw [Arithmetic.clampAtZero]
  split
  · rename_i hpos
    exact hpos.le
  · exact le_refl 0

theorem clampAtZero_of_nonneg {a : ν} (h : 0 ≤ a) : Arithmetic.clampAtZero a = a := by
  rw [Arithmetic.clampAtZero]
  split
  · rfl
  · rename_i hpos
    exact le_antisymm h (not_lt.1 hpos)

theorem totalMass_eq (examples : List (Example ν)) :
    Example.totalMass examples = (examples.map Example.mass).sum :=
  compensatedSum_eq _

theorem totalMass_nonneg {examples : List (Example ν)} (h : ∀ e ∈ examples, 0 ≤ e.mass) :
    0 ≤ Example.totalMass examples := by
  rw [totalMass_eq]
  refine List.sum_nonneg fun mass hmass => ?_
  obtain ⟨e, he, rfl⟩ := List.mem_map.1 hmass
  exact h e he

theorem totalMass_filter_add (members : List (Handle (Example ν))) (p : Handle (Example ν) → Bool) :
    Example.totalMass ((members.filter p).map Handle.item) +
        Example.totalMass ((members.filter fun e => !p e).map Handle.item) =
      Example.totalMass (members.map Handle.item) := by
  have hperm := ((List.filter_append_perm p members).map Handle.item).map Example.mass
  rw [totalMass_eq, totalMass_eq, totalMass_eq, ← List.sum_append, ← hperm.sum_eq, List.map_append,
    List.map_append]

end ExactArithmetic

end QuestionTree
