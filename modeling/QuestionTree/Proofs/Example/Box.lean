import Mathlib
import QuestionTree.Example
import QuestionTree.Proofs.Failure

/-!
# Boxes that are filled

A box is filled if it has as many values as cells. Every way to make a box fills it, and writing to
a cell keeps it so. Filled boxes that a comparison does not tell apart are equal: their shapes leave
room for equally many values, and where only equal values have the same rank these are equal.
-/

namespace QuestionTree

namespace Box

variable {ν : Type}

/-- Whether a box has as many values as cells. -/
def Filled (b : Box ν) : Prop := b.size = b.rows * b.columns

theorem filled_single (value : ν) : (single value).Filled := rfl

theorem filled_vector (values : List ν) : (vector values).Filled := (Nat.one_mul _).symm

variable {b b' : Box ν} {rows columns : Nat}

theorem filled_of_ofValues {values : List ν} (h : ofValues rows columns values = .ok b) :
    b.Filled := by
  rw [ofValues] at h
  split at h
  · rename_i hcount
    cases h
    exact hcount.symm
  · cases h

theorem Filled.setAt? {i j : Nat} {value : ν} (h : b.Filled)
    (hset : b.setAt? i j value = some b') : b'.Filled := by
  rw [Box.setAt?] at hset
  split at hset
  · cases hset
    exact (List.length_set ..).trans h
  · cases hset

variable [Arithmetic ν] {memory : Memory}

theorem filled_of_zeros (h : zeros memory rows columns = .ok b) : b.Filled := by
  rw [zeros] at h
  split at h
  · cases h
  · split at h
    · cases h
      exact List.length_replicate
    · cases h

/-! ### Boxes that are made -/

/-- Whether a box has come about by making it and writing to its cells. -/
inductive Made : Box ν → Prop where
  | zeros {memory : Memory} {rows columns : Nat} {b : Box ν}
      (h : Box.zeros memory rows columns = .ok b) : Made b
  | single (value : ν) : Made (Box.single value)
  | vector (values : List ν) : Made (Box.vector values)
  | ofValues {rows columns : Nat} {values : List ν} {b : Box ν}
      (h : Box.ofValues rows columns values = .ok b) : Made b
  | setAt {b b' : Box ν} {i j : Nat} {value : ν} (hb : Made b)
      (h : b.setAt? i j value = some b') : Made b'

namespace Made

theorem filled (h : b.Made) : b.Filled := by
  induction h with
  | zeros h => exact filled_of_zeros h
  | single value => exact filled_single value
  | vector values => exact filled_vector values
  | ofValues h => exact filled_of_ofValues h
  | setAt _ h ih => exact ih.setAt? h

theorem writeRow? {i j : Nat} {values : List ν} (h : b.Made)
    (hwrite : b.writeRow? i j values = some b') : b'.Made := by
  induction values generalizing b j with
  | nil =>
    cases hwrite
    exact h
  | cons value values ih =>
    obtain ⟨c, hset, hrest⟩ := Option.bind_eq_some_iff.1 hwrite
    exact ih (h.setAt hset) hrest

theorem fillRows {i : Nat} {values : List (List ν)} (h : b.Made)
    (hfill : b.fillRows i values = .ok b') : b'.Made := by
  induction values generalizing b i with
  | nil =>
    cases hfill
    exact h
  | cons row values ih =>
    rw [Box.fillRows] at hfill
    split at hfill
    · cases hfill
    · split at hfill
      · rename_i c hwrite
        exact ih (h.writeRow? hwrite) hfill
      · cases hfill

theorem ofRows {values : List (List ν)} (h : Box.ofRows memory values = .ok b) : b.Made := by
  obtain ⟨c, hzeros, hfill⟩ := bind_eq_ok_iff.1 h
  exact (zeros hzeros).fillRows hfill

end Made

/-! ### Boxes that are the same -/

variable [Std.LawfulEqOrd ν]

theorem compareValues_eq_iff {as bs : List ν} (h : as.length = bs.length) :
    compareValues as bs = .eq ↔ as = bs := by
  induction as generalizing bs with
  | nil => exact iff_of_true rfl (List.eq_nil_of_length_eq_zero h.symm).symm
  | cons a as ih =>
    cases bs with
    | nil => cases h
    | cons b bs =>
      rw [compareValues, Ordering.then_eq_eq, List.cons.injEq, ih (Nat.succ.inj h)]
      exact and_congr_left' Std.LawfulEqOrd.compare_eq_iff_eq

theorem same_iff {a b : Box ν} (ha : a.Filled) (hb : b.Filled) : a.same b = true ↔ a = b := by
  obtain ⟨rows, columns, data⟩ := a
  obtain ⟨rows', columns', data'⟩ := b
  have hcompare : compare (⟨rows, columns, data⟩ : Box ν) ⟨rows', columns', data'⟩ =
      (compare rows rows').then ((compare columns columns').then (compareValues data data')) := rfl
  rw [same, beq_iff_eq, hcompare, Ordering.then_eq_eq, Ordering.then_eq_eq, compare_eq_iff_eq,
    compare_eq_iff_eq, Box.mk.injEq]
  refine and_congr_right fun hrows => and_congr_right fun hcolumns => compareValues_eq_iff ?_
  have hsize : data.length = rows * columns := ha
  have hsize' : data'.length = rows' * columns' := hb
  rw [hsize, hsize', hrows, hcolumns]

end Box

end QuestionTree
