import QuestionTree.Proofs.Example.Box
import QuestionTree.Proofs.Number.Pattern

/-!
# Boxes as keys

Boxes are sorted by a comparison, and looked up by what is fed to a hash and by whether they are the
same. A comparison looks at the values as far as both boxes have some, so by itself it does not
order boxes. But boxes that are made are filled, and filled boxes of one shape have equally many
values: they are ordered by their rows, their columns and then their values as lists are. Whatever
the bits of their values say, made boxes are the same exactly if the same is fed to a hash.
-/

namespace QuestionTree

namespace Box

variable {ν : Type} [Arithmetic ν]

/-- What is fed to a hash. -/
def fed [Patterned ν] (b : Box ν) : Nat × Nat × List UInt64 :=
  (b.rows, b.columns, b.data.map Patterned.bits)

/-- The comparison as far as it may fail. -/
def partialCompare? (a b : Box ν) : Option Ordering := some (compare a b)

/-- Ranks boxes by rows, by columns and by their values as a list. -/
def compareContents (a b : Box ν) : Ordering :=
  compareLex (compareOn rows) (compareLex (compareOn columns) (compareOn data)) a b

theorem compareValues_eq {as bs : List ν} (h : as.length = bs.length) :
    compareValues as bs = compare as bs := by
  induction as generalizing bs with
  | nil =>
    rw [List.eq_nil_of_length_eq_zero h.symm, List.compare_nil_nil]
    rfl
  | cons a as ih =>
    cases bs with
    | nil => cases h
    | cons b bs => rw [compareValues, List.compare_cons_cons, ih (Nat.succ.inj h)]

theorem compare_of_made {a b : Box ν} (ha : a.Made) (hb : b.Made) :
    compare a b = compareContents a b := by
  show (compare a.rows b.rows).then ((compare a.columns b.columns).then _) =
    (compare a.rows b.rows).then ((compare a.columns b.columns).then _)
  cases hrows : compare a.rows b.rows with
  | lt => rfl
  | gt => rfl
  | eq =>
    cases hcolumns : compare a.columns b.columns with
    | lt => rfl
    | gt => rfl
    | eq =>
      rw [compare_eq_iff_eq] at hrows hcolumns
      exact compareValues_eq (ha.filled.trans (hrows ▸ hcolumns ▸ hb.filled.symm))

variable [Patterned ν]

instance : Std.TransCmp (compareContents : Box ν → Box ν → Ordering) :=
  inferInstanceAs (Std.TransCmp
    (compareLex (compareOn rows) (compareLex (compareOn columns) (compareOn data))))

theorem fed_eq_iff {a b : Box ν} : a.fed = b.fed ↔ a.rows = b.rows ∧
    a.columns = b.columns ∧ a.data.map Patterned.bits = b.data.map Patterned.bits := by
  rw [fed, fed, Prod.mk.injEq, Prod.mk.injEq]

/-- What is fed to a hash tells which box it is. -/
theorem fed_injective : Function.Injective (fed : Box ν → Nat × Nat × List UInt64) := by
  intro a b h
  obtain ⟨hrows, hcolumns, hbits⟩ := fed_eq_iff.1 h
  have hdata : a.data = b.data := List.map_injective_iff.2 Patterned.bits_injective hbits
  cases a
  cases b
  cases hrows
  cases hcolumns
  cases hdata
  rfl

theorem same_iff_fed {a b : Box ν} (ha : a.Made) (hb : b.Made) :
    a.same b = true ↔ a.fed = b.fed := by
  rw [same_iff ha.filled hb.filled, fed_injective.eq_iff]

/-- What is required of boxes that are sorted and looked up by hashes. -/
structure LawfulKeys (ν : Type) [Arithmetic ν] [Patterned ν] : Prop where
  /-- Boxes that are made have as many values as cells. -/
  size_eq : ∀ b : Box ν, b.Made → b.size = b.rows * b.columns
  /-- The comparison ranks made boxes in one line. -/
  swap : ∀ a b : Box ν, a.Made → b.Made → compare b a = (compare a b).swap
  antisymm : ∀ a b : Box ν, a.Made → b.Made → (compare a b).isLE → (compare b a).isLE → a = b
  trans : ∀ a b c : Box ν, a.Made → b.Made → c.Made → (compare a b).isLE → (compare b c).isLE →
    (compare a c).isLE
  total : ∀ a b : Box ν, a.Made → b.Made → (compare a b).isLE ∨ (compare b a).isLE
  /-- The comparison that may fail never does, and finds those boxes equal that are the same. -/
  partialCompare_eq : ∀ a b : Box ν, partialCompare? a b = some (compare a b)
  partialCompare_eq_iff : ∀ a b : Box ν, partialCompare? a b = some .eq ↔ a.same b = true
  /-- Made boxes are the same if their shapes and the bits of their values agree. -/
  same_iff : ∀ a b : Box ν, a.Made → b.Made → (a.same b = true ↔ a.rows = b.rows ∧
    a.columns = b.columns ∧ a.data.map Patterned.bits = b.data.map Patterned.bits)
  /-- The same is fed to a hash for made boxes that are the same, and only for them. -/
  fed_iff : ∀ a b : Box ν, a.Made → b.Made → (a.same b = true ↔ a.fed = b.fed)

/-- Made boxes are lawful keys whatever patterns their values have, and what they feed to a hash are
the bits of floating-point values. -/
theorem lawfulKeys : (∀ (ν : Type) [Arithmetic ν] [Patterned ν], LawfulKeys ν) ∧
    ∀ b : Box Float, b.fed = b.hashData := by
  refine ⟨fun ν _ _ => ?_, fun b => rfl⟩
  refine
    { size_eq := fun b hb => hb.filled
      swap := fun a b ha hb => ?_
      antisymm := fun a b ha hb hab hba => ?_
      trans := fun a b c ha hb hc hab hbc => ?_
      total := fun a b ha hb => ?_
      partialCompare_eq := fun _ _ => rfl
      partialCompare_eq_iff := fun a b => ?_
      same_iff := fun a b ha hb => (same_iff_fed ha hb).trans fed_eq_iff
      fed_iff := fun a b ha hb => same_iff_fed ha hb }
  · rw [compare_of_made ha hb, compare_of_made hb ha]
    exact Std.OrientedCmp.eq_swap
  · rw [compare_of_made ha hb] at hab
    rw [compare_of_made hb ha] at hba
    refine (same_iff ha.filled hb.filled).1 (beq_iff_eq.2 ?_)
    rw [compare_of_made ha hb]
    exact Std.OrientedCmp.isLE_antisymm hab hba
  · rw [compare_of_made ha hb] at hab
    rw [compare_of_made hb hc] at hbc
    rw [compare_of_made ha hc]
    exact Std.TransCmp.isLE_trans hab hbc
  · rw [compare_of_made ha hb, compare_of_made hb ha]
    exact isLE_or_isLE a b
  · rw [partialCompare?, Option.some.injEq, same, beq_iff_eq]

/-- A positive and a negative value that are no numbers are not the same. -/
example : (single (⟨0x7ff8000000000000⟩ : Pattern)).same (single ⟨0xfff8000000000000⟩) = false := by
  decide

end Box

end QuestionTree
