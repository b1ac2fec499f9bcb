import QuestionTree.Proofs.Number.Order

/-!
# Values as bit patterns

A value of sixty-four bits is told apart from others and ranked by its bits alone. Here all that is
not a number has the same bits, while there are many patterns with a full exponent field and some
fraction. So what depends on comparisons only is proved for every arithmetic whose values are
`Patterned`, be they the floating-point values or all patterns of bits: the ranks of different bits
differ, so that values are compared in one line and only equal ones are ranked as equal.
-/

namespace QuestionTree

theorem isLE_or_isLE {α : Type} {cmp : α → α → Ordering} [Std.OrientedCmp cmp] (a b : α) :
    (cmp a b).isLE ∨ (cmp b a).isLE := by
  have hswap : (cmp a b).isGE ↔ (cmp b a).isLE := Std.OrientedCmp.isGE_iff_isLE
  rw [← hswap]
  cases cmp a b with
  | lt => exact .inl rfl
  | eq => exact .inl rfl
  | gt => exact .inr rfl

namespace Binary64

/-- The place of the value with some bits in the total order. -/
def rankOfBits (bits : Nat) : Int :=
  if bits < signBit then bits else -1 - ((bits - signBit : Nat) : Int)

theorem rank_eq (x : Float) : rank x = rankOfBits x.toBits.toNat := rfl

theorem rankOfBits_injective : Function.Injective rankOfBits := by
  intro a b h
  -- bits without the sign have ranks from zero on, the others have negative ranks
  rw [rankOfBits, rankOfBits] at h
  split at h <;> split at h <;> omega

theorem toBits_injective : Function.Injective Float.toBits := by
  intro x y h
  rw [← toFloat_toBits x, h, toFloat_toBits]

end Binary64

/-- Values that are told apart by their bits and ranked by them. -/
class Patterned (ν : Type) [Arithmetic ν] where
  bits : ν → UInt64
  bits_injective : Function.Injective bits
  compare_eq : ∀ a b : ν, compare a b =
    compare (Binary64.rankOfBits (bits a).toNat) (Binary64.rankOfBits (bits b).toNat)

namespace Patterned

variable {ν : Type} [Arithmetic ν] [Patterned ν]

/-- The place of a value in the total order. -/
def rank (a : ν) : Int := Binary64.rankOfBits (bits a).toNat

theorem rank_injective : Function.Injective (rank : ν → Int) := fun _ _ h =>
  bits_injective (UInt64.toNat_inj.1 (Binary64.rankOfBits_injective h))

theorem compare_eq_compareOn : (compare : ν → ν → Ordering) = compareOn rank := by
  funext a b
  exact compare_eq a b

instance : Std.TransOrd ν := by
  rw [Std.TransOrd, compare_eq_compareOn]
  infer_instance

instance : Std.LawfulEqOrd ν where
  compare_self := Std.ReflCmp.compare_self
  eq_of_compare h := by
    rw [compare_eq_compareOn, compareOn, compare_eq_iff_eq] at h
    exact rank_injective h

end Patterned

instance : Patterned Float where
  bits := Float.toBits
  bits_injective := Binary64.toBits_injective
  compare_eq _ _ := rfl

/-- A pattern of bits, which is reckoned with as the floating-point value that it stands for. -/
structure Pattern where
  bits : UInt64
  deriving DecidableEq, Repr

namespace Pattern

def value (p : Pattern) : Float := Float.ofBits p.bits

def ofFloat (x : Float) : Pattern := ⟨x.toBits⟩

instance : Arithmetic Pattern where
  zero := ofFloat 0
  add a b := ofFloat (a.value + b.value)
  sub a b := ofFloat (a.value - b.value)
  mul a b := ofFloat (a.value * b.value)
  div a b := ofFloat (a.value / b.value)
  neg a := ofFloat (-a.value)
  lt a b := a.value < b.value
  le a b := a.value ≤ b.value
  compare a b :=
    compare (Binary64.rankOfBits a.bits.toNat) (Binary64.rankOfBits b.bits.toNat)
  decidableLT a b := Float.decLt a.value b.value
  decidableLE a b := Float.decLe a.value b.value
  log2 a := ofFloat (Float.log2 a.value)

instance : Patterned Pattern where
  bits := bits
  bits_injective := fun ⟨_⟩ ⟨_⟩ h => congrArg mk h
  compare_eq _ _ := rfl

end Pattern

end QuestionTree
