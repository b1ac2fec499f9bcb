import QuestionTree.Number.Binary64
import Mathlib

/-!
# The bits of finite values

The bits of a finite value are its sign, an exponent field and a fraction field. Counted in units of
the least positive value, a finite value is `mantissa * 2 ^ shift`, where the mantissa has its full
length unless the shift is zero; then `shift * leadingBit + mantissa` are its bits without the sign.
-/

namespace QuestionTree

namespace Binary64

open Float.Model
open UnpackedFloat (unpackExponent)

theorem toNat_unpackExponent (b : BitVec 64) :
    (@unpackExponent .binary64 b).toNat = b.toNat / 2 ^ 52 % 2 ^ 11 := by
  simp [unpackExponent, BitVec.extractLsb, Nat.shiftRight_eq_div_pow]

variable {x : Float}

theorem isFinite_iff : x.isFinite = true ↔ @unpackExponent .binary64 x.toBits.toBitVec ≠ -1#_ := by
  have hunpack : x.isFinite = (UnpackedFloat.unpack .binary64 x.toBits.toBitVec).isFinite := rfl
  rw [hunpack, UnpackedFloat.unpack]
  dsimp only
  by_cases h : @unpackExponent .binary64 x.toBits.toBitVec = -1#_
  · rw [if_pos h]
    refine iff_of_false ?_ fun hne => hne h
    split <;> exact Bool.false_ne_true
  · rw [if_neg h]
    refine iff_of_true ?_ h
    split
    · split <;> rfl
    · rfl

theorem toFloat_toBits (x : Float) : toFloat x.toBits.toNat = x := by
  rw [toFloat, UInt64.ofNat_toNat, Float.ofBits_toBits]

theorem isFinite_toFloat {bits : Nat} (hlt : bits < 2 ^ 64)
    (hfield : bits / 2 ^ 52 % 2 ^ 11 ≠ 2 ^ 11 - 1) : (toFloat bits).isFinite = true := by
  have hbits : (UInt64.ofNat bits).toBitVec.toNat = bits := Nat.mod_eq_of_lt hlt
  have hexponent : @unpackExponent .binary64 (UInt64.ofNat bits).toBitVec ≠ -1#_ := by
    intro heq
    have hnat := congrArg BitVec.toNat heq
    rw [toNat_unpackExponent, hbits] at hnat
    exact hfield hnat
  have hpack : (toFloat bits).toBits.toBitVec = (UInt64.ofNat bits).toBitVec :=
    UnpackedFloat.pack_unpack_of_valid ⟨fun hfull => absurd hfull hexponent⟩
  rw [isFinite_iff, hpack]
  exact hexponent

/-- Whether a value counts units of a power of two by a mantissa of full length, or the least units
by a shorter one. -/
def Canonical (mantissa shift : Nat) : Prop :=
  mantissa < 2 * leadingBit ∧ (leadingBit ≤ mantissa ∨ shift = 0)

/-- The mantissa and the exponent of a finite value make up its bits. -/
theorem exists_finite (h : x.isFinite = true) : ∃ negative mantissa shift,
    ofFloat x = finite negative mantissa (minExponent + (shift : Nat)) ∧
      Canonical mantissa shift ∧ shift * leadingBit + mantissa < infinityBits ∧
      x.toBits.toNat = (if negative then signBit else 0) + (shift * leadingBit + mantissa) := by
  have hlt : x.toBits.toNat < 2 ^ 64 := x.toBits.toNat_lt
  have hfield : x.toBits.toNat / 2 ^ 52 % 2 ^ 11 ≠ 2 ^ 11 - 1 := by
    intro heq
    refine isFinite_iff.1 h (BitVec.eq_of_toNat_eq ?_)
    rw [toNat_unpackExponent]
    exact heq
  have hleading : leadingBit = 2 ^ 52 := rfl
  have hfields : fieldCount = 2 ^ 11 := rfl
  have hsign : signBit = 2 ^ 63 := rfl
  have hinfinity : infinityBits = 2 ^ 52 * (2 ^ 11 - 1) := rfl
  rw [ofFloat, ofBits]
  generalize x.toBits.toNat = bits at hlt hfield
  simp only [Canonical, hleading, hfields, hsign, hinfinity] at hfield ⊢
  rw [if_neg hfield]
  -- an exponent field of zero counts the same units as the field one, without a leading bit
  by_cases hzero : bits / 2 ^ 52 % 2 ^ 11 = 0
  · rw [if_pos hzero]
    refine ⟨_, _, 0, rfl, ?_, ?_, ?_⟩
    · omega
    · omega
    · by_cases hnegative : 2 ^ 63 ≤ bits
      · rw [decide_eq_true hnegative, if_pos rfl]
        omega
      · rw [decide_eq_false hnegative, if_neg Bool.false_ne_true]
        omega
  · rw [if_neg hzero]
    refine ⟨_, _, _, rfl, ?_, ?_, ?_⟩
    · omega
    · omega
    · by_cases hnegative : 2 ^ 63 ≤ bits
      · rw [decide_eq_true hnegative, if_pos rfl]
        omega
      · rw [decide_eq_false hnegative, if_neg Bool.false_ne_true]
        omega

end Binary64

end QuestionTree
