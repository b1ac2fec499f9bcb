import QuestionTree.Proofs.Number.Nearest
import QuestionTree.Proofs.Number.Shortest
import Mathlib.Tactic.LinearCombination

/-!
# The interval of a value

The shortest decimal of a value lies in the interval of the value, and the value is the nearest one
to every number of this interval. The interval is written with numerators over one denominator and
the nearest value is found in units of the least positive value, so all that is to be seen is that
both count the same: `scale_eq` compares the two.
-/

namespace QuestionTree

namespace Shortest

open Binary64

variable {mantissa shift : Nat}

/-- The interval of a value that is counted in units of the least positive value. -/
def intervalOf (mantissa shift : Nat) : Interval :=
  interval mantissa (minExponent + (shift : Nat)) (decide (Narrow mantissa shift))

theorem scale_eq (shift : Nat) : 2 ^ shift * 2 ^ (2 - (minExponent + (shift : Nat))).toNat =
    4 * (2 ^ (-minExponent).toNat * 2 ^ (minExponent + (shift : Nat) - 2).toNat) := by
  have hmin : minExponent = -1074 := rfl
  have hexponents : shift + (2 - (minExponent + (shift : Nat))).toNat =
      2 + ((-minExponent).toNat + (minExponent + (shift : Nat) - 2).toNat) := by
    omega
  have hfour : (4 : Nat) = 2 ^ 2 := rfl
  rw [hfour, ← Nat.pow_add, ← Nat.pow_add, ← Nat.pow_add, hexponents]

theorem proper_intervalOf (hmantissa : 0 < mantissa) : (intervalOf mantissa shift).Proper := by
  have hscale : 0 < Nat.pow 2 (minExponent + (shift : Nat) - 2).toNat := Nat.two_pow_pos _
  refine ⟨Nat.mul_lt_mul_of_pos_right ?_ hscale, Nat.mul_lt_mul_of_pos_right ?_ hscale, ?_⟩
  · split <;> omega
  · omega
  · exact congrArg (2 ^ ·) Nat.log2_two_pow.symm

/-- A value is the nearest one to every number of its interval. -/
theorem rounds_of_holds {num den : Nat} (hden : 0 < den)
    (h : (intervalOf mantissa shift).Holds ((num : ℚ) / den)) :
    Rounds mantissa shift (unitsOf num) den := by
  have hscale := scale_eq shift
  have hunit : 0 < 2 ^ (-minExponent).toNat := Nat.two_pow_pos _
  have hdivisor : 0 < 2 ^ (2 - (minExponent + (shift : Nat))).toNat := Nat.two_pow_pos _
  obtain ⟨hlow, hhigh, hends⟩ := h
  simp only [intervalOf, interval, decide_eq_true_eq, beq_iff_eq, Nat.pow_eq] at hlow hhigh hends
  rw [unitsOf, Nat.pow_eq]
  generalize 2 ^ (2 - (minExponent + (shift : Nat))).toNat = divisor at *
  generalize 2 ^ (minExponent + (shift : Nat) - 2).toNat = scale at *
  generalize 2 ^ (-minExponent).toNat = unit at *
  generalize hwidth : (if Narrow mantissa shift then 1 else 2) = width at *
  -- from here on the scales are arbitrary numbers, tied together by `hscale` alone
  have hden' : (0 : ℚ) < den := Nat.cast_pos.2 hden
  have hunit' : (0 : ℚ) < unit := Nat.cast_pos.2 hunit
  have hdivisor' : (0 : ℚ) < divisor := Nat.cast_pos.2 hdivisor
  have hscale' : (2 ^ shift * divisor : ℚ) = 4 * (unit * scale) := by exact_mod_cast hscale
  -- what one unit of a numerator is worth in units of the least positive value
  have hfactor : (0 : ℚ) < 4 * unit * den / divisor := by positivity
  have hpoint : ((4 * (num * unit) : Nat) : ℚ) =
      num / den * divisor * (4 * unit * den / divisor) := by
    push_cast
    field_simp
  have hend : ∀ a : Nat, ((a * (den * 2 ^ shift) : Nat) : ℚ) =
      ((a * scale : Nat) : ℚ) * (4 * unit * den / divisor) := by
    intro a
    rw [← mul_div_assoc, eq_div_iff hdivisor'.ne']
    push_cast
    linear_combination (a * den : ℚ) * hscale'
  have hwider : 4 * mantissa * (den * 2 ^ shift) ≤
      (4 * mantissa - width) * (den * 2 ^ shift) + width * (den * 2 ^ shift) := by
    rw [← Nat.add_mul]
    exact Nat.mul_le_mul_right _ (by omega)
  refine ⟨?_, ?_, hends.imp_right fun hstrict => ⟨?_, ?_⟩⟩
  · rw [hwidth]
    refine hwider.trans (Nat.add_le_add_right ?_ _)
    rw [← Nat.cast_le (α := ℚ), hend, hpoint]
    exact mul_le_mul_of_nonneg_right hlow hfactor.le
  · rw [← Nat.cast_le (α := ℚ), hend, hpoint]
    exact mul_le_mul_of_nonneg_right hhigh hfactor.le
  · rw [hwidth]
    refine hwider.trans_lt (Nat.add_lt_add_right ?_ _)
    rw [← Nat.cast_lt (α := ℚ), hend, hpoint]
    exact mul_lt_mul_of_pos_right hstrict.1 hfactor
  · rw [← Nat.cast_lt (α := ℚ), hend, hpoint]
    exact mul_lt_mul_of_pos_right hstrict.2 hfactor

theorem Interval.Holds.bounds {x : ℚ} (hmantissa : 0 < mantissa)
    (hvalue : Canonical mantissa shift) (hfinite : shift * leadingBit + mantissa < infinityBits)
    (h : (intervalOf mantissa shift).Holds x) :
    (2 : ℚ) ^ (-1075 : Int) ≤ x ∧ x ≤ (2 : ℚ) ^ (1024 : Int) := by
  obtain ⟨hlow, hhigh, _⟩ := h
  obtain ⟨hlt, hfull⟩ := hvalue
  have hleading : leadingBit = 2 ^ 52 := rfl
  have hinfinity : infinityBits = 2 ^ 52 * 2047 := rfl
  rw [hinfinity] at hfinite
  rw [hleading] at hlt hfull hfinite
  have hshift : shift ≤ 2045 := by omega
  have hscale := zpow_eq_div 2 (minExponent + (shift : Nat) - 2)
  have hneg : -(minExponent + (shift : Nat) - 2) = 2 - (minExponent + (shift : Nat)) := by ring
  have hmin : minExponent = -1074 := rfl
  have hdivisor : (0 : ℚ) < 2 ^ (2 - (minExponent + (shift : Nat))).toNat := by positivity
  have hbelow : (2 : ℚ) ^ (-1076 : Int) ≤ 2 ^ (minExponent + (shift : Nat) - 2) :=
    zpow_le_zpow_right₀ (by norm_num) (by omega)
  have habove : (2 : ℚ) ^ (minExponent + (shift : Nat) - 2) ≤ 2 ^ (969 : Int) :=
    zpow_le_zpow_right₀ (by norm_num) (by omega)
  simp only [intervalOf, interval, decide_eq_true_eq, Nat.pow_eq] at hlow hhigh
  rw [hneg] at hscale
  have hwidth : 2 ≤ 4 * mantissa - (if Narrow mantissa shift then 1 else 2) := by
    split <;> omega
  have htop : 4 * mantissa + 2 ≤ 2 ^ 55 := by omega
  generalize (4 * mantissa - if Narrow mantissa shift then 1 else 2) = bottom at hlow hwidth
  generalize 4 * mantissa + 2 = top at hhigh htop
  push_cast at hlow hhigh
  rw [← div_le_iff₀ hdivisor, mul_div_assoc, ← hscale] at hlow
  rw [← le_div_iff₀ hdivisor, mul_div_assoc, ← hscale] at hhigh
  have hbottom' : (2 : ℚ) ≤ bottom := by exact_mod_cast hwidth
  have htop' : (top : ℚ) ≤ 2 ^ (55 : Int) := by exact_mod_cast htop
  constructor
  · calc (2 : ℚ) ^ (-1075 : Int) = 2 * 2 ^ (-1076 : Int) := by
          rw [← zpow_one_add₀ (by norm_num)]
          norm_num
      _ ≤ bottom * 2 ^ (minExponent + (shift : Nat) - 2) := by gcongr
      _ ≤ x := hlow
  · calc x ≤ top * 2 ^ (minExponent + (shift : Nat) - 2) := hhigh
      _ ≤ 2 ^ (55 : Int) * 2 ^ (969 : Int) := by gcongr
      _ = 2 ^ (1024 : Int) := by
          rw [← zpow_add₀ (by norm_num)]
          norm_num

end Shortest

end QuestionTree
