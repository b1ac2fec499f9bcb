import QuestionTree.Number.Binary64
import QuestionTree.Proofs.Number.Bits
import Mathlib.Tactic.Linarith

/-!
# Quotients that round to a value

A value is the nearest one to each quotient of its interval: up to half a unit above it and down to
half a unit below it, or a quarter where the units get smaller below it. The ends belong to the
interval of an even mantissa. Below a value of the latter kind the units are counted by twice the
mantissa, which has one digit too many; its bits come out right because the bits ascend with the
values.
-/

namespace QuestionTree

/-- A quotient at most half a unit away from a number rounds to it, at exactly half a unit if the
number is even. -/
theorem roundedQuotient_eq {num den n : Nat} (hden : 0 < den)
    (hlow : 2 * n * den ≤ 2 * num + den) (hhigh : 2 * num ≤ 2 * n * den + den)
    (hends : n % 2 = 0 ∨ 2 * n * den < 2 * num + den ∧ 2 * num < 2 * n * den + den) :
    roundedQuotient num den = n := by
  have hdivide := Nat.div_add_mod num den
  have hmod := Nat.mod_lt num hden
  rw [roundedQuotient]
  generalize num / den = q at hdivide ⊢
  generalize num % den = r at hdivide hmod ⊢
  -- rounding down leaves the number or the one below it
  have hcases : q = n ∨ q + 1 = n := by
    have hupper : q < n + 1 := by
      by_contra h
      have hle : (n + 1) * den ≤ den * q := by
        rw [Nat.mul_comm den q]
        exact Nat.mul_le_mul_right den (by omega)
      nlinarith
    have hlower : n < q + 2 := by
      by_contra h
      have hle : den * (q + 2) ≤ n * den := by
        rw [Nat.mul_comm n den]
        exact Nat.mul_le_mul_left den (by omega)
      nlinarith
    omega
  rcases hcases with rfl | rfl
  · have hsame : 2 * q * den = 2 * (den * q) := by ring
    rw [hsame] at hlow hhigh hends
    split
    · rfl
    · split
      · omega
      · rw [if_pos (by omega)]
  · have hsame : 2 * (q + 1) * den = 2 * (den * q) + 2 * den := by ring
    rw [hsame] at hlow hhigh hends
    split
    · omega
    · split
      · rfl
      · rw [if_neg (by omega)]

namespace Binary64

theorem shift_eq {units den shift : Nat} (hden : 0 < den)
    (hlow : shift = 0 ∨ 2 ^ (52 + shift) * den ≤ units)
    (hhigh : units < 2 ^ (53 + shift) * den) :
    (units / den).log2 - leadingBit.log2 = shift := by
  have hleading : leadingBit.log2 = 52 := Nat.log2_two_pow
  have hlt : units / den < 2 ^ (53 + shift) := (Nat.div_lt_iff_lt_mul hden).2 hhigh
  rw [hleading]
  by_cases hzero : units / den = 0
  · rcases hlow with rfl | hlow
    · rw [hzero]
      rfl
    · have hge := (Nat.le_div_iff_mul_le hden).2 hlow
      have hpos : 0 < 2 ^ (52 + shift) := Nat.two_pow_pos _
      omega
  · have hlog := (Nat.log2_lt hzero).2 hlt
    rcases hlow with rfl | hlow
    · omega
    · have hge := (Nat.le_log2 hzero).2 ((Nat.le_div_iff_mul_le hden).2 hlow)
      omega

/-- Whether the units get smaller below a value. -/
def Narrow (mantissa shift : Nat) : Prop := mantissa = leadingBit ∧ 0 < shift

instance (mantissa shift : Nat) : Decidable (Narrow mantissa shift) :=
  inferInstanceAs (Decidable (_ ∧ _))

/-- Whether a number of units over a denominator lies in the interval of a value. -/
structure Rounds (mantissa shift units den : Nat) : Prop where
  low : 4 * mantissa * (den * 2 ^ shift) ≤
    4 * units + (if Narrow mantissa shift then 1 else 2) * (den * 2 ^ shift)
  high : 4 * units ≤ (4 * mantissa + 2) * (den * 2 ^ shift)
  /-- The ends belong to the interval of an even mantissa only. -/
  ends : mantissa % 2 = 0 ∨
    4 * mantissa * (den * 2 ^ shift) <
      4 * units + (if Narrow mantissa shift then 1 else 2) * (den * 2 ^ shift) ∧
    4 * units < (4 * mantissa + 2) * (den * 2 ^ shift)

/-- The bits of a value are the nearest ones to each quotient of its interval. -/
theorem nearestBits_eq {mantissa shift units den : Nat} (hden : 0 < den)
    (hvalue : Canonical mantissa shift) (h : Rounds mantissa shift units den) :
    nearestBits units den = shift * leadingBit + mantissa := by
  obtain ⟨hlow, hhigh, hends⟩ := h
  obtain ⟨hlt, hfull⟩ := hvalue
  have hbits : nearestBits units den = ((units / den).log2 - leadingBit.log2) * leadingBit +
      roundedQuotient units (den * 2 ^ ((units / den).log2 - leadingBit.log2)) := rfl
  have hleading : leadingBit = 2 ^ 52 := rfl
  have hunit : 0 < den * 2 ^ shift := Nat.mul_pos hden (Nat.two_pow_pos shift)
  rw [hbits]
  rw [hleading] at hlt hfull
  -- the quotient may lie just below a power of two, where the units are half as large
  by_cases hsame : shift = 0 ∨ 2 ^ (52 + shift) * den ≤ units
  · have hshift : (units / den).log2 - leadingBit.log2 = shift := by
      refine shift_eq hden hsame ?_
      rw [Nat.pow_add, Nat.mul_assoc, Nat.mul_comm (2 ^ shift)]
      nlinarith
    rw [hshift]
    congr 1
    refine roundedQuotient_eq hunit ?_ (by linarith) ?_
    · split at hlow <;> linarith
    · refine hends.imp_right fun h => ⟨?_, by linarith⟩
      have hstrict := h.1
      split at hstrict <;> linarith
  · obtain ⟨hshift, hbelow⟩ := not_or.1 hsame
    rw [Nat.not_le, Nat.pow_add, Nat.mul_assoc, Nat.mul_comm (2 ^ shift)] at hbelow
    -- only the least mantissa has an interval that reaches so far down
    have hmantissa : mantissa = 2 ^ 52 := by
      by_contra hne
      have hmore : 2 ^ 52 + 1 ≤ mantissa := by omega
      rw [if_neg fun hnarrow => hne hnarrow.1] at hlow
      nlinarith
    obtain ⟨k, rfl⟩ := Nat.exists_eq_add_one_of_ne_zero hshift
    rw [if_pos ⟨hmantissa, Nat.succ_pos k⟩, hmantissa] at hlow
    have htwice : den * 2 ^ (k + 1) = 2 * (den * 2 ^ k) := by ring
    rw [htwice] at hlow hbelow hunit
    have hsmaller : (units / den).log2 - leadingBit.log2 = k := by
      refine shift_eq hden (.inr ?_) ?_
      · rw [Nat.pow_add, Nat.mul_assoc, Nat.mul_comm (2 ^ k)]
        linarith
      · rw [Nat.pow_add, Nat.mul_assoc, Nat.mul_comm (2 ^ k)]
        linarith
    have hround : roundedQuotient units (den * 2 ^ k) = 2 ^ 53 :=
      roundedQuotient_eq (by omega) (by linarith) (by linarith) (.inl (by decide))
    rw [hsmaller, hround, hmantissa, hleading]
    ring

end Binary64

end QuestionTree
