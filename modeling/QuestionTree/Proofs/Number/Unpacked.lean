import QuestionTree.Proofs.Number.Order
import QuestionTree.Proofs.Number.Rounded

/-!
# What operations leave to be packed

An operation on finite values counts its exact result in some power of two, with two digits for what
is left over, rounds it and packs it into bits. Counted in units of the least positive value it is
`roundedUnits` that is packed; bits are there for less than `overflowUnits`, and everything from
there on becomes an infinity.
-/

namespace QuestionTree

namespace Binary64

open Float.Model
open UnpackedFloat

/-! ### Mantissas with digits for what is left over -/

/-- Whether a mantissa is that of a quotient, and its two more digits say whether there is half a
unit more, and whether there is anything else. -/
structure Extends (em : ExtendedMantissa) (num den : Nat) : Prop where
  mantissa_eq : em.mantissa = num / den
  roundBit_iff : em.roundBit = true ↔ den ≤ 2 * (num % den)
  stickyBit_iff : em.stickyBit = true ↔ num % den ≠ 0 ∧ 2 * (num % den) ≠ den

variable {em : ExtendedMantissa} {num den mantissa : Nat} {exponent : Int} {accuracy : Accuracy}

theorem extends_exact (mantissa : Nat) :
    Extends (.ofMantissaAndAccuracy mantissa .exact) mantissa 1 := by
  have hmod := Nat.mod_one mantissa
  refine ⟨(Nat.div_one mantissa).symm, ?_, ?_⟩
  · exact iff_of_false Bool.false_ne_true (by omega)
  · exact iff_of_false Bool.false_ne_true (by omega)

theorem extends_fraction (hden : 0 < den) (num : Nat) :
    Extends (.ofMantissaAndAccuracy (num / den) (accuracyOfFraction (num % den) den)) num den := by
  have hmod := Nat.mod_lt num hden
  rw [accuracyOfFraction]
  split
  · rename_i hzero
    exact ⟨rfl, iff_of_false Bool.false_ne_true (by omega),
      iff_of_false Bool.false_ne_true (by omega)⟩
  · rename_i hsome
    rcases Nat.lt_trichotomy (2 * (num % den)) den with h | h | h
    · rw [compare_lt_iff_lt.2 h]
      exact ⟨rfl, iff_of_false Bool.false_ne_true (by omega), iff_of_true rfl (by omega)⟩
    · rw [compare_eq_iff_eq.2 h]
      exact ⟨rfl, iff_of_true rfl (by omega), iff_of_false Bool.false_ne_true (by omega)⟩
    · rw [compare_gt_iff_gt.2 h]
      exact ⟨rfl, iff_of_true rfl (by omega), iff_of_true rfl (by omega)⟩

namespace Extends

theorem shiftRightOne (hden : 0 < den) (h : Extends em num den) :
    Extends em.shiftRightOne num (den * 2) := by
  have hmod := Nat.mod_lt num hden
  have hrest : num % (den * 2) = num % den + den * (num / den % 2) := Nat.mod_mul
  have hbit : em.shiftRightOne.roundBit = true ↔ num / den % 2 = 1 := by
    rw [ExtendedMantissa.shiftRightOne, bne_iff_ne, h.mantissa_eq]
    omega
  have hsticky : em.shiftRightOne.stickyBit = true ↔ num % den ≠ 0 := by
    rw [ExtendedMantissa.shiftRightOne, Bool.or_eq_true, h.roundBit_iff, h.stickyBit_iff]
    omega
  refine ⟨?_, ?_, ?_⟩
  · rw [ExtendedMantissa.shiftRightOne, h.mantissa_eq, Nat.div_div_eq_div_mul]
  · rw [hbit, hrest]
    rcases Nat.mod_two_eq_zero_or_one (num / den) with hq | hq
    · rw [hq]
      omega
    · rw [hq]
      omega
  · rw [hsticky, hrest]
    rcases Nat.mod_two_eq_zero_or_one (num / den) with hq | hq
    · rw [hq]
      omega
    · rw [hq]
      omega

theorem shiftRight (hden : 0 < den) (h : Extends em num den) (k : Nat) :
    Extends (em >>> k) num (den * 2 ^ k) := by
  induction k with
  | zero =>
    rw [pow_zero, Nat.mul_one]
    exact h
  | succ k ih =>
    rw [pow_succ, ← Nat.mul_assoc]
    exact ih.shiftRightOne (mul_two_pow_pos hden k)

theorem roundedMantissa_eq (hden : 0 < den) (h : Extends em num den) :
    em.roundedMantissa = roundedQuotient num den := by
  obtain ⟨hmantissa, hround, hsticky⟩ := h
  obtain ⟨mantissa, roundBit, stickyBit⟩ := em
  dsimp only at hmantissa hround hsticky
  rw [hmantissa, roundedQuotient]
  have hmod := Nat.mod_lt num hden
  cases roundBit with
  | false =>
    simp only [Bool.false_eq_true, false_iff, not_le] at hround
    rw [if_pos hround]
    cases stickyBit <;> rfl
  | true =>
    have hhalf := hround.1 rfl
    rw [if_neg (not_lt.2 hhalf)]
    cases stickyBit with
    | true =>
      rw [if_pos (lt_of_le_of_ne hhalf (hsticky.1 rfl).2.symm)]
      rfl
    | false =>
      simp only [Bool.false_eq_true, false_iff, not_and_or, not_not] at hsticky
      rw [if_neg (by omega)]
      change num / den + num / den % 2 = _
      split <;> omega

end Extends

/-! ### Rounding -/

/-- Whether what was unpacked, or is to be packed, is a number of units with a sign. -/
def Reads (u : UnpackedFloat) (s : Sign) (n : Nat) : Prop :=
  n = 0 ∧ u = .zero s ∨ ∃ mantissa shift h, Canonical mantissa shift ∧ mantissa * 2 ^ shift = n ∧
    u = .finite s mantissa (minExponent + (shift : Nat)) h

/-- The exponent with which a mantissa has all of its digits, if there are units so small. -/
theorem targetExponent_eq (mantissa : Nat) (exponent : Int) :
    Format.targetExponent .binary64 (totalExponent mantissa exponent) =
      max (mantissa.log2 + exponent - 52) minExponent := by
  have hbits : ((Format.mantissaBits .binary64 : Nat) : Int) = 53 := rfl
  have hmin : Format.minExponent .binary64 = minExponent := rfl
  rw [Format.targetExponent, totalExponent, hbits, hmin]
  congr 1
  ring

theorem shiftToTargetExponent_eq (mantissa : Nat) (exponent : Int) (accuracy : Accuracy) :
    shiftToTargetExponent .binary64 mantissa exponent accuracy =
      (ExtendedMantissa.ofMantissaAndAccuracy mantissa accuracy >>>
          (max (mantissa.log2 + exponent - 52) minExponent - exponent).toNat,
        exponent + (max (mantissa.log2 + exponent - 52) minExponent - exponent).toNat) := by
  rw [← targetExponent_eq]
  rfl

/-- The value with a mantissa, which is a zero if there is none. -/
def built (s : Sign) (mantissa : Nat) (exponent : Int) : UnpackedFloat :=
  if h : mantissa = 0 then .zero s else .finite s mantissa exponent (Nat.pos_of_ne_zero h)

theorem reads_built {shift : Nat} (h : Canonical mantissa shift) (s : Sign) :
    Reads (built s mantissa (minExponent + (shift : Nat))) s (mantissa * 2 ^ shift) := by
  rw [built]
  split
  · rename_i hzero
    exact .inl ⟨by rw [hzero, Nat.zero_mul], rfl⟩
  · exact .inr ⟨mantissa, shift, _, h, rfl, rfl⟩

/-- The value with a rounded mantissa, which is brought to its digits once more. -/
def carried (s : Sign) (mantissa : Nat) (exponent : Int) : UnpackedFloat :=
  let (em, exponent) := shiftToTargetExponent .binary64 mantissa exponent .exact
  built s em.mantissa exponent

theorem roundWithAccuracy_eq_carried (s : Sign) (mantissa : Nat) (exponent : Int)
    (accuracy : Accuracy) : roundWithAccuracy .binary64 s mantissa exponent accuracy =
      carried s (shiftToTargetExponent .binary64 mantissa exponent accuracy).1.roundedMantissa
        (shiftToTargetExponent .binary64 mantissa exponent accuracy).2 := rfl

/-- A rounded mantissa has its digits, but for one that was rounded up to the next power of two. -/
theorem reads_carried {r shift : Nat} (hr : r ≤ 2 ^ 53) (hfull : 2 ^ 52 ≤ r ∨ shift = 0)
    (s : Sign) : Reads (carried s r (minExponent + (shift : Nat))) s (r * 2 ^ shift) := by
  have hleading : leadingBit = 2 ^ 52 := rfl
  rw [carried, shiftToTargetExponent_eq]
  dsimp only
  rw [((extends_exact r).shiftRight Nat.one_pos _).mantissa_eq, Nat.one_mul]
  generalize hk : (max (r.log2 + (minExponent + (shift : Nat)) - 52) minExponent -
    (minExponent + (shift : Nat))).toNat = k
  rcases hr.lt_or_eq with hlt | rfl
  · have hlog : r.log2 ≤ 52 := by
      rcases Nat.eq_zero_or_pos r with rfl | hpos
      · decide
      · exact Nat.lt_succ_iff.1 ((Nat.log2_lt hpos.ne').2 hlt)
    obtain rfl : k = 0 := by omega
    rw [pow_zero, Nat.div_one, Nat.cast_zero, add_zero]
    exact reads_built ⟨by omega, by rwa [hleading]⟩ s
  · have hlog : (2 ^ 53 : Nat).log2 = 53 := Nat.log2_two_pow
    rw [hlog] at hk
    obtain rfl : k = 1 := by omega
    have hhalf : Canonical (2 ^ 53 / 2 ^ 1) (shift + 1) := ⟨by decide, .inl (by decide)⟩
    have hread := reads_built hhalf s
    have hunits : 2 ^ 53 / 2 ^ 1 * 2 ^ (shift + 1) = 2 ^ 53 * 2 ^ shift := by
      rw [pow_succ]
      omega
    rw [hunits, Nat.cast_add, ← add_assoc] at hread
    exact hread

/-- An exact result that was not cut short before has the digits of a mantissa in units of the last
one of them, or fewer where there are no smaller units. -/
theorem digits_of_target {a b t : Nat} (hden : 0 < den) (hmantissa : mantissa = num / den)
    (ha : (exponent - minExponent).toNat = a) (hb : (minExponent - exponent).toNat = b)
    (ht : max (mantissa.log2 + exponent - 52) minExponent = minExponent + (t : Nat))
    (he : exponent ≤ minExponent + (t : Nat)) :
    (t = 0 ∨ 2 ^ (52 + t) * (den * 2 ^ b) ≤ num * 2 ^ a) ∧
      num * 2 ^ a < 2 ^ (53 + t) * (den * 2 ^ b) := by
  rcases Nat.eq_zero_or_pos mantissa with hzero | hpos
  · have hlog : mantissa.log2 = 0 := by rw [hzero]; rfl
    have hless : num < den := by
      rw [hzero] at hmantissa
      exact (Nat.div_eq_zero_iff_lt hden).1 hmantissa.symm
    rw [hlog] at ht
    obtain rfl : t = 0 := by omega
    obtain rfl : a = 0 := by omega
    refine ⟨.inl rfl, ?_⟩
    calc num * 2 ^ 0 = num := by ring
      _ < den := hless
      _ ≤ den * 2 ^ b := Nat.le_mul_of_pos_right den (Nat.two_pow_pos b)
      _ ≤ 2 ^ (53 + 0) * (den * 2 ^ b) := Nat.le_mul_of_pos_left _ (Nat.two_pow_pos _)
  · have hlow : 2 ^ mantissa.log2 * den ≤ num :=
      (Nat.le_div_iff_mul_le hden).1 (hmantissa ▸ Nat.log2_self_le hpos.ne')
    have hhigh : num < 2 ^ (mantissa.log2 + 1) * den :=
      (Nat.div_lt_iff_lt_mul hden).1 (hmantissa ▸ Nat.lt_log2_self)
    generalize mantissa.log2 = digits at *
    constructor
    · rcases Nat.eq_zero_or_pos t with hzero | hpos
      · exact .inl hzero
      · have hexponents : 52 + t + b = digits + a := by omega
        refine .inr ?_
        calc 2 ^ (52 + t) * (den * 2 ^ b) = 2 ^ (52 + t + b) * den := by ring
          _ = 2 ^ digits * den * 2 ^ a := by rw [hexponents]; ring
          _ ≤ num * 2 ^ a := Nat.mul_le_mul_right _ hlow
    · have hexponents : digits + 1 + a ≤ 53 + t + b := by omega
      calc num * 2 ^ a < 2 ^ (digits + 1) * den * 2 ^ a :=
            Nat.mul_lt_mul_of_pos_right hhigh (Nat.two_pow_pos a)
        _ = 2 ^ (digits + 1 + a) * den := by ring
        _ ≤ 2 ^ (53 + t + b) * den :=
            Nat.mul_le_mul_right _ (Nat.pow_le_pow_right (by decide) hexponents)
        _ = 2 ^ (53 + t) * (den * 2 ^ b) := by ring

theorem reads_roundWithAccuracy (hden : 0 < den)
    (hem : Extends (.ofMantissaAndAccuracy mantissa accuracy) num den)
    (he : exponent ≤ Format.targetExponent .binary64 (totalExponent mantissa exponent))
    (s : Sign) :
    Reads (roundWithAccuracy .binary64 s mantissa exponent accuracy) s
      (roundedUnits (num * 2 ^ (exponent - minExponent).toNat)
        (den * 2 ^ (minExponent - exponent).toNat)) := by
  have hmantissa : mantissa = num / den := by
    rw [← hem.mantissa_eq]
    cases accuracy with
    | exact => rfl
    | inexact o => cases o <;> rfl
  rw [roundWithAccuracy_eq_carried, shiftToTargetExponent_eq]
  dsimp only
  rw [(hem.shiftRight hden _).roundedMantissa_eq (mul_two_pow_pos hden _)]
  rw [targetExponent_eq] at he
  -- the exponent less the least one, as a difference of natural numbers
  generalize ha : (exponent - minExponent).toNat = a
  generalize hb : (minExponent - exponent).toNat = b
  generalize hk : (max (mantissa.log2 + exponent - 52) minExponent - exponent).toNat = k
  obtain ⟨t, ht⟩ : ∃ t : Nat, max (mantissa.log2 + exponent - 52) minExponent = minExponent + t :=
    ⟨(max (mantissa.log2 + exponent - 52) minExponent - minExponent).toNat, by omega⟩
  have hexponent : exponent + (k : Nat) = minExponent + (t : Nat) := by omega
  have hsum : b + t = k + a := by omega
  obtain ⟨hlow, hhigh⟩ := digits_of_target hden hmantissa ha hb ht (ht ▸ he)
  have hunit := mul_two_pow_pos hden b
  have hdigits : excessDigits (num * 2 ^ a / (den * 2 ^ b)) = t := shift_eq hunit hlow hhigh
  have hsame : roundedQuotient (num * 2 ^ a) (den * 2 ^ b * 2 ^ t) =
      roundedQuotient num (den * 2 ^ k) := by
    rw [Nat.mul_assoc, ← pow_add, hsum, pow_add, ← Nat.mul_assoc,
      roundedQuotient_mul (Nat.two_pow_pos a)]
  have hunits : roundedUnits (num * 2 ^ a) (den * 2 ^ b) =
      roundedQuotient num (den * 2 ^ k) * 2 ^ t := by
    rw [roundedUnits, hdigits, hsame]
  rw [hunits, hexponent, ← hsame]
  have hbound := roundedQuotient_le_two_pow (num * 2 ^ a) hunit
  rw [hdigits] at hbound
  refine reads_carried hbound (hlow.symm.imp_left fun hlow => ?_) s
  refine le_roundedQuotient (mul_two_pow_pos hunit t) ?_
  calc 2 ^ 52 * (den * 2 ^ b * 2 ^ t) = 2 ^ (52 + t) * (den * 2 ^ b) := by ring
    _ ≤ num * 2 ^ a := hlow

end Binary64

end QuestionTree
