import QuestionTree.Proofs.Number.Nearest

/-!
# Rounding to the digits of a mantissa

`roundedUnits` rounds a quotient to a whole number of units that a mantissa has digits for. It is
the nearest such number, so it never crosses one: whatever is at most such a number is rounded to at
most this number, and the same holds from above. Rounding therefore keeps the order, and it changes
a whole number by a small part of it only.
-/

namespace QuestionTree

/-! ### Rounding to a whole number -/

section Quotient

variable {num num' den n c : Nat}

theorem div_le_roundedQuotient (num den : Nat) : num / den ≤ roundedQuotient num den := by
  rw [roundedQuotient]
  split_ifs <;> omega

theorem roundedQuotient_le_succ (num den : Nat) : roundedQuotient num den ≤ num / den + 1 := by
  rw [roundedQuotient]
  split_ifs <;> omega

theorem roundedQuotient_of_mod_eq_zero (hden : 0 < den) (h : num % den = 0) :
    roundedQuotient num den = num / den := by
  rw [roundedQuotient, h, if_pos (by omega)]

theorem le_roundedQuotient (hden : 0 < den) (h : n * den ≤ num) : n ≤ roundedQuotient num den :=
  ((Nat.le_div_iff_mul_le hden).2 h).trans (div_le_roundedQuotient num den)

theorem roundedQuotient_le (hden : 0 < den) (h : num ≤ n * den) : roundedQuotient num den ≤ n := by
  have hquotient : num / den ≤ n := Nat.div_le_of_le_mul (by rwa [Nat.mul_comm])
  rcases hquotient.lt_or_eq with hlt | heq
  · exact (roundedQuotient_le_succ num den).trans hlt
  · have hdivide := Nat.div_add_mod num den
    rw [heq, Nat.mul_comm] at hdivide
    rw [roundedQuotient_of_mod_eq_zero hden (by omega), heq]

theorem roundedQuotient_mono (h : num ≤ num') :
    roundedQuotient num den ≤ roundedQuotient num' den := by
  have hquotient : num / den ≤ num' / den := Nat.div_le_div_right h
  rcases hquotient.lt_or_eq with hlt | heq
  · exact (roundedQuotient_le_succ num den).trans
      (Nat.le_trans hlt (div_le_roundedQuotient num' den))
  · have hdivide := Nat.div_add_mod num den
    have hdivide' := Nat.div_add_mod num' den
    rw [roundedQuotient, roundedQuotient, ← heq]
    rw [← heq] at hdivide'
    split_ifs <;> omega

theorem roundedQuotient_mul (hc : 0 < c) (num den : Nat) :
    roundedQuotient (num * c) (den * c) = roundedQuotient num den := by
  have htwice : 2 * (num % den * c) = 2 * (num % den) * c := (Nat.mul_assoc ..).symm
  rw [roundedQuotient, roundedQuotient, Nat.mul_div_mul_right _ _ hc, Nat.mul_mod_mul_right, htwice]
  simp only [Nat.mul_lt_mul_right hc]

theorem roundedQuotient_error (hden : 0 < den) (num : Nat) :
    2 * (roundedQuotient num den * den) ≤ 2 * num + den ∧
      2 * num ≤ 2 * (roundedQuotient num den * den) + den := by
  have hdivide := Nat.div_add_mod num den
  have hmod := Nat.mod_lt num hden
  rw [Nat.mul_comm] at hdivide
  have hsucc : (num / den + 1) * den = num / den * den + den := Nat.succ_mul ..
  rw [roundedQuotient]
  generalize num % den = r at *
  split_ifs <;> omega

end Quotient

namespace Binary64

/-! ### Rounding to a number of digits -/

/-- The number of digits by which a number of units is longer than a mantissa. -/
def excessDigits (n : Nat) : Nat := n.log2 - leadingBit.log2

/-- A number of units over a denominator, rounded to the digits of a mantissa. -/
def roundedUnits (units den : Nat) : Nat :=
  roundedQuotient units (den * 2 ^ excessDigits (units / den)) * 2 ^ excessDigits (units / den)

/-- Whether a mantissa, or the first number that is too long for one, has the digits of a number of
units. -/
def Representable (n : Nat) : Prop := ∃ mantissa shift, mantissa ≤ 2 ^ 53 ∧ n = mantissa * 2 ^ shift

variable {units units' den den' n r k : Nat}

theorem excessDigits_eq (n : Nat) : excessDigits n = n.log2 - 52 := by
  have hleading : leadingBit.log2 = 52 := Nat.log2_two_pow
  rw [excessDigits, hleading]

theorem lt_two_pow_excessDigits (n : Nat) : n < 2 ^ (53 + excessDigits n) := by
  rcases Nat.eq_zero_or_pos n with rfl | hpos
  · exact Nat.two_pow_pos _
  · refine (Nat.log2_lt hpos.ne').1 ?_
    rw [excessDigits_eq]
    omega

theorem two_pow_le_of_excessDigits (n : Nat) (h : 0 < excessDigits n) :
    2 ^ (52 + excessDigits n) ≤ n := by
  have hne : n ≠ 0 := by
    rintro rfl
    rw [excessDigits_eq] at h
    exact Nat.lt_irrefl 0 h
  refine (Nat.le_log2 hne).1 ?_
  rw [excessDigits_eq] at h ⊢
  omega

theorem excessDigits_mono (h : n ≤ r) : excessDigits n ≤ excessDigits r := by
  rcases Nat.eq_zero_or_pos (excessDigits n) with hzero | hpos
  · rw [hzero]
    exact Nat.zero_le _
  · have hlong := (two_pow_le_of_excessDigits n hpos).trans h
    have hpower := hlong.trans_lt (lt_two_pow_excessDigits r)
    have hexponents := (Nat.pow_lt_pow_iff_right (by decide)).1 hpower
    omega

/-- A long number with the digits of a mantissa is a multiple of its last digit. -/
theorem Representable.dvd (h : Representable r) (hr : 2 ^ (52 + k) ≤ r) : 2 ^ k ∣ r := by
  obtain ⟨mantissa, shift, hmantissa, rfl⟩ := h
  by_cases hshift : k ≤ shift
  · exact Dvd.dvd.mul_left (pow_dvd_pow 2 hshift) mantissa
  · have hle : 2 ^ (52 + k) ≤ 2 ^ (53 + shift) := by
      refine hr.trans ?_
      rw [pow_add]
      exact Nat.mul_le_mul_right _ hmantissa
    -- only the first number that is too long for a mantissa is left
    have hk : k = shift + 1 := by
      have hexponents := (Nat.pow_le_pow_iff_right (by decide)).1 hle
      omega
    subst hk
    have hfull : 2 ^ 53 ≤ mantissa := by
      have heq : 2 ^ (52 + (shift + 1)) = 2 ^ 53 * 2 ^ shift := by ring
      rw [heq] at hr
      exact Nat.le_of_mul_le_mul_right hr (Nat.two_pow_pos shift)
    obtain rfl : mantissa = 2 ^ 53 := Nat.le_antisymm hmantissa hfull
    exact ⟨2 ^ 52, by ring⟩

theorem mul_two_pow_pos (hden : 0 < den) (k : Nat) : 0 < den * 2 ^ k :=
  Nat.mul_pos hden (Nat.two_pow_pos k)

theorem roundedUnits_le (hden : 0 < den) (hr : Representable r) (h : units ≤ r * den) :
    roundedUnits units den ≤ r := by
  have hquotient : units / den ≤ r := Nat.div_le_of_le_mul (by rwa [Nat.mul_comm])
  rw [roundedUnits]
  generalize hk : excessDigits (units / den) = k
  have hdvd : 2 ^ k ∣ r := by
    rcases Nat.eq_zero_or_pos k with rfl | hpos
    · exact one_dvd r
    · have hlong := two_pow_le_of_excessDigits (units / den) (by omega)
      rw [hk] at hlong
      exact hr.dvd (hlong.trans hquotient)
  obtain ⟨q, rfl⟩ := hdvd
  rw [Nat.mul_comm (2 ^ k) q]
  refine Nat.mul_le_mul_right _ (roundedQuotient_le (mul_two_pow_pos hden k) ?_)
  calc units ≤ 2 ^ k * q * den := h
    _ = q * (den * 2 ^ k) := by ring

theorem le_roundedUnits (hden : 0 < den) (hr : Representable r) (h : r * den ≤ units) :
    r ≤ roundedUnits units den := by
  have hquotient : r ≤ units / den := (Nat.le_div_iff_mul_le hden).2 h
  rw [roundedUnits]
  generalize hk : excessDigits (units / den) = k
  by_cases hlong : 2 ^ (52 + k) ≤ r
  · obtain ⟨q, rfl⟩ := hr.dvd hlong
    rw [Nat.mul_comm (2 ^ k) q]
    refine Nat.mul_le_mul_right _ (le_roundedQuotient (mul_two_pow_pos hden k) ?_)
    calc q * (den * 2 ^ k) = 2 ^ k * q * den := by ring
      _ ≤ units := h
  · rcases Nat.eq_zero_or_pos k with rfl | hpos
    · rw [pow_zero, Nat.mul_one, Nat.mul_one]
      exact le_roundedQuotient hden h
    · have hunits := two_pow_le_of_excessDigits (units / den) (by omega)
      rw [hk] at hunits
      have hfull : 2 ^ 52 ≤ roundedQuotient units (den * 2 ^ k) := by
        refine le_roundedQuotient (mul_two_pow_pos hden k) ?_
        calc 2 ^ 52 * (den * 2 ^ k) = 2 ^ (52 + k) * den := by ring
          _ ≤ units := (Nat.le_div_iff_mul_le hden).1 hunits
      refine (Nat.le_of_lt (Nat.not_le.1 hlong)).trans ?_
      rw [pow_add]
      exact Nat.mul_le_mul_right _ hfull

theorem roundedQuotient_le_two_pow (units : Nat) (hden : 0 < den) :
    roundedQuotient units (den * 2 ^ excessDigits (units / den)) ≤ 2 ^ 53 := by
  have hlt := (Nat.div_lt_iff_lt_mul hden).1 (lt_two_pow_excessDigits (units / den))
  refine roundedQuotient_le (mul_two_pow_pos hden _) (hlt.le.trans (Nat.le_of_eq ?_))
  ring

theorem roundedUnits_of_representable (h : Representable r) : roundedUnits r 1 = r :=
  Nat.le_antisymm (roundedUnits_le Nat.one_pos h (Nat.mul_one r).ge)
    (le_roundedUnits Nat.one_pos h (Nat.mul_one r).le)

theorem roundedUnits_mono (h : units ≤ units') : roundedUnits units 1 ≤ roundedUnits units' 1 := by
  have hdigits := excessDigits_mono h
  rcases hdigits.lt_or_eq with hlt | heq
  · -- the power of two between both numbers is not crossed
    have hpower : Representable (2 ^ (52 + excessDigits units')) :=
      ⟨2 ^ 52, excessDigits units', by decide, pow_add ..⟩
    have hlong := two_pow_le_of_excessDigits units' (by omega)
    have hshort := lt_two_pow_excessDigits units
    have hle : 2 ^ (53 + excessDigits units) ≤ 2 ^ (52 + excessDigits units') :=
      Nat.pow_le_pow_right (by decide) (by omega)
    exact (roundedUnits_le Nat.one_pos hpower (by omega)).trans
      (le_roundedUnits Nat.one_pos hpower (by omega))
  · rw [roundedUnits, roundedUnits, Nat.div_one, Nat.div_one, heq]
    exact Nat.mul_le_mul_right _ (roundedQuotient_mono h)

/-- Rounding a whole number changes it by a small part of it only. -/
theorem roundedUnits_error (n : Nat) : 2 ^ 53 * roundedUnits n 1 ≤ (2 ^ 53 + 1) * n ∧
    (2 ^ 53 - 1) * n ≤ 2 ^ 53 * roundedUnits n 1 := by
  rw [roundedUnits, Nat.div_one, Nat.one_mul]
  generalize hk : excessDigits n = k
  rcases Nat.eq_zero_or_pos k with rfl | hpos
  · have hexact : roundedQuotient n 1 = n := by
      rw [roundedQuotient_of_mod_eq_zero Nat.one_pos (Nat.mod_one n), Nat.div_one]
    rw [pow_zero, hexact]
    omega
  · have hlong := two_pow_le_of_excessDigits n (by omega)
    rw [hk, pow_add] at hlong
    have herror := roundedQuotient_error (Nat.two_pow_pos k) n
    generalize 2 ^ k = unit at *
    omega

end Binary64

end QuestionTree
