import QuestionTree.Proofs.Number.Sums

/-!
# Quotients and products of finite values

The quotient of finite values is the nearest number of units to the quotient of theirs. A part of a
whole is therefore at most one, but it is zero if the whole is too many times as large.
-/

namespace QuestionTree

namespace Binary64

open Float.Model
open UnpackedFloat (Sign)

/-! ### Rounding of quotients -/

section Rounding

variable {units units' den den' c : Nat}

theorem roundedUnits_mul (hc : 0 < c) (units den : Nat) :
    roundedUnits (units * c) (den * c) = roundedUnits units den := by
  rw [roundedUnits, roundedUnits, Nat.mul_div_mul_right _ _ hc, Nat.mul_right_comm,
    roundedQuotient_mul hc]

theorem roundedUnits_congr (hden : 0 < den) (hden' : 0 < den') (h : units * den' = units' * den) :
    roundedUnits units den = roundedUnits units' den' := by
  rw [← roundedUnits_mul hden' units den, ← roundedUnits_mul hden units' den', h,
    Nat.mul_comm den den']

theorem roundedUnits_eq_zero_iff (hden : 0 < den) :
    roundedUnits units den = 0 ↔ 2 * units ≤ den := by
  by_cases hone : den ≤ units
  · have hrepr : Representable 1 := ⟨1, 0, by decide, rfl⟩
    have hle : 1 ≤ roundedUnits units den := le_roundedUnits hden hrepr (by rwa [Nat.one_mul])
    omega
  · have hless := Nat.not_le.1 hone
    have hdigits : excessDigits (units / den) = 0 := by
      rw [Nat.div_eq_of_lt hless]
      decide
    rw [roundedUnits, hdigits, pow_zero, Nat.mul_one, Nat.mul_one, roundedQuotient,
      Nat.div_eq_of_lt hless, Nat.mod_eq_of_lt hless, if_pos (Nat.zero_mod 2)]
    rcases Nat.lt_trichotomy (2 * units) den with h | h | h
    · rw [if_pos h]
      exact iff_of_true rfl h.le
    · rw [if_neg h.not_lt, if_neg h.not_gt]
      exact iff_of_true rfl h.le
    · rw [if_neg h.not_gt, if_pos h]
      exact iff_of_false Nat.one_ne_zero (Nat.not_le.2 h)

end Rounding

/-! ### Quotients -/

/-- The number of digits of one in units of the least positive value. -/
def oneShift : Nat := 1074

/-- The number of units of one. -/
def oneUnits : Nat := 2 ^ oneShift

variable {u v : UnpackedFloat} {s t : Sign} {m n : Nat} {x y : Float}

theorem targetExponent_sub (mantissa mantissa' : Nat) (exponent exponent' : Int) :
    Format.targetExponent .binary64
        (totalExponent mantissa exponent - totalExponent mantissa' exponent') =
      max (mantissa.log2 + exponent - (mantissa'.log2 + exponent') - 53) minExponent := by
  have hbits : ((Format.mantissaBits .binary64 : Nat) : Int) = 53 := rfl
  have hmin : Format.minExponent .binary64 = minExponent := rfl
  rw [Format.targetExponent, totalExponent, totalExponent, hbits, hmin]
  congr 1
  ring

/-- A dividend that is so much longer than the divisor has a quotient with the digits of a
mantissa. -/
theorem log2_div_ge {num den : Nat} (hnum : 0 < num) (hden : 0 < den)
    (h : den.log2 + 53 ≤ num.log2) : 52 ≤ (num / den).log2 := by
  have hlow : 2 ^ num.log2 ≤ num := Nat.log2_self_le hnum.ne'
  have hhigh : den < 2 ^ (den.log2 + 1) := Nat.lt_log2_self
  have hquotient : 2 ^ 52 ≤ num / den := by
    refine (Nat.le_div_iff_mul_le hden).2 ?_
    calc 2 ^ 52 * den ≤ 2 ^ 52 * 2 ^ (den.log2 + 1) := Nat.mul_le_mul_left _ hhigh.le
      _ = 2 ^ (den.log2 + 53) := by ring
      _ ≤ 2 ^ num.log2 := Nat.pow_le_pow_right (by decide) h
      _ ≤ num := hlow
  have hne : num / den ≠ 0 := (Nat.lt_of_lt_of_le (Nat.two_pow_pos _) hquotient).ne'
  exact (Nat.le_log2 hne).2 hquotient

/-- The powers of two of a dividend and a divisor may be moved into the quotient. -/
theorem roundedUnits_shift (num : Nat) {den k up down shift shift' : Nat} (hden : 0 < den)
    (h : k + up + shift' = shift + oneShift + down) :
    roundedUnits (num * 2 ^ k * 2 ^ up) (den * 2 ^ down) =
      roundedUnits (num * 2 ^ shift * oneUnits) (den * 2 ^ shift') := by
  refine roundedUnits_congr (mul_two_pow_pos hden _) (mul_two_pow_pos hden _) ?_
  calc num * 2 ^ k * 2 ^ up * (den * 2 ^ shift')
      = num * den * 2 ^ (k + up + shift') := by ring
    _ = num * den * 2 ^ (shift + oneShift + down) := by rw [h]
    _ = num * 2 ^ shift * oneUnits * (den * 2 ^ down) := by
      rw [oneUnits]
      ring

/-- The quotient of finite values, in units of the least positive value. -/
theorem Reads.div (hu : Reads u s m) (hv : Reads v t n) (hm : 0 < m) (hn : 0 < n) :
    Reads (.div .binary64 u v) (s / t) (roundedUnits (m * oneUnits) n) := by
  have hmin : minExponent = -(oneShift : Nat) := rfl
  rcases hu with ⟨rfl, -⟩ | ⟨mantissa, shift, hpos, -, rfl, rfl⟩
  · exact absurd hm (Nat.lt_irrefl 0)
  rcases hv with ⟨rfl, -⟩ | ⟨mantissa', shift', hpos', -, rfl, rfl⟩
  · exact absurd hn (Nat.lt_irrefl 0)
  rw [UnpackedFloat.div, UnpackedFloat.divCore]
  dsimp only
  rw [targetExponent_sub]
  generalize htarget : min (minExponent + (shift : Nat) - (minExponent + (shift' : Nat)))
    (max (mantissa.log2 + (minExponent + (shift : Nat)) -
      (mantissa'.log2 + (minExponent + (shift' : Nat))) - 53) minExponent) = target
  generalize hk : (minExponent + (shift : Nat) - (minExponent + (shift' : Nat)) - target).toNat = k
  rw [Nat.shiftLeft_eq]
  have hlong := mul_two_pow_pos hpos k
  have hlog := log2_mul_two_pow hpos.ne' k
  -- the quotient is cut short by rounding only
  have hcut : target ≤ max ((mantissa * 2 ^ k / mantissa').log2 + target - 52) minExponent := by
    by_cases hsmall : target ≤ minExponent
    · exact hsmall.trans (le_max_right _ _)
    · have hdigits := log2_div_ge hlong hpos' (by omega)
      omega
  have hread := reads_roundWithAccuracy hpos' (extends_fraction hpos' (mantissa * 2 ^ k))
    (hcut.trans (targetExponent_eq _ _).ge) (s / t)
  have hexponents : k + (target - minExponent).toNat + shift' =
      shift + oneShift + (minExponent - target).toNat := by omega
  have hunits := roundedUnits_shift mantissa hpos' hexponents
  rwa [hunits] at hread

/-! ### Shares -/

theorem reads_of_pos (h : x.isFinite = true) (hpos : 0 < units x) :
    Reads (unpacked x) .positive (units x).toNat := by
  obtain ⟨s, n, hread, -⟩ := exists_reads h
  have hunits : units x = s.apply n := hread.unpackedUnits_eq
  cases s with
  | positive =>
    rw [hunits, Sign.apply, Int.toNat_natCast]
    exact hread
  | negative =>
    rw [hunits, Sign.apply] at hpos
    omega

/-- Whether a part is so small that its share of the whole is half of the least positive value at
most. -/
def Vanishes (part whole : Float) : Prop := 2 * (oneUnits * units part) ≤ units whole

instance (part whole : Float) : Decidable (Vanishes part whole) :=
  inferInstanceAs (Decidable (_ ≤ _))

theorem units_one : units 1 = oneUnits := by decide +kernel

theorem oneUnits_lt : oneUnits < overflowUnits :=
  Nat.pow_lt_pow_right (by decide) (by decide)

theorem reads_share (hx : x.isFinite = true) (hy : y.isFinite = true) (hpos : 0 < units x)
    (hle : units x ≤ units y) : ∃ n, Reads (unpacked (x / y)) .positive n ∧ n ≤ oneUnits ∧
      (n = 0 ↔ Vanishes x y) := by
  have hpos' := hpos.trans_le hle
  have hone : Representable oneUnits := ⟨1, oneShift, by decide, by rw [oneUnits, Nat.one_mul]⟩
  have hread := (reads_of_pos hx hpos).div (reads_of_pos hy hpos') (by omega) (by omega)
  have hlow : roundedUnits ((units x).toNat * oneUnits) (units y).toNat ≤ oneUnits := by
    refine roundedUnits_le (by omega) hone ?_
    rw [Nat.mul_comm]
    exact Nat.mul_le_mul_left oneUnits (by omega)
  refine ⟨_, hread.settled (hlow.trans_lt oneUnits_lt), hlow, ?_⟩
  rw [roundedUnits_eq_zero_iff (by omega), Vanishes]
  have hcast : ((units x).toNat * oneUnits : Nat) = oneUnits * units x := by
    rw [Nat.cast_mul, Int.toNat_of_nonneg hpos.le, Int.mul_comm]
  omega

theorem unpacked_div (x y : Float) :
    unpacked (x / y) = settled (.div .binary64 (unpacked x) (unpacked y)) := rfl

theorem div_infinity (hx : x.isFinite = true) (hpos : 0 < units x)
    (hy : unpacked y = .infinity .positive) : unpacked (x / y) = .zero .positive := by
  rw [unpacked_div, hy]
  rcases reads_of_pos hx hpos with ⟨hzero, -⟩ | ⟨_, _, _, -, -, hx⟩
  · omega
  · rw [hx]
    exact settled_zero .positive

theorem infinity_div_infinity (hx : unpacked x = .infinity s) (hy : unpacked y = .infinity t) :
    unpacked (x / y) = .notANumber := by
  rw [unpacked_div, hx, hy]
  exact settled_notANumber

/-! ### Products -/

theorem unpacked_mul (x y : Float) :
    unpacked (x * y) = settled (.mul .binary64 (unpacked x) (unpacked y)) := rfl

theorem unpacked_neg (x : Float) : unpacked (-x) = settled (unpacked x).neg := rfl

/-- A product is cut short by rounding only: a mantissa of full length makes it long enough. -/
theorem product_cut {mantissa mantissa' shift shift' : Nat} (hpos : 0 < mantissa)
    (hpos' : 0 < mantissa') (hfull : leadingBit ≤ mantissa ∨ shift = 0)
    (hfull' : leadingBit ≤ mantissa' ∨ shift' = 0) :
    minExponent + (shift : Nat) + (minExponent + (shift' : Nat)) ≤
      Format.targetExponent .binary64 (totalExponent (mantissa * mantissa')
        (minExponent + (shift : Nat) + (minExponent + (shift' : Nat)))) := by
  have hleading : leadingBit = 2 ^ 52 := rfl
  have hmin : minExponent = -1074 := rfl
  have hne : mantissa * mantissa' ≠ 0 := (Nat.mul_pos hpos hpos').ne'
  have hlong : 2 ^ 52 ≤ mantissa * mantissa' ∨ shift = 0 ∧ shift' = 0 := by
    rw [hleading] at hfull hfull'
    rcases hfull with hfull | hshift
    · exact .inl (hfull.trans (Nat.le_mul_of_pos_right mantissa hpos'))
    · rcases hfull' with hfull' | hshift'
      · exact .inl (hfull'.trans (Nat.le_mul_of_pos_left mantissa' hpos))
      · exact .inr ⟨hshift, hshift'⟩
  rw [targetExponent_eq]
  rcases hlong with hlong | ⟨rfl, rfl⟩
  · have hlog := (Nat.le_log2 hne).2 hlong
    omega
  · omega

theorem Reads.mul (hu : Reads u s m) (hv : Reads v t n) :
    ∃ k, Reads (.mul .binary64 u v) (s * t) k := by
  rcases hu with ⟨rfl, rfl⟩ | ⟨mantissa, shift, hpos, ⟨-, hfull⟩, rfl, rfl⟩
  · rcases hv with ⟨rfl, rfl⟩ | ⟨mantissa', shift', hpos', -, rfl, rfl⟩
    · exact ⟨0, .inl ⟨rfl, rfl⟩⟩
    · exact ⟨0, .inl ⟨rfl, rfl⟩⟩
  · rcases hv with ⟨rfl, rfl⟩ | ⟨mantissa', shift', hpos', ⟨-, hfull'⟩, rfl, rfl⟩
    · exact ⟨0, .inl ⟨rfl, rfl⟩⟩
    · exact ⟨_, reads_roundWithAccuracy Nat.one_pos (extends_exact (mantissa * mantissa'))
        (product_cut hpos hpos' hfull hfull') (s * t)⟩

theorem Reads.eq_zero (h : Reads u s 0) : u = .zero s := by
  rcases h with ⟨-, h⟩ | ⟨mantissa, shift, hpos, -, hunits, -⟩
  · exact h
  · exact absurd hunits (mul_two_pow_pos hpos shift).ne'

theorem zero_le_of_reads (h : Reads (unpacked x) .positive n) : 0 ≤ x := by
  refine (zero_le_iff_units h.isFinite).2 ?_
  rw [units, h.unpackedUnits_eq]
  exact Int.natCast_nonneg n

theorem zero_le_of_settled (h : Reads u .positive n) (hx : unpacked x = settled u) : 0 ≤ x := by
  rcases Nat.lt_or_ge n overflowUnits with hlt | hle
  · exact zero_le_of_reads (hx ▸ h.settled hlt)
  · exact zero_le_of_infinity (hx.trans (h.settled_of_le hle))

theorem reads_neg (h : Reads (unpacked x) s n) (hn : n < overflowUnits) :
    Reads (unpacked (-x)) (-s) n := h.neg.settled hn

theorem unpacked_of_nonpos (h : x ≤ 0) : (∃ s, unpacked x = .zero s) ∨
    unpacked x = .infinity .negative ∨ ∃ n, Reads (unpacked x) .negative n := by
  rcases unpacked_cases x with hx | ⟨s, hx⟩ | ⟨s, n, hread, -⟩
  · rw [le_iff_compare, hx] at h
    cases h
  · cases s with
    | positive =>
      rw [le_iff_compare, hx] at h
      cases h
    | negative => exact .inr (.inl hx)
  · cases s with
    | positive =>
      rw [le_iff_units hread.isFinite rfl, units, hread.unpackedUnits_eq] at h
      obtain rfl : n = 0 := Nat.eq_zero_of_le_zero (Int.ofNat_le.1 h)
      exact .inl ⟨.positive, hread.eq_zero⟩
    | negative => exact .inr (.inr ⟨n, hread⟩)

theorem zero_le_of_zero (h : unpacked x = .zero s) : 0 ≤ x := by
  rw [le_iff_compare, h]
  rfl

theorem neg_mul_nonneg (h : Reads (unpacked x) .positive n) (hn : n < overflowUnits) (hpos : n ≠ 0)
    (hy : y ≤ 0) : 0 ≤ -x * y := by
  have hneg : Reads (unpacked (-x)) .negative n := reads_neg h hn
  rcases unpacked_of_nonpos hy with ⟨s, hy⟩ | hy | ⟨k, hy⟩
  · rcases hneg with ⟨hzero, -⟩ | ⟨mantissa, shift, _, -, -, hneg⟩
    · exact absurd hzero hpos
    · have hproduct : unpacked (-x * y) = .zero (.negative * s) := by
        rw [unpacked_mul, hneg, hy]
        exact settled_zero _
      exact zero_le_of_zero hproduct
  · rcases hneg with ⟨hzero, -⟩ | ⟨mantissa, shift, _, -, -, hneg⟩
    · exact absurd hzero hpos
    · refine zero_le_of_infinity ?_
      rw [unpacked_mul, hneg, hy]
      exact settled_infinity _
  · obtain ⟨_, hproduct⟩ := hneg.mul hy
    exact zero_le_of_settled hproduct (unpacked_mul _ _)

theorem neg_zero_mul_infinity (hx : unpacked x = .zero s) (hy : unpacked y = .infinity t) :
    unpacked (-x * y) = .notANumber := by
  have hneg : unpacked (-x) = .zero (-s) := by
    rw [unpacked_neg, hx]
    exact settled_zero (-s)
  rw [unpacked_mul, hneg, hy]
  exact settled_notANumber

theorem notANumber_mul (hx : unpacked x = .notANumber) (y : Float) :
    unpacked (x * y) = .notANumber := by
  rw [unpacked_mul, hx]
  exact settled_notANumber

theorem neg_notANumber (hx : unpacked x = .notANumber) : unpacked (-x) = .notANumber := by
  rw [unpacked_neg, hx]
  exact settled_notANumber

end Binary64

end QuestionTree
