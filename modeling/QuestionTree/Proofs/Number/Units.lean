import QuestionTree.Proofs.Number.Packed

/-!
# Values counted in units

A finite value is a whole number of units of the least positive value, and finite values compare as
their numbers do. Sums and differences of finite values are the nearest values to the sums and
differences of their numbers, or infinities of the same sign if there are no bits for these.
-/

namespace QuestionTree

namespace Binary64

open Float.Model
open UnpackedFloat (Sign Accuracy)

/-! ### Numbers of units -/

/-- The number of units of what was unpacked, if it is finite. -/
def unpackedUnits (u : UnpackedFloat) : Int :=
  match u with
  | .finite s mantissa exponent _ => s.apply (mantissa * 2 ^ (exponent - minExponent).toNat)
  | _ => 0

/-- The number of units of a finite value. -/
def units (x : Float) : Int := unpackedUnits (unpacked x)

variable {u v : UnpackedFloat} {s t : Sign} {m n : Nat} {x y z : Float}

theorem Reads.unpackedUnits_eq (h : Reads u s n) : unpackedUnits u = s.apply n := by
  rcases h with ⟨rfl, rfl⟩ | ⟨mantissa, shift, hpos, -, rfl, rfl⟩
  · cases s <;> rfl
  · have hshift : (minExponent + (shift : Nat) - minExponent).toNat = shift := by omega
    rw [unpackedUnits, hshift]
    push_cast
    rfl

theorem Reads.isFinite (h : Reads u s n) : u.isFinite = true := by
  rcases h with ⟨-, rfl⟩ | ⟨_, _, _, -, -, rfl⟩
  · rfl
  · rfl

theorem isFinite_eq (x : Float) : x.isFinite = (unpacked x).isFinite := rfl

theorem isNaN_eq (x : Float) : x.isNaN = (unpacked x).isNaN := rfl

theorem isNaN_of_isFinite (h : x.isFinite = true) : x.isNaN = false := by
  rw [isFinite_eq] at h
  rw [isNaN_eq]
  cases hx : unpacked x with
  | notANumber => rw [hx] at h; cases h
  | infinity s => rfl
  | zero s => rfl
  | finite s mantissa exponent _ => rfl

theorem unpacked_cases (x : Float) : unpacked x = .notANumber ∨ (∃ s, unpacked x = .infinity s) ∨
    ∃ s n, Reads (unpacked x) s n ∧ n < overflowUnits := by
  have hunpacked : unpacked x = .unpack .binary64 x.toBits.toBitVec := rfl
  by_cases h : @UnpackedFloat.unpackExponent .binary64 x.toBits.toBitVec = -1#_
  · rw [hunpacked, UnpackedFloat.unpack]
    dsimp only
    rw [if_pos h]
    split
    · exact .inr (.inl ⟨_, rfl⟩)
    · exact .inl rfl
  · refine .inr (.inr ⟨_, _, hunpacked ▸ reads_unpack h, fieldUnits_lt ?_ (BitVec.isLt _)⟩)
    have hne : (@UnpackedFloat.unpackExponent .binary64 x.toBits.toBitVec).toNat ≠ 2 ^ 11 - 1 :=
      fun heq => h (BitVec.eq_of_toNat_eq heq)
    have hlt : (@UnpackedFloat.unpackExponent .binary64 x.toBits.toBitVec).toNat < 2 ^ 11 :=
      BitVec.isLt _
    omega

theorem exists_reads (h : x.isFinite = true) :
    ∃ s n, Reads (unpacked x) s n ∧ n < overflowUnits := by
  rcases unpacked_cases x with hx | ⟨s, hx⟩ | hx
  · rw [isFinite_eq, hx] at h
    cases h
  · rw [isFinite_eq, hx] at h
    cases h
  · exact hx

/-! ### Comparisons -/

theorem compare_units {d e : Nat} (hm : Canonical m d) (hn : Canonical n e) :
    (compare (minExponent + (d : Int)) (minExponent + e)).then (compare m n) =
      compare (m * 2 ^ d) (n * 2 ^ e) := by
  have hleading : leadingBit = 2 ^ 52 := rfl
  have hless : ∀ {m n d e : Nat}, Canonical m d → Canonical n e → d < e →
      m * 2 ^ d < n * 2 ^ e := by
    intro m n d e hm hn hde
    rw [Canonical, hleading] at hm hn
    calc m * 2 ^ d < 2 ^ 53 * 2 ^ d := Nat.mul_lt_mul_of_pos_right (by omega) (Nat.two_pow_pos d)
      _ = 2 ^ 52 * 2 ^ (d + 1) := by ring
      _ ≤ n * 2 ^ e := Nat.mul_le_mul (by omega) (Nat.pow_le_pow_right (by decide) hde)
  rcases Nat.lt_trichotomy d e with h | rfl | h
  · have hexponent : compare (minExponent + (d : Int)) (minExponent + e) = .lt :=
      compare_lt_iff_lt.2 (by omega)
    rw [hexponent, compare_lt_iff_lt.2 (hless hm hn h)]
    rfl
  · have hexponent : compare (minExponent + (d : Int)) (minExponent + d) = .eq :=
      compare_eq_iff_eq.2 rfl
    have hpower := Nat.two_pow_pos d
    rw [hexponent, Ordering.eq_then]
    rcases Nat.lt_trichotomy m n with h | rfl | h
    · rw [compare_lt_iff_lt.2 h, compare_lt_iff_lt.2 (Nat.mul_lt_mul_of_pos_right h hpower)]
    · rw [compare_eq_iff_eq.2 rfl, compare_eq_iff_eq.2 rfl]
    · rw [compare_gt_iff_gt.2 h, compare_gt_iff_gt.2 (Nat.mul_lt_mul_of_pos_right h hpower)]
  · have hexponent : compare (minExponent + (d : Int)) (minExponent + e) = .gt :=
      compare_gt_iff_gt.2 (by omega)
    rw [hexponent, compare_gt_iff_gt.2 (hless hn hm h)]
    rfl

theorem compare_natCast (m n : Nat) : compare (m : Int) n = compare m n := by
  rcases Nat.lt_trichotomy m n with h | rfl | h
  · rw [compare_lt_iff_lt.2 h, compare_lt_iff_lt.2 (Int.ofNat_lt.2 h)]
  · rw [compare_eq_iff_eq.2 rfl, compare_eq_iff_eq.2 rfl]
  · rw [compare_gt_iff_gt.2 h, compare_gt_iff_gt.2 (Int.ofNat_lt.2 h)]

theorem compare_neg (m n : Int) : compare (-m) (-n) = (compare m n).swap := by
  rcases Int.lt_trichotomy m n with h | rfl | h
  · rw [compare_lt_iff_lt.2 h, compare_gt_iff_gt.2 (Int.neg_lt_neg h)]
    rfl
  · rw [compare_eq_iff_eq.2 rfl, compare_eq_iff_eq.2 rfl]
    rfl
  · rw [compare_gt_iff_gt.2 h, compare_lt_iff_lt.2 (Int.neg_lt_neg h)]
    rfl

theorem Reads.compare_eq (hu : Reads u s m) (hv : Reads v t n) :
    u.compare v = some (compare (s.apply m) (t.apply n)) := by
  rcases hu with ⟨rfl, rfl⟩ | ⟨mantissa, shift, hpos, hcanonical, rfl, rfl⟩
  · rcases hv with ⟨rfl, rfl⟩ | ⟨mantissa, shift, hpos, hcanonical, rfl, rfl⟩
    · cases s <;> cases t <;> rfl
    · have hunits : (0 : Int) < (mantissa * 2 ^ shift : Nat) :=
        Int.natCast_pos.2 (mul_two_pow_pos hpos shift)
      have hzero : s.apply (0 : Nat) = 0 := by cases s <;> rfl
      rw [hzero]
      cases t with
      | positive =>
        rw [Sign.apply, compare_lt_iff_lt.2 hunits]
        rfl
      | negative =>
        rw [Sign.apply, compare_gt_iff_gt.2 (Int.neg_neg_of_pos hunits)]
        rfl
  · have hunits : (0 : Int) < (mantissa * 2 ^ shift : Nat) :=
      Int.natCast_pos.2 (mul_two_pow_pos hpos shift)
    rcases hv with ⟨rfl, rfl⟩ | ⟨mantissa', shift', hpos', hcanonical', rfl, rfl⟩
    · have hzero : t.apply (0 : Nat) = 0 := by cases t <;> rfl
      rw [hzero]
      cases s with
      | positive =>
        rw [Sign.apply, compare_gt_iff_gt.2 hunits]
        rfl
      | negative =>
        rw [Sign.apply, compare_lt_iff_lt.2 (Int.neg_neg_of_pos hunits)]
        rfl
    · have hunits' : (0 : Int) < (mantissa' * 2 ^ shift' : Nat) :=
        Int.natCast_pos.2 (mul_two_pow_pos hpos' shift')
      have hcompare := compare_units hcanonical hcanonical'
      cases s with
      | positive =>
        cases t with
        | positive =>
          rw [Sign.apply, Sign.apply, compare_natCast, ← hcompare]
          rfl
        | negative =>
          rw [Sign.apply, Sign.apply, compare_gt_iff_gt.2 (by omega)]
          rfl
      | negative =>
        cases t with
        | positive =>
          rw [Sign.apply, Sign.apply, compare_lt_iff_lt.2 (by omega)]
          rfl
        | negative =>
          rw [Sign.apply, Sign.apply, compare_neg, compare_natCast, ← hcompare]
          rfl

theorem lt_iff_units (hx : x.isFinite = true) (hy : y.isFinite = true) :
    x < y ↔ units x < units y := by
  obtain ⟨s, m, hx, -⟩ := exists_reads hx
  obtain ⟨t, n, hy, -⟩ := exists_reads hy
  rw [lt_iff_compare, hx.compare_eq hy, Option.some_inj, compare_lt_iff_lt, units, units,
    hx.unpackedUnits_eq, hy.unpackedUnits_eq]

theorem le_iff_units (hx : x.isFinite = true) (hy : y.isFinite = true) :
    x ≤ y ↔ units x ≤ units y := by
  obtain ⟨s, m, hx, -⟩ := exists_reads hx
  obtain ⟨t, n, hy, -⟩ := exists_reads hy
  rw [le_iff_compare, hx.compare_eq hy, Option.any_some, units, units, hx.unpackedUnits_eq,
    hy.unpackedUnits_eq, ← compare_le_iff_le, Ordering.isLE_iff_ne_gt]

theorem zero_le_iff_units (h : x.isFinite = true) : 0 ≤ x ↔ 0 ≤ units x :=
  le_iff_units rfl h

theorem zero_le_of_infinity (h : unpacked x = .infinity .positive) : 0 ≤ x := by
  rw [le_iff_compare, h]
  rfl

/-! ### Rounding -/

/-- A number of units, rounded to the digits of a mantissa. -/
def rounded (n : Int) : Int := n.sign * roundedUnits n.natAbs 1

variable {a b : Int} {r : Nat}

theorem rounded_natCast (n : Nat) : rounded n = roundedUnits n 1 := by
  rw [rounded, Int.natAbs_natCast]
  rcases Nat.eq_zero_or_pos n with rfl | hpos
  · decide
  · rw [Int.sign_eq_one_of_pos (Int.natCast_pos.2 hpos), Int.one_mul]

theorem rounded_neg (a : Int) : rounded (-a) = -rounded a := by
  rw [rounded, rounded, Int.sign_neg, Int.natAbs_neg, Int.neg_mul]

/-- Negation carries what rounding does to natural numbers over to all numbers. -/
theorem rounded_apply (s : Sign) (n : Nat) : rounded (s.apply n) = s.apply (roundedUnits n 1) := by
  cases s with
  | positive => exact rounded_natCast n
  | negative => rw [Sign.apply, Sign.apply, rounded_neg, rounded_natCast]

theorem exists_apply (a : Int) : ∃ s : Sign, a = s.apply (a.natAbs : Nat) := by
  rcases Int.natAbs_eq a with h | h
  · exact ⟨.positive, h⟩
  · exact ⟨.negative, h⟩

theorem natAbs_apply (s : Sign) (n : Nat) : (s.apply (n : Int)).natAbs = n := by
  cases s with
  | positive => exact Int.natAbs_natCast n
  | negative => exact (Int.natAbs_neg _).trans (Int.natAbs_natCast n)

theorem natAbs_rounded (a : Int) : (rounded a).natAbs = roundedUnits a.natAbs 1 := by
  obtain ⟨s, ha⟩ := exists_apply a
  rw [ha, rounded_apply, natAbs_apply, natAbs_apply]

theorem rounded_nonneg (h : 0 ≤ a) : 0 ≤ rounded a := by
  rw [← Int.natAbs_of_nonneg h, rounded_natCast]
  exact Int.natCast_nonneg _

theorem rounded_mono (ha : 0 ≤ a) (h : a ≤ b) : rounded a ≤ rounded b := by
  have hmono := roundedUnits_mono (show a.natAbs ≤ b.natAbs by omega)
  rw [← Int.natAbs_of_nonneg ha, ← Int.natAbs_of_nonneg (ha.trans h), rounded_natCast,
    rounded_natCast]
  exact Int.ofNat_le.2 hmono

theorem rounded_of_representable (h : Representable a.natAbs) : rounded a = a := by
  obtain ⟨s, ha⟩ := exists_apply a
  rw [ha, rounded_apply, roundedUnits_of_representable h]

theorem natAbs_rounded_le (hr : Representable r) (h : a.natAbs ≤ r) : (rounded a).natAbs ≤ r := by
  rw [natAbs_rounded]
  exact roundedUnits_le Nat.one_pos hr (by rwa [Nat.mul_one])

/-- Whether a number is as near to another one as rounding leaves it. -/
def Close (a b : Int) : Prop := 2 ^ 53 * (a - b).natAbs ≤ b.natAbs

/-- Rounding changes a number of units by a small part of it only. -/
theorem close_rounded (a : Int) : Close (rounded a) a := by
  obtain ⟨s, ha⟩ := exists_apply a
  have herror := roundedUnits_error a.natAbs
  rw [Close, ha, rounded_apply, natAbs_apply]
  cases s with
  | positive =>
    rw [Sign.apply, Sign.apply]
    omega
  | negative =>
    rw [Sign.apply, Sign.apply]
    omega

end Binary64

end QuestionTree
