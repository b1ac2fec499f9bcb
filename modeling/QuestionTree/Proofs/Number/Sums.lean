import QuestionTree.Proofs.Number.Units

/-!
# Sums of finite values

Counted in units, the sum of finite values is the nearest number to the sum of theirs, and the
difference the nearest one to the difference. Where there are no bits for this number, the result is
an infinity with its sign.
-/

namespace QuestionTree

namespace Binary64

open Float.Model
open UnpackedFloat (Sign)

variable {u v : UnpackedFloat} {s t : Sign} {m n : Nat} {a : Int} {r : Nat}
  {x y : Float}

/-! ### Whole numbers that are packed -/

/-- Whether what is to be packed is the nearest number of units. -/
def Approaches (u : UnpackedFloat) (a : Int) : Prop := ∃ s n, Reads u s n ∧ s.apply n = rounded a

theorem Reads.representable (h : Reads u s n) : Representable n := by
  have hleading : leadingBit = 2 ^ 52 := rfl
  rcases h with ⟨rfl, -⟩ | ⟨mantissa, shift, -, ⟨hlt, -⟩, rfl, -⟩
  · exact ⟨0, 0, Nat.zero_le _, rfl⟩
  · exact ⟨mantissa, shift, by omega, rfl⟩

theorem Reads.approaches (h : Reads u s n) : Approaches u (s.apply n) := by
  refine ⟨s, n, h, (rounded_of_representable ?_).symm⟩
  rw [natAbs_apply]
  exact h.representable

theorem Reads.neg (h : Reads u s n) : Reads u.neg (-s) n := by
  rcases h with ⟨rfl, rfl⟩ | ⟨mantissa, shift, hpos, hcanonical, rfl, rfl⟩
  · exact .inl ⟨rfl, rfl⟩
  · exact .inr ⟨mantissa, shift, hpos, hcanonical, rfl, rfl⟩

theorem apply_neg (s : Sign) (a : Int) : (-s).apply a = -s.apply a := by
  cases s with
  | positive => rfl
  | negative => exact (Int.neg_neg a).symm

theorem log2_mul_two_pow (h : n ≠ 0) (k : Nat) : (n * 2 ^ k).log2 = n.log2 + k := by
  have hne : n * 2 ^ k ≠ 0 := (mul_two_pow_pos (Nat.pos_of_ne_zero h) k).ne'
  refine (Nat.log2_eq_iff hne).2 ⟨?_, ?_⟩
  · rw [pow_add]
    exact Nat.mul_le_mul_right _ (Nat.log2_self_le h)
  · rw [Nat.add_right_comm, pow_add]
    exact Nat.mul_lt_mul_of_pos_right Nat.lt_log2_self (Nat.two_pow_pos k)

theorem reads_round {mantissa shift : Nat} (h : mantissa ≠ 0) (s : Sign) :
    Reads (.round .binary64 s mantissa (minExponent + (shift : Nat))) s
      (roundedUnits (mantissa * 2 ^ shift) 1) := by
  have htarget := targetExponent_eq mantissa (minExponent + (shift : Nat))
  rw [UnpackedFloat.round, UnpackedFloat.decreaseExponent]
  dsimp only
  rw [htarget, Nat.shiftLeft_eq]
  generalize hk : (minExponent + (shift : Nat) -
    max (mantissa.log2 + (minExponent + (shift : Nat)) - 52) minExponent).toNat = k
  -- what is left of the exponent once the mantissa is made longer
  obtain ⟨rest, rfl⟩ : ∃ rest, shift = rest + k := ⟨shift - k, by omega⟩
  have hexponent : minExponent + ((rest + k : Nat) : Int) - (k : Nat) =
      minExponent + (rest : Nat) := by omega
  rw [hexponent]
  have hcut : minExponent + (rest : Nat) ≤ Format.targetExponent .binary64
      (totalExponent (mantissa * 2 ^ k) (minExponent + (rest : Nat))) := by
    rw [targetExponent_eq, log2_mul_two_pow h]
    omega
  have hread := reads_roundWithAccuracy Nat.one_pos (extends_exact (mantissa * 2 ^ k)) hcut s
  have hup : (minExponent + (rest : Nat) - minExponent).toNat = rest := by omega
  have hdown : (minExponent - (minExponent + (rest : Nat))).toNat = 0 := by omega
  have hunits : mantissa * 2 ^ k * 2 ^ rest = mantissa * 2 ^ (rest + k) := by ring
  rwa [hup, hdown, hunits] at hread

theorem approaches_normalize (a : Int) (shift : Nat) : Approaches
    (.normalize .binary64 a (minExponent + (shift : Nat)) .positive) (a * 2 ^ shift) := by
  have hcast : ∀ m : Nat, (m : Int) * 2 ^ shift = (m * 2 ^ shift : Nat) := by
    intro m
    push_cast
    rfl
  rw [UnpackedFloat.normalize]
  rcases Int.lt_trichotomy a 0 with h | rfl | h
  · rw [compare_lt_iff_lt.2 h]
    refine ⟨.negative, _, reads_round (by omega) .negative, ?_⟩
    have ha : a * 2 ^ shift = Sign.negative.apply (((-a).toNat * 2 ^ shift : Nat) : Int) := by
      rw [← hcast, Sign.apply, ← Int.neg_mul, Int.toNat_of_nonneg (by omega), Int.neg_neg]
    rw [ha, rounded_apply]
  · exact ⟨.positive, 0, .inl ⟨rfl, rfl⟩, by rw [Int.zero_mul]; rfl⟩
  · rw [compare_gt_iff_gt.2 h]
    refine ⟨.positive, _, reads_round (by omega) .positive, ?_⟩
    have ha : a * 2 ^ shift = Sign.positive.apply ((a.toNat * 2 ^ shift : Nat) : Int) := by
      rw [← hcast, Sign.apply, Int.toNat_of_nonneg (by omega)]
    rw [ha, rounded_apply]

theorem apply_zero (s : Sign) : s.apply (0 : Nat) = 0 := by
  cases s <;> rfl

theorem apply_mul (s : Sign) (a b : Int) : s.apply (a * b) = s.apply a * b := by
  cases s with
  | positive => rfl
  | negative => exact (Int.neg_mul a b).symm

/-- A mantissa that is made longer counts a smaller power of two. -/
theorem apply_shift (s : Sign) (mantissa : Nat) {shift least : Nat} (h : least ≤ shift) :
    s.apply ((mantissa <<< (shift - least) : Nat) : Int) * 2 ^ least =
      s.apply ((mantissa * 2 ^ shift : Nat) : Int) := by
  have hunits : mantissa * 2 ^ shift = mantissa * 2 ^ (shift - least) * 2 ^ least := by
    rw [Nat.mul_assoc, ← pow_add, Nat.sub_add_cancel h]
  rw [hunits, Nat.shiftLeft_eq, ← apply_mul]
  push_cast
  rfl

theorem Reads.add (hu : Reads u s m) (hv : Reads v t n) :
    Approaches (.add .binary64 u v) (s.apply m + t.apply n) := by
  have happroaches := hv.approaches
  rcases hu with ⟨rfl, rfl⟩ | ⟨mantissa, shift, hpos, hcanonical, rfl, rfl⟩
  · rw [apply_zero, Int.zero_add]
    rcases hv with ⟨rfl, rfl⟩ | ⟨mantissa, shift, hpos, -, rfl, rfl⟩
    · rw [apply_zero]
      cases s <;> cases t <;> exact ⟨_, 0, .inl ⟨rfl, rfl⟩, rfl⟩
    · exact happroaches
  · rcases hv with ⟨rfl, rfl⟩ | ⟨mantissa', shift', hpos', -, rfl, rfl⟩
    · rw [apply_zero, Int.add_zero]
      exact Reads.approaches (.inr ⟨mantissa, shift, hpos, hcanonical, rfl, rfl⟩)
    · have hmin : min (minExponent + (shift : Nat)) (minExponent + (shift' : Nat)) =
          minExponent + ((min shift shift' : Nat) : Int) := by omega
      have hless : (minExponent + (shift : Nat) -
          (minExponent + ((min shift shift' : Nat) : Int))).toNat = shift - min shift shift' := by
        omega
      have hless' : (minExponent + (shift' : Nat) -
          (minExponent + ((min shift shift' : Nat) : Int))).toNat = shift' - min shift shift' := by
        omega
      rw [UnpackedFloat.add]
      dsimp only [UnpackedFloat.decreaseExponent]
      rw [hmin, hless, hless', ← apply_shift s mantissa (Nat.min_le_left shift shift'),
        ← apply_shift t mantissa' (Nat.min_le_right shift shift'), ← Int.add_mul]
      exact approaches_normalize _ _

theorem sub_eq_add_neg (u v : UnpackedFloat) :
    UnpackedFloat.sub .binary64 u v = .add .binary64 u v.neg := by
  cases u with
  | notANumber => cases v <;> rfl
  | infinity s => cases v <;> rfl
  | zero s => cases v <;> rfl
  | finite s mantissa exponent hpos =>
    cases v with
    | notANumber => rfl
    | infinity t => rfl
    | zero t => rfl
    | finite t mantissa' exponent' hpos' =>
      cases t with
      | positive => rfl
      | negative =>
        rw [UnpackedFloat.neg, UnpackedFloat.add, UnpackedFloat.sub]
        dsimp only
        rw [apply_neg, Int.sub_eq_add_neg]

theorem Reads.sub (hu : Reads u s m) (hv : Reads v t n) :
    Approaches (.sub .binary64 u v) (s.apply m - t.apply n) := by
  rw [sub_eq_add_neg, Int.sub_eq_add_neg, ← apply_neg]
  exact hu.add hv.neg

/-! ### Sums and differences -/

/-- The sign of a number of units. -/
def signOf (a : Int) : Sign := if a < 0 then .negative else .positive

/-- Whether a value is the nearest one to a number of units, or an infinity if there are no bits for
the nearest one. -/
structure Nears (x : Float) (a : Int) : Prop where
  finite : (rounded a).natAbs < overflowUnits → x.isFinite = true ∧ units x = rounded a
  overflow : overflowUnits ≤ (rounded a).natAbs → unpacked x = .infinity (signOf (rounded a))

theorem signOf_apply (s : Sign) (h : n ≠ 0) : signOf (s.apply n) = s := by
  cases s with
  | positive => exact if_neg (Int.not_lt.2 (Int.natCast_nonneg n))
  | negative => exact if_pos (Int.neg_neg_of_pos (Int.natCast_pos.2 (Nat.pos_of_ne_zero h)))

theorem Approaches.nears (h : Approaches u a) (hx : unpacked x = settled u) : Nears x a := by
  obtain ⟨s, n, hread, ha⟩ := h
  have habs : (rounded a).natAbs = n := by rw [← ha, natAbs_apply]
  constructor
  · intro hlt
    rw [habs] at hlt
    have hpacked := hread.settled hlt
    rw [← hx] at hpacked
    exact ⟨hpacked.isFinite, hpacked.unpackedUnits_eq.trans ha⟩
  · intro hle
    rw [habs] at hle
    have hne : n ≠ 0 := (Nat.lt_of_lt_of_le (Nat.two_pow_pos _) hle).ne'
    rw [hx, hread.settled_of_le hle, ← ha, signOf_apply s hne]

theorem nears_add (hx : x.isFinite = true) (hy : y.isFinite = true) :
    Nears (x + y) (units x + units y) := by
  obtain ⟨s, m, hx, -⟩ := exists_reads hx
  obtain ⟨t, n, hy, -⟩ := exists_reads hy
  rw [units, units, hx.unpackedUnits_eq, hy.unpackedUnits_eq]
  exact (hx.add hy).nears rfl

theorem nears_sub (hx : x.isFinite = true) (hy : y.isFinite = true) :
    Nears (x - y) (units x - units y) := by
  obtain ⟨s, m, hx, -⟩ := exists_reads hx
  obtain ⟨t, n, hy, -⟩ := exists_reads hy
  rw [units, units, hx.unpackedUnits_eq, hy.unpackedUnits_eq]
  exact (hx.sub hy).nears rfl

theorem representable_units (h : x.isFinite = true) :
    Representable (units x).natAbs ∧ (units x).natAbs < overflowUnits := by
  obtain ⟨s, n, hread, hlt⟩ := exists_reads h
  rw [units, hread.unpackedUnits_eq, natAbs_apply]
  exact ⟨hread.representable, hlt⟩

/-- A number of units for which there are bits is not exceeded by rounding. -/
theorem Nears.isFinite_of_le (h : Nears x a) (hr : Representable r) (hlt : r < overflowUnits)
    (hle : a.natAbs ≤ r) : x.isFinite = true ∧ units x = rounded a :=
  h.finite ((natAbs_rounded_le hr hle).trans_lt hlt)

/-- There are bits for numbers of units up to three quarters of the first one without any. -/
theorem Nears.isFinite_of_small (h : Nears x a) (hsmall : 4 * a.natAbs ≤ 3 * overflowUnits) :
    x.isFinite = true := by
  have hrepr : Representable (3 * 2 ^ (51 + maxShift)) := ⟨3, 51 + maxShift, by decide, rfl⟩
  have htop : overflowUnits = 4 * 2 ^ (51 + maxShift) := by
    rw [overflowUnits]
    ring
  have hpower := Nat.two_pow_pos (51 + maxShift)
  exact (h.isFinite_of_le hrepr (by omega) (by omega)).1

theorem Nears.units_eq (h : Nears x a) (hx : x.isFinite = true) : units x = rounded a := by
  rcases Nat.lt_or_ge (rounded a).natAbs overflowUnits with hlt | hle
  · exact (h.finite hlt).2
  · rw [isFinite_eq, h.overflow hle] at hx
    cases hx

theorem Nears.close (h : Nears x a) (hx : x.isFinite = true) : Close (units x) a :=
  h.units_eq hx ▸ close_rounded a

/-- A number of units that is not negative has a value, or its value is the positive infinity. -/
theorem Nears.isFinite_or (h : Nears x a) (ha : 0 ≤ a) :
    (x.isFinite = true ∧ units x = rounded a) ∨ unpacked x = .infinity .positive := by
  rcases Nat.lt_or_ge (rounded a).natAbs overflowUnits with hlt | hle
  · exact .inl (h.finite hlt)
  · have hsign : signOf (rounded a) = .positive := if_neg (Int.not_lt.2 (rounded_nonneg ha))
    exact .inr (hsign ▸ h.overflow hle)

/-! ### Infinities and what is not a number -/

theorem unpacked_add (x y : Float) :
    unpacked (x + y) = settled (.add .binary64 (unpacked x) (unpacked y)) := rfl

theorem unpacked_sub (x y : Float) :
    unpacked (x - y) = settled (.add .binary64 (unpacked x) (unpacked y).neg) := by
  rw [← sub_eq_add_neg]
  rfl

theorem finite_add_infinity (hu : u.isFinite = true) (t : Sign) :
    UnpackedFloat.add .binary64 u (.infinity t) = .infinity t := by
  cases u with
  | notANumber => cases hu
  | infinity s => cases hu
  | zero s => rfl
  | finite s mantissa exponent _ => rfl

theorem infinity_add_finite (s : Sign) (hv : v.isFinite = true) :
    UnpackedFloat.add .binary64 (.infinity s) v = .infinity s := by
  cases v with
  | notANumber => cases hv
  | infinity t => cases hv
  | zero t => rfl
  | finite t mantissa exponent _ => rfl

theorem isFinite_neg (hv : v.isFinite = true) : v.neg.isFinite = true := by
  cases v with
  | notANumber => cases hv
  | infinity t => cases hv
  | zero t => rfl
  | finite t mantissa exponent _ => rfl

theorem add_infinity (hx : x.isFinite = true) (hy : unpacked y = .infinity t) :
    unpacked (x + y) = .infinity t := by
  rw [isFinite_eq] at hx
  rw [unpacked_add, hy, finite_add_infinity hx, settled_infinity]

theorem infinity_add (hx : unpacked x = .infinity s) (hy : y.isFinite = true) :
    unpacked (x + y) = .infinity s := by
  rw [isFinite_eq] at hy
  rw [unpacked_add, hx, infinity_add_finite s hy, settled_infinity]

theorem sub_infinity (hx : x.isFinite = true) (hy : unpacked y = .infinity t) :
    unpacked (x - y) = .infinity (-t) := by
  rw [isFinite_eq] at hx
  rw [unpacked_sub, hy, UnpackedFloat.neg, finite_add_infinity hx, settled_infinity]

theorem infinity_sub (hx : unpacked x = .infinity s) (hy : y.isFinite = true) :
    unpacked (x - y) = .infinity s := by
  rw [isFinite_eq] at hy
  rw [unpacked_sub, hx, infinity_add_finite s (isFinite_neg hy), settled_infinity]

theorem infinity_add_infinity (hx : unpacked x = .infinity s) (hy : unpacked y = .infinity s) :
    unpacked (x + y) = .infinity s := by
  rw [unpacked_add, hx, hy, UnpackedFloat.add, if_pos (beq_self_eq_true s), settled_infinity]

theorem notANumber_add (hx : unpacked x = .notANumber) (y : Float) :
    unpacked (x + y) = .notANumber := by
  rw [unpacked_add, hx]
  exact settled_notANumber

theorem add_notANumber (x : Float) (hy : unpacked y = .notANumber) :
    unpacked (x + y) = .notANumber := by
  rw [unpacked_add, hy]
  cases unpacked x <;> exact settled_notANumber

theorem notANumber_sub (hx : unpacked x = .notANumber) (y : Float) :
    unpacked (x - y) = .notANumber := by
  rw [unpacked_sub, hx]
  exact settled_notANumber

theorem sub_notANumber (x : Float) (hy : unpacked y = .notANumber) :
    unpacked (x - y) = .notANumber := by
  rw [unpacked_sub, hy]
  cases unpacked x <;> exact settled_notANumber

theorem infinity_sub_infinity (hx : unpacked x = .infinity s) (hy : unpacked y = .infinity s) :
    unpacked (x - y) = .notANumber := by
  rw [unpacked_sub, hx, hy]
  cases s <;> exact settled_notANumber

theorem infinity_add_neg_infinity (hx : unpacked x = .infinity s)
    (hy : unpacked y = .infinity (-s)) : unpacked (x + y) = .notANumber := by
  rw [unpacked_add, hx, hy]
  cases s <;> exact settled_notANumber

end Binary64

end QuestionTree
