import QuestionTree.Proofs.Number.Bits

/-!
# The order of positive values

Gains are compared in two ways: the tests `<` and `≤` are those of numbers, while a queue ranks all
values by their bits, those that are not numbers included. On positive values both say the same.
Counted in units of the least positive value, such a value is larger the larger its bits are,
whether its mantissa has full length or not, and the infinity comes after all of them.
-/

namespace QuestionTree

/-- Whether the tests on positive values agree with the order of all values. -/
class PositiveOrder (ν : Type) [Arithmetic ν] : Prop where
  trans : Std.TransOrd ν
  lt_iff : ∀ {a b : ν}, 0 < a → 0 < b → (a < b ↔ compare a b = .lt)
  le_iff : ∀ {a b : ν}, 0 < a → 0 < b → (a ≤ b ↔ compare a b ≠ .gt)

namespace PositiveOrder

variable {ν : Type} [Arithmetic ν] [PositiveOrder ν] {a b c : ν}

instance : Std.TransOrd ν := trans

theorem isLE_compare_iff (ha : 0 < a) (hb : 0 < b) : (compare a b).isLE ↔ a ≤ b := by
  rw [Ordering.isLE_iff_ne_gt, le_iff ha hb]

theorem le_trans (ha : 0 < a) (hb : 0 < b) (hc : 0 < c) (hab : a ≤ b) (hbc : b ≤ c) : a ≤ c :=
  (isLE_compare_iff ha hc).1 (Std.TransOrd.isLE_trans ((isLE_compare_iff ha hb).2 hab)
    ((isLE_compare_iff hb hc).2 hbc))

end PositiveOrder

namespace Binary64

open Float.Model
open UnpackedFloat (unpackExponent unpackMantissa unpackSign)

/-- The sign, the mantissa and the exponent of a value. -/
def unpacked (x : Float) : UnpackedFloat := x.toModel.unpack

variable {x y : Float}

theorem lt_iff_compare : x < y ↔ (unpacked x).compare (unpacked y) = some .lt := by
  change decide (x.toModel.lt y.toModel = true) = true ↔ _
  rw [decide_eq_true_iff]
  change ((unpacked x).compare (unpacked y) == some .lt) = true ↔ _
  rw [beq_iff_eq]

theorem le_iff_compare :
    x ≤ y ↔ ((unpacked x).compare (unpacked y)).any (·.isLE) = true := by
  change decide (x.toModel.le y.toModel = true) = true ↔ _
  rw [decide_eq_true_iff]
  rfl

/-! ### The bits of positive values -/

theorem toNat_unpackMantissa (b : BitVec 64) :
    (@unpackMantissa .binary64 b).toNat = b.toNat % 2 ^ 52 := by
  simp [unpackMantissa, BitVec.extractLsb]

theorem toNat_unpackSign (b : BitVec 64) :
    (@unpackSign .binary64 b).toNat = b.toNat / 2 ^ 63 := by
  have hlt := b.isLt
  simp [unpackSign, BitVec.extractLsb, Nat.shiftRight_eq_div_pow]
  omega

theorem lt_signBit (h : UnpackedFloat.Sign.ofBitVec
    (@unpackSign .binary64 x.toBits.toBitVec) = .positive) : x.toBits.toNat < signBit := by
  have hsign : signBit = 2 ^ 63 := rfl
  have hbits := toNat_unpackSign x.toBits.toBitVec
  rw [UInt64.toNat_toBitVec] at hbits
  rw [UnpackedFloat.Sign.ofBitVec] at h
  split at h
  · rename_i hzero
    rw [hzero] at hbits
    change 0 = _ at hbits
    omega
  · cases h

theorem toBits_of_infinity (h : unpacked x = .infinity .positive) :
    x.toBits.toNat = infinityBits := by
  have hexponent := toNat_unpackExponent x.toBits.toBitVec
  have hfraction := toNat_unpackMantissa x.toBits.toBitVec
  have hinfinity : infinityBits = 2 ^ 52 * (2 ^ 11 - 1) := rfl
  have hsignBit : signBit = 2 ^ 63 := rfl
  change UnpackedFloat.unpack .binary64 x.toBits.toBitVec = _ at h
  rw [UInt64.toNat_toBitVec] at hexponent hfraction
  rw [UnpackedFloat.unpack] at h
  dsimp only at h
  split at h
  · rename_i htop
    split at h
    · rename_i hzero
      have hsign := lt_signBit (UnpackedFloat.infinity.inj h)
      rw [htop] at hexponent
      rw [hzero] at hfraction
      change 2 ^ 11 - 1 = _ at hexponent
      change 0 = _ at hfraction
      omega
    · cases h
  · split at h
    · split at h <;> cases h
    · cases h

theorem toBits_of_finite {mantissa : Nat} {exponent : Int} {hpos : 0 < mantissa}
    (h : unpacked x = .finite .positive mantissa exponent hpos) :
    ∃ shift : Nat, exponent = minExponent + shift ∧ Canonical mantissa shift ∧
      shift * leadingBit + mantissa < infinityBits ∧
      x.toBits.toNat = shift * leadingBit + mantissa := by
  have hexponent := toNat_unpackExponent x.toBits.toBitVec
  have hfraction := toNat_unpackMantissa x.toBits.toBitVec
  have hleading : leadingBit = 2 ^ 52 := rfl
  have hinfinity : infinityBits = 2 ^ 52 * (2 ^ 11 - 1) := rfl
  have hsignBit : signBit = 2 ^ 63 := rfl
  have hleast : minExponent = -1074 := rfl
  change UnpackedFloat.unpack .binary64 x.toBits.toBitVec = _ at h
  rw [UInt64.toNat_toBitVec] at hexponent hfraction
  rw [UnpackedFloat.unpack] at h
  dsimp only at h
  split at h
  · split at h <;> cases h
  · rename_i htop
    have hfield : (@unpackExponent .binary64 x.toBits.toBitVec).toNat ≠ 2 ^ 11 - 1 :=
      fun heq => htop (BitVec.eq_of_toNat_eq heq)
    -- an exponent field of zero counts the same units as the field one, without a leading bit
    split at h
    · rename_i hnone
      split at h
      · cases h
      · obtain ⟨hs, hm, he⟩ := UnpackedFloat.finite.inj h
        have hsign := lt_signBit hs
        rw [hnone] at hexponent he
        change 0 = _ at hexponent
        refine ⟨0, he.symm, ?_⟩
        rw [Canonical]
        omega
    · rename_i hsome
      obtain ⟨hs, hm, he⟩ := UnpackedFloat.finite.inj h
      have hsign := lt_signBit hs
      have hne : (@unpackExponent .binary64 x.toBits.toBitVec).toNat ≠ 0 :=
        fun heq => hsome (BitVec.eq_of_toNat_eq heq)
      have hlead : (1#1 ++ @unpackMantissa .binary64 x.toBits.toBitVec).toNat =
          2 ^ 52 + (@unpackMantissa .binary64 x.toBits.toBitVec).toNat := by
        have hlt := (@unpackMantissa .binary64 x.toBits.toBitVec).isLt
        rw [BitVec.toNat_append, ← Nat.shiftLeft_add_eq_or_of_lt hlt, Nat.shiftLeft_eq]
        rfl
      have hbias : (Format.binary64.exponentBias : Int) +
          (Format.binary64.mantissaBitsWithoutImplicit : Int) = 1075 := rfl
      rw [hlead] at hm
      rw [hbias] at he
      refine ⟨(@unpackExponent .binary64 x.toBits.toBitVec).toNat - 1, by omega, ?_⟩
      rw [hsignBit] at hsign
      rw [Canonical, hleading, hinfinity]
      omega

theorem unpacked_of_pos (h : 0 < x) : unpacked x = .infinity .positive ∨
    ∃ mantissa exponent hpos, unpacked x = .finite .positive mantissa exponent hpos := by
  have hzero : unpacked 0 = .zero .positive := rfl
  rw [lt_iff_compare, hzero] at h
  cases hx : unpacked x with
  | notANumber =>
    rw [hx] at h
    cases h
  | zero s =>
    rw [hx] at h
    cases h
  | infinity s =>
    rw [hx] at h
    cases s with
    | negative => cases h
    | positive => exact .inl rfl
  | finite s mantissa exponent hpos =>
    rw [hx] at h
    cases s with
    | negative => cases h
    | positive => exact .inr ⟨mantissa, exponent, hpos, rfl⟩

theorem not_neg_of_pos (h : 0 < x) : ¬ x < 0 := by
  have hzero : unpacked 0 = .zero .positive := rfl
  rw [lt_iff_compare, hzero]
  rcases unpacked_of_pos h with htop | ⟨_, _, _, hfinite⟩
  · rw [htop]
    exact nofun
  · rw [hfinite]
    exact nofun

/-- Values compare by their exponents and mantissas as their bits do. -/
theorem compare_canonical {m n d e : Nat} (hm : Canonical m d) (hn : Canonical n e) :
    (compare (minExponent + d) (minExponent + e)).then (compare m n) =
      compare (d * leadingBit + m) (e * leadingBit + n) := by
  have hleading : leadingBit = 2 ^ 52 := rfl
  rw [Canonical, hleading] at hm hn
  rw [hleading]
  rcases Nat.lt_trichotomy d e with h | rfl | h
  · have hexponent : compare (minExponent + (d : Int)) (minExponent + e) = .lt :=
      compare_lt_iff_lt.2 (by omega)
    have hbits : d * 2 ^ 52 + m < e * 2 ^ 52 + n := by omega
    rw [hexponent, compare_lt_iff_lt.2 hbits]
    rfl
  · have hexponent : compare (minExponent + (d : Int)) (minExponent + d) = .eq :=
      compare_eq_iff_eq.2 rfl
    rw [hexponent, Ordering.eq_then]
    rcases Nat.lt_trichotomy m n with h | rfl | h
    · rw [compare_lt_iff_lt.2 h, compare_lt_iff_lt.2 (by omega)]
    · rw [compare_eq_iff_eq.2 rfl, compare_eq_iff_eq.2 rfl]
    · rw [compare_gt_iff_gt.2 h, compare_gt_iff_gt.2 (by omega)]
  · have hexponent : compare (minExponent + (d : Int)) (minExponent + e) = .gt :=
      compare_gt_iff_gt.2 (by omega)
    have hbits : e * 2 ^ 52 + n < d * 2 ^ 52 + m := by omega
    rw [hexponent, compare_gt_iff_gt.2 hbits]
    rfl

theorem compare_of_pos (hx : 0 < x) (hy : 0 < y) :
    (unpacked x).compare (unpacked y) = some (compare x.toBits.toNat y.toBits.toNat) := by
  rcases unpacked_of_pos hx with hinfinity | ⟨m, d, hm, hfinite⟩
  · rcases unpacked_of_pos hy with hinfinity' | ⟨n, e, hn, hfinite'⟩
    · rw [hinfinity, hinfinity', toBits_of_infinity hinfinity, toBits_of_infinity hinfinity']
      rfl
    · obtain ⟨_, _, _, hlt, hbits⟩ := toBits_of_finite hfinite'
      rw [hinfinity, hfinite', toBits_of_infinity hinfinity, hbits, compare_gt_iff_gt.2 hlt]
      rfl
  · obtain ⟨_, hexponent, hcanonical, hlt, hbits⟩ := toBits_of_finite hfinite
    rcases unpacked_of_pos hy with hinfinity' | ⟨n, e, hn, hfinite'⟩
    · rw [hfinite, hinfinity', toBits_of_infinity hinfinity', hbits, compare_lt_iff_lt.2 hlt]
      rfl
    · obtain ⟨_, hexponent', hcanonical', _, hbits'⟩ := toBits_of_finite hfinite'
      rw [hfinite, hfinite', hbits, hbits', ← compare_canonical hcanonical hcanonical', hexponent,
        hexponent']
      rfl

theorem rank_of_pos (h : 0 < x) : rank x = x.toBits.toNat := by
  have hinfinity : infinityBits < signBit := by decide
  have hlt : x.toBits.toNat < signBit := by
    rcases unpacked_of_pos h with htop | ⟨_, _, _, hfinite⟩
    · rw [toBits_of_infinity htop]
      exact hinfinity
    · obtain ⟨_, _, _, hlt, hbits⟩ := toBits_of_finite hfinite
      omega
  rw [rank, if_pos hlt]

theorem isNaN_of_pos (h : 0 < x) : x.isNaN = false := by
  have hnumber : x.isNaN = (unpacked x).isNaN := rfl
  rcases unpacked_of_pos h with htop | ⟨_, _, _, hfinite⟩
  · rw [hnumber, htop]
    rfl
  · rw [hnumber, hfinite]
    rfl

end Binary64

/-- Floating-point values rank in one line. -/
instance transOrd_float : Std.TransOrd Float :=
  inferInstanceAs (Std.TransCmp (compareOn Binary64.rank))

instance : PositiveOrder Float where
  trans := inferInstance
  lt_iff ha hb := by
    change _ ↔ compare (Binary64.rank _) (Binary64.rank _) = _
    rw [Binary64.lt_iff_compare, Binary64.compare_of_pos ha hb, Option.some_inj,
      Binary64.rank_of_pos ha, Binary64.rank_of_pos hb, compare_lt_iff_lt, compare_lt_iff_lt,
      Int.ofNat_lt]
  le_iff ha hb := by
    change _ ↔ compare (Binary64.rank _) (Binary64.rank _) ≠ _
    rw [Binary64.le_iff_compare, Binary64.compare_of_pos ha hb, Option.any_some,
      Binary64.rank_of_pos ha, Binary64.rank_of_pos hb, compare_le_iff_le, Nat.isLE_compare,
      Int.ofNat_le]

end QuestionTree
