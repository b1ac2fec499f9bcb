import QuestionTree.Proofs.Number.Unpacked

/-!
# What is read of packed results

A result has bits if it is less than `overflowUnits`; from there on it becomes an infinity.
-/

namespace QuestionTree

namespace Binary64

open Float.Model
open UnpackedFloat (Sign packComponents unpackExponent unpackMantissa unpackSign)

/-- The greatest power of two that a mantissa counts, in units of the least positive value. -/
def maxShift : Nat := 2045

/-- The first number of units that there are no bits for. -/
def overflowUnits : Nat := 2 ^ (53 + maxShift)

theorem mul_two_pow_lt {mantissa shift top : Nat} (h : mantissa < 2 ^ 53) (hshift : shift ≤ top) :
    mantissa * 2 ^ shift < 2 ^ (53 + top) := by
  rw [pow_add]
  exact Nat.mul_lt_mul_of_lt_of_le h (Nat.pow_le_pow_right (by decide) hshift)
    (Nat.two_pow_pos top)

/-! ### Fields -/

/-- The number of units of a value with an exponent field and a fraction field. -/
def fieldUnits (field fraction : Nat) : Nat :=
  if field = 0 then fraction else (leadingBit + fraction) * 2 ^ (field - 1)

theorem fieldUnits_lt {field fraction : Nat} (hfield : field < 2 ^ 11 - 1)
    (hfraction : fraction < 2 ^ 52) : fieldUnits field fraction < overflowUnits := by
  have hleading : leadingBit = 2 ^ 52 := rfl
  have hmax : maxShift = 2045 := rfl
  rw [fieldUnits, hleading, overflowUnits]
  split
  · have hlt : fraction * 2 ^ 0 < 2 ^ (53 + maxShift) :=
      mul_two_pow_lt (by omega) (Nat.zero_le maxShift)
    rwa [pow_zero, Nat.mul_one] at hlt
  · exact mul_two_pow_lt (by omega) (by omega)

theorem reads_unpack {b : BitVec 64} (h : @unpackExponent .binary64 b ≠ -1#_) :
    Reads (.unpack .binary64 b) (.ofBitVec (@unpackSign .binary64 b))
      (fieldUnits (@unpackExponent .binary64 b).toNat (@unpackMantissa .binary64 b).toNat) := by
  have hleading : leadingBit = 2 ^ 52 := rfl
  have hmin : minExponent = -1074 := rfl
  have hbias : ((Format.exponentBias .binary64 : Nat) : Int) +
      (Format.mantissaBitsWithoutImplicit .binary64 : Nat) = 1075 := rfl
  have hfraction : (@unpackMantissa .binary64 b).toNat < 2 ^ 52 := BitVec.isLt _
  rw [UnpackedFloat.unpack, fieldUnits]
  dsimp only
  rw [if_neg h, hbias]
  split
  · rename_i hzero
    have hfield : (@unpackExponent .binary64 b).toNat = 0 := by rw [hzero]; rfl
    rw [if_pos hfield]
    split
    · rename_i hnone
      exact .inl ⟨by rw [hnone]; rfl, rfl⟩
    · rename_i hsome
      refine .inr ⟨(@unpackMantissa .binary64 b).toNat, 0, ?_, ⟨?_, .inr rfl⟩, Nat.mul_one _, ?_⟩
      · exact Nat.pos_of_ne_zero fun heq => hsome (BitVec.eq_of_toNat_eq heq)
      · rw [hleading]
        omega
      · rw [hfield]
        rfl
  · rename_i hsome
    have hfield : (@unpackExponent .binary64 b).toNat ≠ 0 :=
      fun heq => hsome (BitVec.eq_of_toNat_eq heq)
    have hlead : (1#1 ++ @unpackMantissa .binary64 b).toNat =
        2 ^ 52 + (@unpackMantissa .binary64 b).toNat := by
      rw [BitVec.toNat_append, ← Nat.shiftLeft_add_eq_or_of_lt hfraction, Nat.shiftLeft_eq]
      rfl
    rw [if_neg hfield]
    refine .inr ⟨(1#1 ++ @unpackMantissa .binary64 b).toNat,
      (@unpackExponent .binary64 b).toNat - 1, ?_, ⟨?_, .inl ?_⟩, ?_, ?_⟩
    · omega
    · rw [hlead, hleading]
      omega
    · rw [hlead, hleading]
      omega
    · rw [hlead, hleading]
    · congr 1
      omega

/-! ### Packing -/

/-- What is read of a result once it is packed. -/
def settled (u : UnpackedFloat) : UnpackedFloat :=
  .unpack .binary64 (UnpackedFloat.pack .binary64 u)

theorem settled_notANumber : settled .notANumber = .notANumber := rfl

theorem settled_infinity (s : Sign) : settled (.infinity s) = .infinity s := by
  cases s <;> rfl

theorem settled_zero (s : Sign) : settled (.zero s) = .zero s := by
  cases s <;> rfl

theorem unpackSign_packComponents (s : Sign) (exponent : BitVec 11) (fraction : BitVec 52) :
    @unpackSign .binary64 (packComponents .binary64 s exponent fraction) = s.toBitVec := by
  apply BitVec.eq_of_getLsbD_eq
  intro i hi
  obtain rfl : i = 0 := by omega
  simp only [unpackSign, packComponents, BitVec.getLsbD_cast, BitVec.getLsbD_extractLsb]
  change (s.toBitVec ++ exponent ++ fraction).getLsbD 63 = _
  rw [BitVec.getLsbD_append, if_neg (by decide), BitVec.getLsbD_append, if_neg (by decide)]

theorem reads_packComponents (s : Sign) {exponent : BitVec 11} (h : exponent ≠ -1#_)
    (fraction : BitVec 52) :
    Reads (.unpack .binary64 (packComponents .binary64 s exponent fraction)) s
      (fieldUnits exponent.toNat fraction.toNat) := by
  have hsign : Sign.ofBitVec s.toBitVec = s := by cases s <;> rfl
  have hexponent : @unpackExponent .binary64 (packComponents .binary64 s exponent fraction) =
      exponent := UnpackedFloat.unpackExponent_packComponents
  have hfraction : @unpackMantissa .binary64 (packComponents .binary64 s exponent fraction) =
      fraction := UnpackedFloat.unpackMantissa_packComponents
  have hread := reads_unpack (b := packComponents .binary64 s exponent fraction)
    (by rw [hexponent]; exact h)
  rw [hexponent, hfraction, unpackSign_packComponents, hsign] at hread
  exact hread

variable {u : UnpackedFloat} {s : Sign} {n : Nat}

theorem shift_le_iff {mantissa shift : Nat} (h : Canonical mantissa shift) :
    shift ≤ maxShift ↔ mantissa * 2 ^ shift < overflowUnits := by
  have hleading : leadingBit = 2 ^ 52 := rfl
  obtain ⟨hlt, hfull⟩ := h
  rw [hleading] at hlt hfull
  constructor
  · intro hshift
    exact mul_two_pow_lt (by omega) hshift
  · intro hunits
    by_contra hshift
    have hlarge : 2 ^ (52 + shift) ≤ mantissa * 2 ^ shift := by
      rw [pow_add]
      exact Nat.mul_le_mul_right _ (by omega)
    have hpower : 2 ^ (52 + shift) < 2 ^ (53 + maxShift) := hlarge.trans_lt hunits
    have hexponents := (Nat.pow_lt_pow_iff_right (by decide)).1 hpower
    omega

theorem biased_eq (shift : Nat) :
    (minExponent + (shift : Nat) + (Format.exponentBias .binary64 : Nat) +
      (Format.mantissaBitsWithoutImplicit .binary64 : Nat)).toNat = shift + 1 := by
  have hmin : minExponent = -1074 := rfl
  have hbias : Format.exponentBias .binary64 = 1023 := rfl
  have hbits : Format.mantissaBitsWithoutImplicit .binary64 = 52 := rfl
  omega

theorem reads_normal (s : Sign) {mantissa shift : Nat} (hlow : 2 ^ 52 ≤ mantissa)
    (hhigh : mantissa < 2 ^ 53) (hshift : shift ≤ maxShift) :
    Reads (.unpack .binary64 (packComponents .binary64 s (BitVec.ofNat 11 (shift + 1))
      (BitVec.ofNat 52 mantissa))) s (mantissa * 2 ^ shift) := by
  have hleading : leadingBit = 2 ^ 52 := rfl
  have hmax : maxShift = 2045 := rfl
  have hfield : (BitVec.ofNat 11 (shift + 1)).toNat = shift + 1 := Nat.mod_eq_of_lt (by omega)
  have hfraction : (BitVec.ofNat 52 mantissa).toNat = mantissa - 2 ^ 52 := by
    rw [BitVec.toNat_ofNat]
    omega
  have hnotFull : BitVec.ofNat 11 (shift + 1) ≠ -1#_ := by
    intro heq
    rw [heq] at hfield
    change 2 ^ 11 - 1 = _ at hfield
    omega
  have hread := reads_packComponents s hnotFull (BitVec.ofNat 52 mantissa)
  rwa [hfield, hfraction, fieldUnits, if_neg (Nat.succ_ne_zero shift), hleading,
    Nat.add_sub_cancel' hlow, Nat.add_sub_cancel] at hread

theorem reads_subnormal (s : Sign) {mantissa : Nat} (h : mantissa < 2 ^ 52) :
    Reads (.unpack .binary64 (packComponents .binary64 s 0#11 (BitVec.ofNat 52 mantissa))) s
      mantissa := by
  have hfraction : (BitVec.ofNat 52 mantissa).toNat = mantissa := Nat.mod_eq_of_lt h
  have hnotFull : (0#11) ≠ -1#_ := by decide
  have hread := reads_packComponents s hnotFull (BitVec.ofNat 52 mantissa)
  rwa [hfraction] at hread

theorem Reads.settled (h : Reads u s n) (hn : n < overflowUnits) :
    Reads (Binary64.settled u) s n := by
  rcases h with ⟨rfl, rfl⟩ | ⟨mantissa, shift, hpos, hcanonical, rfl, rfl⟩
  · rw [settled_zero]
    exact .inl ⟨rfl, rfl⟩
  have hshift := (shift_le_iff hcanonical).2 hn
  obtain ⟨hlt, hfull⟩ := hcanonical
  have hleading : leadingBit = 2 ^ 52 := rfl
  have hmax : maxShift = 2045 := rfl
  have hbits : Format.mantissaBits .binary64 = 53 := rfl
  rw [hleading] at hlt hfull
  have hlog : mantissa.log2 < 53 := (Nat.log2_lt hpos.ne').2 (by omega)
  rw [Binary64.settled, UnpackedFloat.pack]
  dsimp only
  rw [biased_eq, if_neg (by omega), hbits]
  by_cases hnormal : 2 ^ 52 ≤ mantissa
  · have hlog' := (Nat.le_log2 hpos.ne').2 hnormal
    rw [if_pos (by omega)]
    exact reads_normal s hnormal (by omega) hshift
  · have hlog' : ¬ mantissa.log2 + 1 = 53 := by
      have hless := (Nat.log2_lt hpos.ne').2 (Nat.not_le.1 hnormal)
      omega
    obtain rfl : shift = 0 := hfull.resolve_left hnormal
    rw [if_neg hlog', pow_zero, Nat.mul_one]
    exact reads_subnormal s (Nat.not_le.1 hnormal)

/-- What is too large is packed as an infinity. -/
theorem Reads.settled_of_le (h : Reads u s n) (hn : overflowUnits ≤ n) :
    Binary64.settled u = .infinity s := by
  rcases h with ⟨rfl, rfl⟩ | ⟨mantissa, shift, hpos, hcanonical, rfl, rfl⟩
  · exact absurd hn (Nat.not_le.2 (Nat.two_pow_pos _))
  · have hshift := mt (shift_le_iff hcanonical).1 (Nat.not_lt.2 hn)
    have hmax : maxShift = 2045 := rfl
    rw [Binary64.settled, UnpackedFloat.pack]
    dsimp only
    rw [biased_eq, if_pos (by omega)]
    exact settled_infinity s

end Binary64

end QuestionTree
