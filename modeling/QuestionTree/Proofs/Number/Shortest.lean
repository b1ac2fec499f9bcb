import QuestionTree.Number.Decimal
import Mathlib.Algebra.Order.Field.Power
import Mathlib.Data.Rat.Cast.Order
import Mathlib.Tactic.FieldSimp
import Mathlib.Tactic.Linarith
import Mathlib.Tactic.Positivity
import Mathlib.Tactic.Ring

/-!
# Decimals in an interval

The search for the shortest decimal ends with a point of the interval, whichever grid it is found
on: a point is taken only after it has been compared with the ends, and the exact value stands in
where no point was found. Zeros at the end of its digits make no difference to the value of a
decimal.
-/

namespace QuestionTree

/-- The value of a decimal. -/
def Decimal.value (d : Decimal) : ℚ := d.digits * 10 ^ d.exponent

theorem zpow_eq_div (base : ℚ) (n : Int) :
    base ^ n = base ^ n.toNat / base ^ (-n).toNat := by
  rcases Int.le_total 0 n with h | h
  · have hnone : (-n).toNat = 0 := by omega
    rw [hnone, pow_zero, div_one, ← zpow_natCast, Int.toNat_of_nonneg h]
  · have hnone : n.toNat = 0 := by omega
    rw [hnone, pow_zero, ← zpow_natCast, Int.toNat_of_nonneg (by omega), zpow_neg, one_div,
      inv_inv]

namespace Decimal

theorem value_eq_div (d : Decimal) :
    d.value = ((d.digits * 10 ^ d.exponent.toNat : Nat) : ℚ) /
      ((10 ^ (-d.exponent).toNat : Nat) : ℚ) := by
  rw [value, zpow_eq_div]
  push_cast
  ring

theorem value_trim (d : Decimal) : d.trim.value = d.value := by
  fun_induction trim d with
  | case1 d h => rfl
  | case2 d h hzero ih =>
    have hdigits : (d.digits : ℚ) = (d.digits / 10 : Nat) * 10 := by
      exact_mod_cast (Nat.div_mul_cancel (Nat.dvd_of_mod_eq_zero hzero)).symm
    rw [ih, value, value, zpow_add_one₀ (by norm_num), hdigits]
    ring
  | case3 d h hdigit => rfl

theorem digits_ne_zero {d : Decimal} (h : 0 < d.value) : d.digits ≠ 0 := by
  intro hzero
  rw [value, hzero, Nat.cast_zero, zero_mul] at h
  exact lt_irrefl _ h

end Decimal

namespace Shortest

namespace Interval

variable {i : Interval} {x : ℚ}

/-- Whether a number lies in an interval. -/
structure Holds (i : Interval) (x : ℚ) : Prop where
  low : (i.low : ℚ) ≤ x * i.den
  high : x * i.den ≤ i.high
  ends : i.closed = true ∨ (i.low : ℚ) < x * i.den ∧ x * i.den < i.high

theorem holds_of_contains {d : Decimal}
    (h : i.contains (Grid.ofExponent i.den d.exponent) d.digits = true) : i.Holds d.value := by
  have hfactor : (0 : ℚ) < 10 ^ (-d.exponent).toNat := by positivity
  have hvalue : d.value * i.den * 10 ^ (-d.exponent).toNat =
      ((d.digits * (i.den * 10 ^ d.exponent.toNat) : Nat) : ℚ) := by
    rw [Decimal.value_eq_div]
    push_cast
    field_simp
  have hend : ∀ a : Nat, (a : ℚ) * 10 ^ (-d.exponent).toNat =
      ((a * 10 ^ (-d.exponent).toNat : Nat) : ℚ) := fun a => by push_cast; ring
  -- `contains` compares after scaling by a power of ten, which is divided out here
  have hlow : ∀ a : Nat, a * 10 ^ (-d.exponent).toNat ≤
      d.digits * (i.den * 10 ^ d.exponent.toNat) → (a : ℚ) ≤ d.value * i.den := by
    intro a ha
    refine le_of_mul_le_mul_right ?_ hfactor
    rw [hend, hvalue]
    exact Nat.cast_le.2 ha
  have hhigh : ∀ a : Nat, d.digits * (i.den * 10 ^ d.exponent.toNat) ≤
      a * 10 ^ (-d.exponent).toNat → d.value * i.den ≤ a := by
    intro a ha
    refine le_of_mul_le_mul_right ?_ hfactor
    rw [hend, hvalue]
    exact Nat.cast_le.2 ha
  have hinside : ∀ a : Nat, a * 10 ^ (-d.exponent).toNat ≠
      d.digits * (i.den * 10 ^ d.exponent.toNat) → (a : ℚ) ≠ d.value * i.den := by
    intro a ha heq
    refine ha (Nat.cast_injective (R := ℚ) ?_)
    rw [← hend, ← hvalue, heq]
  rw [contains] at h
  split at h
  · rename_i hclosed
    rw [Bool.and_eq_true, decide_eq_true_iff, decide_eq_true_iff] at h
    exact ⟨hlow _ h.1, hhigh _ h.2, .inl hclosed⟩
  · rw [Bool.and_eq_true, decide_eq_true_iff, decide_eq_true_iff] at h
    have hbelow := hlow _ h.1.le
    have habove := hhigh _ h.2.le
    exact ⟨hbelow, habove, .inr ⟨lt_of_le_of_ne hbelow (hinside _ h.1.ne),
      lt_of_le_of_ne habove (hinside _ h.2.ne').symm⟩⟩

theorem contains_of_nearest? {tie : Tie} {g : Grid} {c : Nat} (h : i.nearest? tie g = some c) :
    i.contains g c = true := by
  unfold nearest? at h
  dsimp only at h
  split at h
  · cases h
  · rename_i hbelow _
    cases h
    exact hbelow
  · rename_i _ habove
    cases h
    exact habove
  · rename_i hbelow habove
    split at h
    · cases h
      exact hbelow
    · split at h
      · cases h
        exact habove
      · split at h
        · cases h
          exact habove
        · split at h
          · cases h
            exact hbelow
          · cases h
            exact habove

/-- Whether the ends lie around the value, and the denominator is a power of two. -/
structure Proper (i : Interval) : Prop where
  low_lt : i.low < i.mid
  lt_high : i.mid < i.high
  den_eq : i.den = 2 ^ i.den.log2

theorem Proper.holds_exact (h : i.Proper) : i.Holds i.exact.value := by
  have hvalue : i.exact.value * i.den = i.mid := by
    have hpower : (10 : ℚ) ^ i.den.log2 = 5 ^ i.den.log2 * i.den := by
      rw [h.den_eq, Nat.log2_two_pow, Nat.cast_pow, ← mul_pow]
      norm_num
    have hexact : i.exact.value =
        ((i.mid * 5 ^ i.den.log2 : Nat) : ℚ) * 10 ^ (-(i.den.log2 : Int)) := rfl
    have hden : (i.den : ℚ) ≠ 0 := by
      rw [h.den_eq, Nat.cast_pow]
      positivity
    rw [hexact, zpow_neg, zpow_natCast, hpower]
    push_cast
    field_simp
  have hlow : (i.low : ℚ) < i.mid := Nat.cast_lt.2 h.low_lt
  have hhigh : (i.mid : ℚ) < i.high := Nat.cast_lt.2 h.lt_high
  rw [← hvalue] at hlow hhigh
  exact ⟨hlow.le, hhigh.le, .inr ⟨hlow, hhigh⟩⟩

/-- The shortest decimal lies in the interval. -/
theorem Proper.holds_shortest (h : i.Proper) (tie : Tie) : i.Holds (i.shortest tie).value := by
  rw [shortest, Decimal.value_trim]
  cases hfound : (List.range maxDigits).findSome? fun (n : Nat) =>
      (i.nearest? tie (Grid.ofExponent i.den (i.magnitude - (n + 1 : Nat)))).map
        (Decimal.mk · (i.magnitude - (n + 1 : Nat))) with
  | none => exact h.holds_exact
  | some d =>
    obtain ⟨n, _, hn⟩ := List.exists_of_findSome?_eq_some hfound
    obtain ⟨c, hc, rfl⟩ := Option.map_eq_some_iff.1 hn
    exact holds_of_contains (contains_of_nearest? hc)

end Interval

end Shortest

end QuestionTree
