import QuestionTree.Example
import QuestionTree.Proofs.Number.Order

/-!
# Masses of examples

A list of examples lets in the masses from zero to the greatest finite value. These are the finite
values that are not negative, the zeros of both signs among them: by its bits, what is greater than
the greatest finite value is the infinity or not a number, and only the latter is neither less than
zero nor greater than it while it is not let in.
-/

namespace QuestionTree

namespace ExampleList

open Binary64 Float.Model

variable {x : Float}

theorem maxMass_pos : (0 : Float) < maxMass := by decide +kernel

theorem toBits_maxMass : maxMass.toBits.toNat + 1 = infinityBits := by decide +kernel

theorem maxMass_lt_iff (h : 0 < x) : maxMass < x ↔ infinityBits ≤ x.toBits.toNat := by
  rw [lt_iff_compare, compare_of_pos maxMass_pos h, Option.some_inj, compare_lt_iff_lt,
    ← toBits_maxMass, Nat.add_one_le_iff]

theorem isFinite_iff_of_pos (h : 0 < x) : x.isFinite = true ↔ x.toBits.toNat < infinityBits := by
  have hfinite : x.isFinite = (unpacked x).isFinite := rfl
  rcases unpacked_of_pos h with htop | ⟨_, _, _, hvalue⟩
  · rw [hfinite, htop, toBits_of_infinity htop]
    exact iff_of_false Bool.false_ne_true (Nat.lt_irrefl _)
  · obtain ⟨_, _, _, hlt, hbits⟩ := toBits_of_finite hvalue
    rw [hfinite, hvalue, hbits]
    exact iff_of_true rfl hlt

theorem not_maxMass_lt_zero {s : UnpackedFloat.Sign} (h : unpacked x = .zero s) :
    ¬ maxMass < x := by
  rw [lt_iff_compare, h]
  rcases unpacked_of_pos maxMass_pos with htop | ⟨_, _, _, hfinite⟩
  · rw [htop]
    exact nofun
  · rw [hfinite]
    exact nofun

/-- Whether a value is let in as a mass. -/
def Counts (x : Float) : Prop := x.isFinite = true ∧ 0 ≤ x

instance (x : Float) : Decidable (Counts x) := inferInstanceAs (Decidable (_ ∧ _))

theorem counts_iff : Counts x ↔ x.isNaN = false ∧ ¬ x < 0 ∧ ¬ maxMass < x := by
  have hzero : unpacked 0 = .zero .positive := rfl
  have hnumber : x.isNaN = (unpacked x).isNaN := rfl
  have hfinite : x.isFinite = (unpacked x).isFinite := rfl
  by_cases hpos : 0 < x
  · have hle : 0 ≤ x := by
      rw [le_iff_compare, lt_iff_compare.1 hpos]
      rfl
    rw [Counts, isFinite_iff_of_pos hpos, maxMass_lt_iff hpos, Nat.not_le]
    exact ⟨fun h => ⟨isNaN_of_pos hpos, not_neg_of_pos hpos, h.1⟩, fun h => ⟨h.2.2, hle⟩⟩
  · rw [lt_iff_compare, hzero] at hpos
    rw [Counts, hnumber, hfinite, le_iff_compare, lt_iff_compare, hzero]
    cases hx : unpacked x with
    | notANumber => exact iff_of_false nofun nofun
    | zero s => exact iff_of_true ⟨rfl, rfl⟩ ⟨rfl, nofun, not_maxMass_lt_zero hx⟩
    | infinity s =>
      rw [hx] at hpos
      cases s with
      | positive => exact absurd rfl hpos
      | negative => exact iff_of_false nofun fun h => h.2.1 rfl
    | finite s mantissa exponent _ =>
      rw [hx] at hpos
      cases s with
      | positive => exact absurd rfl hpos
      | negative => exact iff_of_false nofun fun h => h.2.1 rfl

theorem not_outside_iff :
    ¬ (x.isNaN || decide (x < 0.0) || decide (maxMass < x)) = true ↔ Counts x := by
  rw [counts_iff, Bool.or_eq_true, Bool.or_eq_true, decide_eq_true_eq, decide_eq_true_eq, not_or,
    not_or, Bool.not_eq_true, and_assoc]
  exact Iff.rfl

/-- What is reported of a mass that is not let in. -/
def massRefusal (x : Float) : Error :=
  .invalidParameter "n_obs"
    ("real value within rang " ++ NumberStyle.plain.render 0.0 ++ " and " ++
      NumberStyle.plain.render maxMass)
    (NumberStyle.plain.render x)

theorem checkRange_mass (h : Counts x) : Parameter.checkRange x 0.0 maxMass "n_obs" = .ok () := by
  rw [Parameter.checkRange, if_neg (not_outside_iff.2 h)]

theorem checkRange_mass_of_not (h : ¬ Counts x) :
    Parameter.checkRange x 0.0 maxMass "n_obs" = .error (massRefusal x) := by
  rw [Parameter.checkRange, if_pos (not_not.1 fun hin => h (not_outside_iff.1 hin)), massRefusal]

end ExampleList

end QuestionTree
