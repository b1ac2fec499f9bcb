import QuestionTree.Proofs.Number.Quotients

/-!
# Sums of values that are not negative

Values that are not negative, the infinity among them, are added as amounts are: a sum is at least
each of its parts, it grows with them, and it is nothing only if they are. What is added up from
left to right is a number unless one of the summands is none.
-/

namespace QuestionTree

namespace Binary64

open Float.Model
open UnpackedFloat (Sign)

variable {x y z : Float} {a : Int}

theorem infinity_or_of_nonneg (h : 0 ≤ x) :
    unpacked x = .infinity .positive ∨ x.isFinite = true ∧ 0 ≤ units x := by
  rcases unpacked_cases x with hx | ⟨s, hx⟩ | ⟨s, n, hread, -⟩
  · rw [le_iff_compare, hx] at h
    cases h
  · cases s with
    | positive => exact .inl hx
    | negative =>
      rw [le_iff_compare, hx] at h
      cases h
  · exact .inr ⟨hread.isFinite, (zero_le_iff_units hread.isFinite).1 h⟩

theorem le_infinity (hx : 0 ≤ x) (hy : unpacked y = .infinity .positive) : x ≤ y := by
  rw [le_iff_compare, hy]
  rcases infinity_or_of_nonneg hx with hx | ⟨hx, -⟩
  · rw [hx]
    rfl
  · obtain ⟨s, n, hread, -⟩ := exists_reads hx
    rcases hread with ⟨-, hx⟩ | ⟨_, _, _, -, -, hx⟩
    · rw [hx]
      rfl
    · rw [hx]
      rfl

theorem not_infinity_le (hx : unpacked x = .infinity .positive) (hy : y.isFinite = true) :
    ¬ x ≤ y := by
  rw [le_iff_compare, hx]
  obtain ⟨s, n, hread, -⟩ := exists_reads hy
  rcases hread with ⟨-, hy⟩ | ⟨_, _, _, -, -, hy⟩
  · rw [hy]
    exact nofun
  · rw [hy]
    exact nofun

theorem isFinite_of_le (hx : 0 ≤ x) (h : x ≤ y) (hy : y.isFinite = true) : x.isFinite = true := by
  rcases infinity_or_of_nonneg hx with hx | ⟨hx, -⟩
  · exact absurd h (not_infinity_le hx hy)
  · exact hx

theorem zero_lt_iff (h : 0 ≤ x) : 0 < x ↔ ¬ x ≤ 0 := by
  rw [le_iff_compare] at h
  rw [lt_iff_compare, le_iff_compare]
  have hzero : unpacked 0 = .zero .positive := rfl
  rw [hzero] at h ⊢
  cases hx : unpacked x with
  | notANumber =>
    rw [hx] at h
    cases h
  | zero s => exact iff_of_false nofun fun hnot => hnot rfl
  | infinity s =>
    cases s with
    | positive => exact iff_of_true rfl nofun
    | negative =>
      rw [hx] at h
      cases h
  | finite s mantissa exponent _ =>
    cases s with
    | positive => exact iff_of_true rfl nofun
    | negative =>
      rw [hx] at h
      cases h

theorem le_trans_of_nonneg (hx : 0 ≤ x) (hy : 0 ≤ y) (hz : 0 ≤ z) (hxy : x ≤ y) (hyz : y ≤ z) :
    x ≤ z := by
  rcases infinity_or_of_nonneg hz with htop | ⟨hz, -⟩
  · exact le_infinity hx htop
  · have hy' := isFinite_of_le hy hyz hz
    have hx' := isFinite_of_le hx hxy hy'
    rw [le_iff_units hx' hz]
    exact ((le_iff_units hx' hy').1 hxy).trans ((le_iff_units hy' hz).1 hyz)

theorem zero_le_zero : (0 : Float) ≤ 0 := zero_le_of_zero rfl

theorem zero_le_neg_zero : (0 : Float) ≤ -0 := zero_le_of_zero rfl

theorem not_zero_le_of_notANumber (h : unpacked x = .notANumber) : ¬ 0 ≤ x := by
  rw [le_iff_compare, h]
  exact nofun

/-! ### Two summands -/

/-- A sum is the infinity, or it is the nearest value to the sum of finite values. -/
theorem infinity_or_add (hx : 0 ≤ x) (hy : 0 ≤ y) : unpacked (x + y) = .infinity .positive ∨
    (x.isFinite = true ∧ 0 ≤ units x) ∧ (y.isFinite = true ∧ 0 ≤ units y) ∧
      (x + y).isFinite = true ∧ units (x + y) = rounded (units x + units y) := by
  rcases infinity_or_of_nonneg hx with hx | hx
  · rcases infinity_or_of_nonneg hy with hy | hy
    · exact .inl (infinity_add_infinity hx hy)
    · exact .inl (infinity_add hx hy.1)
  · rcases infinity_or_of_nonneg hy with hy | hy
    · exact .inl (add_infinity hx.1 hy)
    · rcases (nears_add hx.1 hy.1).isFinite_or (by omega) with hsum | hsum
      · exact .inr ⟨hx, hy, hsum⟩
      · exact .inl hsum

theorem zero_le_add (hx : 0 ≤ x) (hy : 0 ≤ y) : 0 ≤ x + y := by
  rcases infinity_or_add hx hy with hsum | ⟨⟨-, hx⟩, ⟨-, hy⟩, hfinite, hunits⟩
  · exact zero_le_of_infinity hsum
  · rw [zero_le_iff_units hfinite, hunits]
    exact rounded_nonneg (by omega)

theorem le_add (hx : 0 ≤ x) (hy : 0 ≤ y) : x ≤ x + y := by
  rcases infinity_or_add hx hy with hsum | ⟨⟨hx, hx'⟩, ⟨-, hy⟩, hfinite, hunits⟩
  · exact le_infinity hx hsum
  · have hmono := rounded_mono hx' (show units x ≤ units x + units y by omega)
    rw [rounded_of_representable (representable_units hx).1] at hmono
    rwa [le_iff_units hx hfinite, hunits]

theorem add_le_add_of_le (hx : 0 ≤ x) (hy : 0 ≤ y) (hz : 0 ≤ z) (h : x ≤ y) :
    x + z ≤ y + z := by
  rcases infinity_or_add hy hz with htop | ⟨⟨hy, -⟩, ⟨hz', hunits⟩, hfinite, hsum⟩
  · exact le_infinity (zero_le_add hx hz) htop
  · have hx' := isFinite_of_le hx h hy
    rw [zero_le_iff_units hx'] at hx
    rw [le_iff_units hx' hy] at h
    have hnonneg := rounded_nonneg (show 0 ≤ units x + units z by omega)
    have hmono := rounded_mono (show 0 ≤ units x + units z by omega)
      (show units x + units z ≤ units y + units z by omega)
    have hlt := (representable_units hfinite).2
    rw [hsum] at hlt
    obtain ⟨hfinite', hsum'⟩ := (nears_add hx' hz').finite (by omega)
    rwa [le_iff_units hfinite' hfinite, hsum, hsum']

theorem le_zero_iff_units (h : x.isFinite = true) : x ≤ 0 ↔ units x ≤ 0 :=
  le_iff_units h rfl

/-- A sum is nothing only if both summands are. -/
theorem add_le_zero_iff (hx : 0 ≤ x) (hy : 0 ≤ y) : x + y ≤ 0 ↔ x ≤ 0 ∧ y ≤ 0 := by
  have hzero : (0 : Float).isFinite = true := rfl
  constructor
  · intro hsum
    rcases infinity_or_add hx hy with htop | ⟨⟨hx, hx'⟩, ⟨hy, hy'⟩, hfinite, hunits⟩
    · exact absurd hsum (not_infinity_le htop hzero)
    · have hclose := close_rounded (units x + units y)
      rw [Close, ← hunits] at hclose
      rw [le_zero_iff_units hfinite] at hsum
      rw [le_zero_iff_units hx, le_zero_iff_units hy]
      omega
  · rintro ⟨hx', hy'⟩
    have hfinite := isFinite_of_le hx hx' hzero
    have hfinite' := isFinite_of_le hy hy' hzero
    rw [zero_le_iff_units hfinite] at hx
    rw [zero_le_iff_units hfinite'] at hy
    rw [le_zero_iff_units hfinite] at hx'
    rw [le_zero_iff_units hfinite'] at hy'
    have hnone : units x + units y = 0 := by omega
    have hnears := nears_add hfinite hfinite'
    rw [hnone] at hnears
    obtain ⟨hsum, hunits⟩ := hnears.finite (Nat.two_pow_pos _)
    rw [le_zero_iff_units hsum, hunits]
    exact Int.le_refl 0

/-! ### Any number of summands -/

theorem foldl_add_notANumber (h : unpacked x = .notANumber) (terms : List Float) :
    unpacked (terms.foldl (· + ·) x) = .notANumber := by
  induction terms generalizing x with
  | nil => exact h
  | cons t terms ih => exact ih (notANumber_add h t)

/-- Adding up gives a number unless a term is none. -/
theorem foldl_add_cases {terms : List Float} (h : ∀ t ∈ terms, unpacked t = .notANumber ∨ 0 ≤ t)
    (hx : 0 ≤ x) : (unpacked (terms.foldl (· + ·) x) = .notANumber ∧
        ∃ t ∈ terms, unpacked t = .notANumber) ∨
      (0 ≤ terms.foldl (· + ·) x ∧ ∀ t ∈ terms, 0 ≤ t) := by
  induction terms generalizing x with
  | nil => exact .inr ⟨hx, nofun⟩
  | cons t terms ih =>
    obtain ⟨ht, hterms⟩ := List.forall_mem_cons.1 h
    rcases ht with ht | ht
    · exact .inl ⟨foldl_add_notANumber (add_notANumber x ht) terms, t, List.mem_cons_self, ht⟩
    · rcases ih hterms (zero_le_add hx ht) with ⟨hsum, u, hu, hnone⟩ | ⟨hsum, hall⟩
      · exact .inl ⟨hsum, u, List.mem_cons_of_mem t hu, hnone⟩
      · exact .inr ⟨hsum, List.forall_mem_cons.2 ⟨ht, hall⟩⟩

end Binary64

end QuestionTree
