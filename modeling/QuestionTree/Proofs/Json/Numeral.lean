import QuestionTree.Json.Basic
import QuestionTree.Number.Decimal
import QuestionTree.Proofs.Number.Interval

/-!
# Numbers that are written and read back

A number is written in one of four layouts. Each of them is a whole part, a fraction and an exponent
part, and these parts are read back as a decimal of the same value; the digits and the exponent need
not be the same. Every decimal in the interval of a finite value is read as this value, so a finite
value is read back as it was written.
-/

namespace QuestionTree

theorem lt_pow_digitCount (n : Nat) : n < 10 ^ digitCount n := by
  fun_induction digitCount n with
  | case1 => decide
  | case2 n h ih =>
    rw [Nat.pow_succ]
    omega

theorem pow_digitCount_le {n : Nat} (h : n ≠ 0) : 10 ^ (digitCount n - 1) ≤ n := by
  fun_induction digitCount n with
  | case1 => exact absurd rfl h
  | case2 n hn ih =>
    rw [Nat.add_sub_cancel]
    by_cases hzero : n / 10 = 0
    · rw [hzero, digitCount, if_pos rfl]
      omega
    · have hle := ih hzero
      have hpos : digitCount (n / 10) ≠ 0 := by
        rw [digitCount, if_neg hzero]
        exact Nat.succ_ne_zero _
      have hpow : 10 ^ digitCount (n / 10) = 10 ^ (digitCount (n / 10) - 1) * 10 := by
        rw [← Nat.pow_succ]
        congr 1
        omega
      omega

namespace Decimal

variable {d : Decimal}

theorem value_lt (d : Decimal) : d.value < 10 ^ (digitCount d.digits + d.exponent) := by
  have hdigits : (d.digits : ℚ) < 10 ^ (digitCount d.digits : Int) := by
    exact_mod_cast lt_pow_digitCount d.digits
  rw [value, zpow_add₀ (by norm_num)]
  gcongr

theorem le_value (h : d.digits ≠ 0) :
    (10 : ℚ) ^ (digitCount d.digits + d.exponent - 1) ≤ d.value := by
  have hpos : digitCount d.digits ≠ 0 := by
    rw [digitCount, if_neg h]
    exact Nat.succ_ne_zero _
  have hdigits : (10 : ℚ) ^ ((digitCount d.digits - 1 : Nat) : Int) ≤ d.digits := by
    exact_mod_cast pow_digitCount_le h
  have hexponent : (digitCount d.digits : Int) + d.exponent - 1 =
      ((digitCount d.digits - 1 : Nat) : Int) + d.exponent := by
    omega
  rw [value, hexponent, zpow_add₀ (by norm_num)]
  gcongr

end Decimal

namespace Numeral

open Binary64 Shortest

variable {mantissa shift : Nat} {d : Decimal}

/-- Every decimal in the interval of a finite value is read as this value. -/
theorem nearestBits?_eq (hmantissa : 0 < mantissa) (hvalue : Canonical mantissa shift)
    (hfinite : shift * leadingBit + mantissa < infinityBits)
    (h : (intervalOf mantissa shift).Holds d.value) :
    nearestBits? d = some (shift * leadingBit + mantissa) := by
  obtain ⟨hbelow, habove⟩ := h.bounds hmantissa hvalue hfinite
  have hpositive : 0 < d.value := lt_of_lt_of_le (by positivity) hbelow
  have hdigits := Decimal.digits_ne_zero hpositive
  have hunderflow : ¬ (digitCount d.digits + d.exponent < underflowMagnitude) := by
    intro hlt
    have hpower : (10 : ℚ) ^ (digitCount d.digits + d.exponent) ≤ 10 ^ (-330 : Int) :=
      zpow_le_zpow_right₀ (by norm_num) hlt.le
    have htiny : (10 : ℚ) ^ (-330 : Int) < 2 ^ (-1075 : Int) := by
      have hpowers : 2 ^ 1075 < 10 ^ 330 := by decide +kernel
      rw [zpow_neg, zpow_neg]
      refine inv_strictAnti₀ (by positivity) ?_
      exact_mod_cast hpowers
    exact absurd (d.value_lt.trans_le (hpower.trans htiny.le)) (not_lt.2 hbelow)
  have hoverflow : ¬ (overflowMagnitude < digitCount d.digits + d.exponent) := by
    intro hlt
    have hpower : (10 : ℚ) ^ (310 : Int) ≤ 10 ^ (digitCount d.digits + d.exponent - 1) :=
      zpow_le_zpow_right₀ (by norm_num) (Int.le_sub_one_of_lt hlt)
    have hhuge : (2 : ℚ) ^ (1024 : Int) < 10 ^ (310 : Int) := by
      have hpowers : 2 ^ 1024 < 10 ^ 310 := by decide +kernel
      exact_mod_cast hpowers
    exact absurd (hhuge.trans_le (hpower.trans (Decimal.le_value hdigits))) (not_lt.2 habove)
  have hden : 0 < 10 ^ (-d.exponent).toNat := Nat.pow_pos (by decide)
  rw [Decimal.value_eq_div] at h
  have hbits := nearestBits_eq hden hvalue (rounds_of_holds hden h)
  rw [nearestBits?]
  dsimp only
  rw [if_neg (not_or.2 ⟨hdigits, hunderflow⟩), if_neg hoverflow]
  simp only [Nat.pow_eq]
  rw [hbits, if_pos hfinite]

/-! ### The parts of a number -/

theorem digitsValue_eq (ds : List Char) : digitsValue ds = Nat.ofDigitChars 10 ds 0 := by
  rw [Nat.ofDigitChars_eq_foldl, digitsValue]
  simp only [Nat.mul_comm]

theorem digitsValue_toDigits (n : Nat) : digitsValue (Nat.toDigits 10 n) = n := by
  rw [digitsValue_eq, Nat.ofDigitChars_ten_toDigits]

theorem digitsValue_zeros_append (n : Nat) (ds : List Char) :
    digitsValue (List.replicate n '0' ++ ds) = digitsValue ds := by
  rw [digitsValue_eq, Nat.ofDigitChars_append, Nat.ofDigitChars_replicate_zero, Nat.mul_zero,
    digitsValue_eq]

theorem digitsValue_append_zeros (n : Nat) (ds : List Char) :
    digitsValue (ds ++ List.replicate n '0') = digitsValue ds * 10 ^ n := by
  rw [digitsValue_eq, Nat.ofDigitChars_append, Nat.ofDigitChars_replicate_zero, digitsValue_eq,
    Nat.mul_comm]

/-- Whether a number may end before a text. -/
def Ends (rest : List Char) : Prop :=
  ∀ c ∈ rest.head?, c.isDigit = false ∧ c ≠ '.' ∧ c ≠ 'e' ∧ c ≠ 'E'

/-- The parts of a number without its sign. -/
structure Parts where
  whole : List Char
  /-- The digits behind the point, if there is one. -/
  fraction : List Char
  /-- The sign and the digits of the exponent, if there is one. -/
  exponent : List Char

namespace Parts

/-- The parts one after the other. -/
def text (p : Parts) : List Char :=
  p.whole ++ ((if p.fraction.isEmpty then [] else '.' :: p.fraction) ++
    (if p.exponent.isEmpty then [] else 'e' :: p.exponent))

/-- Whether the parts are those of a number. -/
structure Valid (p : Parts) : Prop where
  whole_ne_nil : p.whole ≠ []
  whole_digits : ∀ c ∈ p.whole, c.isDigit = true
  whole_head : p.whole = ['0'] ∨ p.whole.head? ≠ some '0'
  fraction_digits : ∀ c ∈ p.fraction, c.isDigit = true
  /-- The exponent is missing or has a sign before its digits. -/
  exponent_eq : p.exponent = [] ∨ ∃ sign ds, p.exponent = sign :: ds ∧ (sign = '+' ∨ sign = '-') ∧
    ds ≠ [] ∧ ∀ c ∈ ds, c.isDigit = true

end Parts

theorem digits_append {ds rest : List Char} (hds : ∀ c ∈ ds, c.isDigit = true)
    (hrest : ∀ c ∈ rest.head?, c.isDigit = false) : digits (ds ++ rest) = (ds, rest) := by
  rw [digits, List.takeWhile_append_of_pos hds, List.dropWhile_append_of_pos hds]
  cases rest with
  | nil => rw [List.takeWhile_nil, List.append_nil, List.dropWhile_nil]
  | cons c rest =>
    have hc : ¬ (c.isDigit = true) := by
      rw [hrest c rfl]
      exact Bool.false_ne_true
    rw [List.takeWhile_cons_of_neg hc, List.append_nil, List.dropWhile_cons_of_neg hc]

theorem someDigits?_append {ds rest : List Char} (hne : ds ≠ [])
    (hds : ∀ c ∈ ds, c.isDigit = true) (hrest : ∀ c ∈ rest.head?, c.isDigit = false) :
    someDigits? (ds ++ rest) = some (ds, rest) := by
  rw [someDigits?, digits_append hds hrest]
  cases ds with
  | nil => exact absurd rfl hne
  | cons d ds => rfl

namespace Parts

variable {p : Parts} {rest : List Char}

theorem wholePart?_append (h : p.Valid) (hrest : ∀ c ∈ rest.head?, c.isDigit = false) :
    wholePart? (p.whole ++ rest) = some (p.whole, rest) := by
  rcases h.whole_head with hzero | hhead
  · rw [hzero]
    rfl
  · have hsome := someDigits?_append h.whole_ne_nil h.whole_digits hrest
    cases hwhole : p.whole with
    | nil => exact absurd hwhole h.whole_ne_nil
    | cons c ds =>
      rw [hwhole] at hhead hsome
      have hc : c ≠ '0' := fun heq => hhead (congrArg some heq)
      rw [wholePart?]
      · exact hsome
      · intro rest' heq
        exact hc (List.cons.inj heq).1

theorem fractionPart?_append (h : p.Valid) (hrest : ∀ c ∈ rest.head?, c.isDigit = false ∧ c ≠ '.') :
    fractionPart? ((if p.fraction.isEmpty then [] else '.' :: p.fraction) ++ rest) =
      some (if p.fraction.isEmpty then [] else '.' :: p.fraction, rest) := by
  by_cases hempty : p.fraction = []
  · rw [hempty]
    change fractionPart? rest = some ([], rest)
    cases rest with
    | nil => rfl
    | cons c rest =>
      rw [fractionPart?]
      intro rest' heq
      exact (hrest c rfl).2 (List.cons.inj heq).1
  · rw [if_neg fun h => hempty (List.isEmpty_iff.1 h), List.cons_append, fractionPart?,
      someDigits?_append hempty h.fraction_digits fun c hc => (hrest c hc).1]
    rfl

theorem exponentPart?_append (h : p.Valid) (hrest : Ends rest) :
    exponentPart? ((if p.exponent.isEmpty then [] else 'e' :: p.exponent) ++ rest) =
      some (if p.exponent.isEmpty then [] else 'e' :: p.exponent, rest) := by
  have hdigit : ∀ c ∈ rest.head?, c.isDigit = false := fun c hc => (hrest c hc).1
  rcases h.exponent_eq with hnone | ⟨sign, ds, hexponent, hsign, hne, hds⟩
  · rw [hnone]
    change exponentPart? rest = some ([], rest)
    cases rest with
    | nil => rfl
    | cons c rest =>
      obtain ⟨_, _, hlower, hupper⟩ := hrest c rfl
      rw [exponentPart?]
      · intro rest' heq
        exact hlower (List.cons.inj heq).1
      · intro rest' heq
        exact hupper (List.cons.inj heq).1
  · rw [hexponent]
    change exponentPart? ('e' :: sign :: (ds ++ rest)) = some ('e' :: sign :: ds, rest)
    rcases hsign with rfl | rfl
    · rw [exponentPart?, signedDigits?, someDigits?_append hne hds hdigit]
      rfl
    · rw [exponentPart?, signedDigits?, someDigits?_append hne hds hdigit]
      rfl

theorem head_exponent (p : Parts) (hrest : Ends rest) :
    ∀ c ∈ ((if p.exponent.isEmpty then [] else 'e' :: p.exponent) ++ rest).head?,
      c.isDigit = false ∧ c ≠ '.' := by
  intro c hc
  split at hc
  · exact ⟨(hrest c hc).1, (hrest c hc).2.1⟩
  · cases hc
    exact ⟨rfl, by decide⟩

theorem head_fraction (p : Parts) {tail : List Char}
    (htail : ∀ c ∈ tail.head?, c.isDigit = false ∧ c ≠ '.') :
    ∀ c ∈ ((if p.fraction.isEmpty then [] else '.' :: p.fraction) ++ tail).head?,
      c.isDigit = false := by
  intro c hc
  split at hc
  · exact (htail c hc).1
  · cases hc
    rfl

theorem exists_head (h : p.Valid) : ∃ c cs, p.text = c :: cs ∧ c.isDigit = true := by
  cases hwhole : p.whole with
  | nil => exact absurd hwhole h.whole_ne_nil
  | cons c cs =>
    have hdigit : c.isDigit = true := h.whole_digits c (by rw [hwhole]; exact List.mem_cons_self)
    rw [text, hwhole]
    exact ⟨c, _, rfl, hdigit⟩

/-- A number is split off where it ends. -/
theorem unsigned?_text (h : p.Valid) (hrest : Ends rest) :
    unsigned? (p.text ++ rest) = some (p.text, rest) := by
  have hexponent := p.head_exponent hrest
  rw [unsigned?, text, List.append_assoc, wholePart?_append h]
  · simp only [Option.bind_eq_bind, Option.bind_some]
    rw [List.append_assoc, fractionPart?_append h hexponent]
    simp only [Option.bind_some]
    rw [exponentPart?_append h hrest]
    simp only [Option.bind_some, Option.pure_def, List.append_assoc]
  · rw [List.append_assoc]
    exact p.head_fraction hexponent

theorem fractionDigits_append (h : p.Valid)
    (hrest : ∀ c ∈ rest.head?, c.isDigit = false ∧ c ≠ '.') :
    fractionDigits ((if p.fraction.isEmpty then [] else '.' :: p.fraction) ++ rest) =
      (p.fraction, rest) := by
  by_cases hempty : p.fraction = []
  · rw [hempty]
    change fractionDigits rest = ([], rest)
    cases rest with
    | nil => rfl
    | cons c rest =>
      rw [fractionDigits]
      intro rest' heq
      exact (hrest c rfl).2 (List.cons.inj heq).1
  · rw [if_neg fun h => hempty (List.isEmpty_iff.1 h), List.cons_append, fractionDigits,
      digits_append h.fraction_digits fun c hc => (hrest c hc).1]

theorem exact_text (h : p.Valid) : exact p.text =
    ⟨digitsValue (p.whole ++ p.fraction), exponentValue p.exponent - p.fraction.length⟩ := by
  have hend : Ends [] := fun c hc => by cases hc
  have hexponent := p.head_exponent hend
  rw [List.append_nil] at hexponent
  have hdrop : ((if p.exponent.isEmpty then [] else 'e' :: p.exponent).drop 1) = p.exponent := by
    cases p.exponent with
    | nil => rfl
    | cons c cs => rfl
  rw [exact, text, digits_append h.whole_digits (p.head_fraction hexponent)]
  dsimp only
  rw [fractionDigits_append h hexponent]
  dsimp only
  rw [hdrop]

end Parts

/-! ### Numbers that are read -/

theorem lt_of_nearestBits? {d : Decimal} {bits : Nat} (h : nearestBits? d = some bits) :
    bits < infinityBits := by
  have hzero : 0 < infinityBits := by decide
  simp only [nearestBits?] at h
  split at h
  · obtain rfl := Option.some.inj h
    exact hzero
  · split at h
    · cases h
    · split at h
      · rename_i hlt
        obtain rfl := Option.some.inj h
        exact hlt
      · cases h

/-- Every value that is read is finite. -/
theorem isFinite_of_float? {spelling : String} {x : Float} (h : float? spelling = some x) :
    x.isFinite = true := by
  have hinfinity : infinityBits = 2 ^ 52 * (2 ^ 11 - 1) := rfl
  have hsign : signBit = 2 ^ 63 := rfl
  rw [float?] at h
  split at h
  · obtain ⟨bits, hbits, rfl⟩ := Option.map_eq_some_iff.1 h
    have hlt := lt_of_nearestBits? hbits
    rw [hinfinity] at hlt
    apply isFinite_toFloat <;> rw [hsign] <;> omega
  · obtain ⟨bits, hbits, rfl⟩ := Option.map_eq_some_iff.1 h
    have hlt := lt_of_nearestBits? hbits
    rw [hinfinity] at hlt
    apply isFinite_toFloat <;> omega

end Numeral

end QuestionTree
