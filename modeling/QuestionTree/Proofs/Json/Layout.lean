import QuestionTree.Json.Text
import QuestionTree.Proofs.Json.Numeral

/-!
# How finite values are laid out

A positive decimal is written with a point where its exponent puts it, or with an exponent part.
Either way the text consists of the parts of a number, and these parts have the value of the
decimal. Since this decimal lies in the interval of the value that is written, what is read is the
value again, with its sign.
-/

namespace QuestionTree

open Numeral

theorem head?_toDigits {n : Nat} (h : n ≠ 0) : (Nat.toDigits 10 n).head? ≠ some '0' := by
  induction n using Nat.strongRecOn with
  | ind n ih =>
    by_cases hlt : n < 10
    · have hdigits : ∀ m < 10, m ≠ 0 → Nat.digitChar m ≠ '0' := by decide
      rw [Nat.toDigits_of_lt_base hlt]
      exact fun heq => hdigits n hlt h (Option.some.inj heq)
    · rw [Nat.toDigits_of_base_le (by decide) (by omega),
        List.head?_append_of_ne_nil _ Nat.toDigits_ne_nil]
      exact ih (n / 10) (by omega) (by omega)

theorem isDigit_of_mem_toDigits {n : Nat} {c : Char} (h : c ∈ Nat.toDigits 10 n) :
    c.isDigit = true :=
  Nat.isDigit_of_mem_toDigits (by decide) (le_refl 10) h

theorem isDigit_of_mem_zeros {n : Nat} {c : Char} (h : c ∈ List.replicate n '0') :
    c.isDigit = true := by
  rw [List.eq_of_mem_replicate h]
  rfl

namespace Decimal

variable {d : Decimal}

/-- The parts that a positive decimal is written with. -/
def parts (d : Decimal) : Parts :=
  let digits := Nat.toDigits 10 d.digits
  let exponent := d.exponent + digits.length - 1
  if NumberStyle.json.positional exponent then
    if 0 ≤ d.exponent then ⟨digits ++ List.replicate d.exponent.toNat '0', ['0'], []⟩
    else
      let places := (-d.exponent).toNat
      if places < digits.length then
        ⟨digits.take (digits.length - places), digits.drop (digits.length - places), []⟩
      else ⟨['0'], List.replicate (places - digits.length) '0' ++ digits, []⟩
  else
    ⟨digits.take 1, digits.drop 1,
      (if exponent < 0 then '-' else '+') :: Nat.toDigits 10 exponent.natAbs⟩

theorem toList_decimal (d : Decimal) : (NumberStyle.json.decimal d).toList = d.parts.text := by
  have hpoint : NumberStyle.json.keepsPoint = true := rfl
  rw [NumberStyle.decimal, parts]
  dsimp only
  split
  · rw [NumberStyle.positionalText, hpoint]
    split
    · simp only [NumberStyle.zeros, String.toList_append, String.toList_ofList, Parts.text]
      rfl
    · dsimp only
      split
      · rename_i hplaces
        have hne : (Nat.toDigits 10 d.digits).drop
            ((Nat.toDigits 10 d.digits).length - (-d.exponent).toNat) ≠ [] := by
          rw [ne_eq, List.drop_eq_nil_iff]
          omega
        simp only [String.toList_append, String.toList_ofList, Parts.text]
        rw [if_neg fun h => hne (List.isEmpty_iff.1 h)]
        simp
      · have hne : List.replicate ((-d.exponent).toNat - (Nat.toDigits 10 d.digits).length) '0' ++
            Nat.toDigits 10 d.digits ≠ [] :=
          List.append_ne_nil_of_right_ne_nil _ Nat.toDigits_ne_nil
        simp only [NumberStyle.zeros, String.toList_append, String.toList_ofList, Parts.text]
        rw [if_neg fun h => hne (List.isEmpty_iff.1 h)]
        simp
  · rw [NumberStyle.exponentText]
    simp only [String.toList_append, String.toList_ofList, Parts.text, Nat.toList_repr]
    split <;> split <;> simp

theorem valid_parts (h : d.digits ≠ 0) : d.parts.Valid := by
  have hne : Nat.toDigits 10 d.digits ≠ [] := Nat.toDigits_ne_nil
  have hhead := head?_toDigits h
  have hall : ∀ c ∈ Nat.toDigits 10 d.digits, c.isDigit = true := fun c => isDigit_of_mem_toDigits
  have hlength := List.length_pos_iff.2 hne
  have htake : ∀ k, 0 < k → (Nat.toDigits 10 d.digits).take k ≠ [] ∧
      ((Nat.toDigits 10 d.digits).take k).head? ≠ some '0' := by
    intro k hk
    rw [List.head?_take, if_neg (by omega)]
    refine ⟨fun hnil => ?_, hhead⟩
    rcases List.take_eq_nil_iff.1 hnil with hzero | hnil
    · omega
    · exact hne hnil
  have hzero : ∀ c ∈ ['0'], c.isDigit = true := List.forall_mem_singleton.2 rfl
  rw [parts]
  dsimp only
  split
  · split
    · refine ⟨List.append_ne_nil_of_left_ne_nil hne _, ?_, .inr ?_, hzero, .inl rfl⟩
      · exact List.forall_mem_append.2 ⟨hall, fun c => isDigit_of_mem_zeros⟩
      · rw [List.head?_append_of_ne_nil _ hne]
        exact hhead
    · split
      · obtain ⟨hwhole, hfirst⟩ := htake
          ((Nat.toDigits 10 d.digits).length - (-d.exponent).toNat) (by omega)
        exact ⟨hwhole, fun c hc => hall c (List.mem_of_mem_take hc), .inr hfirst,
          fun c hc => hall c (List.mem_of_mem_drop hc), .inl rfl⟩
      · refine ⟨List.cons_ne_nil _ _, hzero, .inl rfl, ?_, .inl rfl⟩
        exact List.forall_mem_append.2 ⟨fun c => isDigit_of_mem_zeros, hall⟩
  · obtain ⟨hwhole, hfirst⟩ := htake 1 Nat.one_pos
    refine ⟨hwhole, fun c hc => hall c (List.mem_of_mem_take hc), .inr hfirst,
      fun c hc => hall c (List.mem_of_mem_drop hc), .inr ⟨_, _, rfl, ?_, Nat.toDigits_ne_nil,
        fun c => isDigit_of_mem_toDigits⟩⟩
    split
    · exact .inr rfl
    · exact .inl rfl

theorem value_parts (h : d.digits ≠ 0) : (exact d.parts.text).value = d.value := by
  have hlength : 0 < (Nat.toDigits 10 d.digits).length := Nat.length_toDigits_pos
  rw [Parts.exact_text (valid_parts h), parts]
  dsimp only
  split
  · split
    · rename_i hexponent
      rw [List.append_assoc, ← List.replicate_succ', digitsValue_append_zeros,
        digitsValue_toDigits, value, value]
      have hpoint : exponentValue [] - (['0'].length : Int) = -1 := rfl
      obtain ⟨k, hk⟩ := Int.eq_ofNat_of_zero_le hexponent
      rw [hpoint, hk, Int.toNat_natCast, zpow_natCast, zpow_neg_one]
      push_cast
      rw [pow_succ]
      field_simp
    · split
      · rw [List.take_append_drop, digitsValue_toDigits, List.length_drop, value, value]
        congr 2
        change (0 : Int) - _ = _
        omega
      · rw [← List.append_assoc, ← List.replicate_one, List.replicate_append_replicate,
          digitsValue_zeros_append, digitsValue_toDigits, List.length_append,
          List.length_replicate, value, value]
        congr 2
        change (0 : Int) - _ = _
        omega
  · rw [List.take_append_drop, digitsValue_toDigits, List.length_drop, value, value]
    congr 2
    dsimp only
    split
    · rw [exponentValue, digitsValue_toDigits]
      omega
    · rw [exponentValue, digitsValue_toDigits]
      omega

end Decimal

namespace NumberStyle

open Binary64 Shortest

variable {x : Float}

/-- The parts that a magnitude is written with. -/
def magnitudeParts (mantissa : Nat) (exponent : Int) : Parts :=
  if mantissa = 0 then ⟨['0'], ['0'], []⟩
  else
    let narrow := decide (mantissa = leadingBit ∧ minExponent < exponent)
    ((interval mantissa exponent narrow).shortest json.tie).parts

theorem toList_magnitude (mantissa : Nat) (exponent : Int) :
    (json.magnitude mantissa exponent).toList = (magnitudeParts mantissa exponent).text := by
  rw [magnitude, magnitudeParts]
  split
  · rfl
  · exact Decimal.toList_decimal _

theorem magnitudeParts_eq {mantissa shift : Nat} (h : 0 < mantissa) :
    magnitudeParts mantissa (minExponent + (shift : Nat)) =
      ((intervalOf mantissa shift).shortest json.tie).parts := by
  have hnarrow : decide (mantissa = leadingBit ∧ minExponent < minExponent + (shift : Nat)) =
      decide (Narrow mantissa shift) := by
    refine decide_eq_decide.2 (and_congr_right fun _ => ?_)
    omega
  rw [magnitudeParts, if_neg h.ne', hnarrow, intervalOf]

theorem valid_magnitudeParts {mantissa shift : Nat} (hvalue : Canonical mantissa shift)
    (hfinite : shift * leadingBit + mantissa < infinityBits) :
    (magnitudeParts mantissa (minExponent + (shift : Nat))).Valid ∧
      nearestBits? (exact (magnitudeParts mantissa (minExponent + (shift : Nat))).text) =
        some (shift * leadingBit + mantissa) := by
  by_cases hzero : mantissa = 0
  · have hshift : shift = 0 := by
      refine hvalue.2.resolve_left ?_
      rw [hzero]
      decide
    have hdigit : ∀ c ∈ ['0'], c.isDigit = true := List.forall_mem_singleton.2 rfl
    rw [hzero, hshift, magnitudeParts, if_pos rfl]
    exact ⟨⟨List.cons_ne_nil _ _, hdigit, .inl rfl, hdigit, .inl rfl⟩, by decide⟩
  · have hpositive := Nat.pos_of_ne_zero hzero
    have hproper : (intervalOf mantissa shift).Proper := proper_intervalOf hpositive
    have hholds := hproper.holds_shortest json.tie
    obtain ⟨hbelow, _⟩ := hholds.bounds hpositive hvalue hfinite
    have hdigits := Decimal.digits_ne_zero (lt_of_lt_of_le (by positivity) hbelow)
    rw [magnitudeParts_eq hpositive]
    refine ⟨Decimal.valid_parts hdigits, nearestBits?_eq hpositive hvalue hfinite ?_⟩
    rw [Decimal.value_parts hdigits]
    exact hholds

/-- The text of a finite value consists of its sign and of the parts of its magnitude. -/
theorem exists_parts (h : x.isFinite = true) : ∃ (negative : Bool) (p : Parts) (bits : Nat),
    (json.render x).toList = (if negative then ['-'] else []) ++ p.text ∧ p.Valid ∧
      nearestBits? (exact p.text) = some bits ∧
      x.toBits.toNat = (if negative then signBit else 0) + bits := by
  obtain ⟨negative, mantissa, shift, hparts, hvalue, hfinite, hbits⟩ := exists_finite h
  obtain ⟨hvalid, hnearest⟩ := valid_magnitudeParts hvalue hfinite
  refine ⟨negative, _, _, ?_, hvalid, hnearest, hbits⟩
  rw [render, hparts]
  dsimp only
  rw [String.toList_append, toList_magnitude]
  cases negative <;> rfl

theorem scan?_render (h : x.isFinite = true) {rest : List Char} (hrest : Ends rest) :
    scan? ((json.render x).toList ++ rest) = some ((json.render x).toList, rest) := by
  obtain ⟨negative, p, _, htext, hvalid, _⟩ := exists_parts h
  have hunsigned := Parts.unsigned?_text hvalid hrest
  rw [htext]
  cases negative with
  | true =>
    change scan? ('-' :: (p.text ++ rest)) = some ('-' :: p.text, rest)
    rw [scan?, hunsigned]
    rfl
  | false =>
    obtain ⟨c, cs, hhead, hdigit⟩ := Parts.exists_head hvalid
    change scan? (p.text ++ rest) = some (p.text, rest)
    rw [hhead] at hunsigned ⊢
    rw [scan?]
    · exact hunsigned
    · intro rest' heq
      rw [(List.cons.inj heq).1] at hdigit
      cases hdigit

/-- A finite value is read as it was written. -/
theorem float?_render (h : x.isFinite = true) : float? (json.render x) = some x := by
  obtain ⟨negative, p, bits, htext, hvalid, hnearest, hbits⟩ := exists_parts h
  have hx := toFloat_toBits x
  rw [hbits] at hx
  rw [float?, htext]
  cases negative with
  | true =>
    change (nearestBits? (exact p.text)).map (fun bits => toFloat (signBit + bits)) = some x
    rw [hnearest, Option.map_some]
    exact congrArg some hx
  | false =>
    obtain ⟨c, cs, hhead, hdigit⟩ := Parts.exists_head hvalid
    rw [if_neg Bool.false_ne_true, Nat.zero_add] at hx
    rw [hhead] at hnearest
    rw [if_neg Bool.false_ne_true, List.nil_append, hhead]
    split
    · rename_i heq
      rw [(List.cons.inj heq).1] at hdigit
      cases hdigit
    · rw [hnearest, Option.map_some, hx]

end NumberStyle

end QuestionTree
