import QuestionTree.Json.Basic

/-!
# Texts that are escaped and read back

A character is spelled in one of three ways: by a backslash and a letter, by a backslash and its
code, or by itself. Whichever it is, the spelling of a text ends at the first quote that is not a
part of it, and the spelling stands for the text again.
-/

namespace QuestionTree

namespace Quoted

variable {rest : List Char}

theorem unit?_hexDigit : ∀ n < 0x20,
    unit? '0' '0' (hexDigit (n / 16)) (hexDigit (n % 16)) = some n := by
  decide

theorem escapeChar_cases (c : Char) :
    (∃ letter, escapeChar c = ['\\', letter] ∧ letter ≠ 'u' ∧ letterEscape? letter = some c) ∨
    (∃ a b, escapeChar c = ['\\', 'u', '0', '0', a, b] ∧ unit? '0' '0' a b = some c.toNat ∧
      c.toNat < 0x20) ∨
    (escapeChar c = [c] ∧ c ≠ '"' ∧ c ≠ '\\' ∧ isControl c = false) := by
  by_cases hquote : c = '"'
  · rw [hquote]
    exact .inl ⟨'"', rfl, by decide, rfl⟩
  by_cases hbackslash : c = '\\'
  · rw [hbackslash]
    exact .inl ⟨'\\', rfl, by decide, rfl⟩
  by_cases hbreak : c = '\n'
  · rw [hbreak]
    exact .inl ⟨'n', rfl, by decide, rfl⟩
  by_cases htab : c = '\t'
  · rw [htab]
    exact .inl ⟨'t', rfl, by decide, rfl⟩
  by_cases hreturn : c = '\r'
  · rw [hreturn]
    exact .inl ⟨'r', rfl, by decide, rfl⟩
  by_cases hback : c = '\x08'
  · rw [hback]
    exact .inl ⟨'b', rfl, by decide, rfl⟩
  by_cases hfeed : c = '\x0c'
  · rw [hfeed]
    exact .inl ⟨'f', rfl, by decide, rfl⟩
  rw [escapeChar, if_neg hquote, if_neg hbackslash, if_neg hbreak, if_neg htab, if_neg hreturn,
    if_neg hback, if_neg hfeed]
  by_cases hcontrol : isControl c = true
  · have hlt : c.toNat < 0x20 := of_decide_eq_true hcontrol
    rw [if_pos hcontrol]
    exact .inr (.inl ⟨_, _, rfl, unit?_hexDigit c.toNat hlt, hlt⟩)
  · rw [if_neg hcontrol]
    exact .inr (.inr ⟨rfl, hquote, hbackslash, Bool.eq_false_iff.2 hcontrol⟩)

theorem scan?_escapeChar (c : Char) (tail : List Char) :
    scan? (escapeChar c ++ tail) = (scan? tail).map fun (s, r) => (escapeChar c ++ s, r) := by
  rcases escapeChar_cases c with ⟨letter, heq, hletter, hescape⟩ | ⟨a, b, heq, hunit, _⟩ |
    ⟨heq, hquote, hbackslash, hcontrol⟩
  · rw [heq]
    change scan? ('\\' :: letter :: tail) = _
    rw [scan?]
    · rw [if_pos (by rw [hescape]; rfl)]
      rfl
    · intro _ _ _ _ _ h
      exact absurd h hletter
  · rw [heq]
    change scan? ('\\' :: 'u' :: '0' :: '0' :: a :: b :: tail) = _
    rw [scan?, if_pos (by rw [hunit]; rfl)]
    rfl
  · rw [heq]
    change scan? (c :: tail) = _
    rw [scan?]
    · rw [hcontrol]
      rfl
    · exact hquote
    · exact fun _ _ _ _ _ h => absurd h hbackslash
    · exact fun _ _ h => absurd h hbackslash

/-- A spelling ends at the quote behind it. -/
theorem scan?_escape (s : String) (rest : List Char) :
    scan? ((escape s).toList ++ '"' :: rest) = some ((escape s).toList, rest) := by
  rw [escape, String.toList_ofList]
  induction s.toList with
  | nil => rfl
  | cons c cs ih =>
    rw [List.flatMap_cons, List.append_assoc, scan?_escapeChar, ih]
    rfl

theorem unescapeChars?_escapeChar (c : Char) (tail : List Char) :
    unescapeChars? (escapeChar c ++ tail) = (unescapeChars? tail).map (c :: ·) := by
  rcases escapeChar_cases c with ⟨letter, heq, hletter, hescape⟩ | ⟨a, b, heq, hunit, hlt⟩ |
    ⟨heq, hquote, hbackslash, hcontrol⟩
  · rw [heq]
    change unescapeChars? ('\\' :: letter :: tail) = _
    rw [unescapeChars?]
    · rw [hescape]
      cases unescapeChars? tail <;> rfl
    · exact fun _ _ _ _ _ _ _ _ _ h => absurd h hletter
    · exact fun _ _ _ _ _ h => absurd h hletter
  -- a control character stands alone: it is never one half of a pair of units
  · have hleading : isLeading c.toNat = false := by
      rw [isLeading, decide_eq_false (by omega : ¬ 0xD800 ≤ c.toNat), Bool.false_and]
    have htrailing : isTrailing c.toNat = false := by
      rw [isTrailing, decide_eq_false (by omega : ¬ 0xDC00 ≤ c.toNat), Bool.false_and]
    rw [heq]
    change unescapeChars? ('\\' :: 'u' :: '0' :: '0' :: a :: b :: tail) = _
    rw [unescapeChars?.eq_def]
    split
    · rename_i h
      cases h
    · rename_i h
      cases h
      simp only [hunit, Option.bind_eq_bind, Option.bind_some, hleading, htrailing,
        Char.ofNat_toNat, Option.pure_def, Bool.false_eq_true, if_false]
      rw [Option.map_eq_bind]
      rfl
    · rename_i h
      cases h
      simp only [hunit, Option.bind_eq_bind, Option.bind_some, hleading, htrailing,
        Char.ofNat_toNat, Option.pure_def, Bool.or_self, Bool.false_eq_true, if_false]
      rw [Option.map_eq_bind]
      rfl
    · rename_i hlong h
      cases h
      exact absurd rfl (hlong _ _ _ _ _ rfl)
    · rename_i h
      cases h
    · rename_i hlong _ h
      cases h
      exact (hlong _ _ rfl rfl).elim
  · rw [heq]
    change unescapeChars? (c :: tail) = _
    rw [unescapeChars?]
    · cases unescapeChars? tail <;> rfl
    · exact fun _ _ _ _ _ _ _ _ _ h => absurd h hbackslash
    · exact fun _ _ _ _ _ h => absurd h hbackslash
    · exact fun _ _ h => absurd h hbackslash
    · exact fun h => absurd h hbackslash

/-- A spelling stands for the text that it spells. -/
theorem unescape?_escape (s : String) : unescape? (escape s) = some s := by
  have hchars : ∀ cs : List Char, unescapeChars? (cs.flatMap escapeChar) = some cs := by
    intro cs
    induction cs with
    | nil => rfl
    | cons c cs ih =>
      rw [List.flatMap_cons, unescapeChars?_escapeChar, ih]
      rfl
  rw [unescape?, escape, String.toList_ofList, hchars, Option.map_some, String.ofList_toList]

end Quoted

end QuestionTree
