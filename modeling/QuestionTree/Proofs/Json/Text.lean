import QuestionTree.Json.Text
import QuestionTree.Proofs.Json.Layout
import QuestionTree.Proofs.Json.Quoted

/-!
# Trees that are written and read back

A tree is spelled properly if each of its numbers and strings is split off as it stands and none of
its lists and objects breaks off. The text of such a tree is read back as the tree. The bound on the
recursion of the readers is reached by no text: a value takes up twice its length at most, and the
items of a list one more.
-/

namespace QuestionTree

namespace Json

open Numeral (Ends)

mutual

/-- Whether the text of a tree can be split into its parts again. -/
def Spelled : Json → Prop
  | null => True
  | bool _ => True
  | num spelling => (∃ c cs, spelling.toList = c :: cs ∧ (c.isDigit = true ∨ c = '-')) ∧
      ∀ rest, Ends rest → Numeral.scan? (spelling.toList ++ rest) = some (spelling.toList, rest)
  | str spelling =>
    ∀ rest, Quoted.scan? (spelling.toList ++ '"' :: rest) = some (spelling.toList, rest)
  | arr items closed => SpelledItems items ∧ closed = true
  | obj members closed => SpelledMembers members ∧ closed = true
  | cut => False

/-- Whether the items of a list are spelled properly. -/
def SpelledItems : List Json → Prop
  | [] => True
  | item :: items => item.Spelled ∧ SpelledItems items

/-- Whether the members of an object are spelled properly. -/
def SpelledMembers : List (String × Json) → Prop
  | [] => True
  | (name, value) :: members =>
    (∀ rest, Quoted.scan? (name.toList ++ '"' :: rest) = some (name.toList, rest)) ∧
      value.Spelled ∧ SpelledMembers members

end

/-- Whether a text starts with a character that a value may start with. -/
def Starts (cs : List Char) : Prop :=
  ∃ c rest, cs = c :: rest ∧ isGap c = false ∧ c ≠ ']'

theorem isGap_eq_false {c : Char} (h : c.isDigit = true ∨ c = '-') : isGap c = false := by
  cases hgap : isGap c with
  | false => rfl
  | true =>
    simp only [isGap, Bool.or_eq_true, beq_iff_eq] at hgap
    rcases hgap with ((rfl | rfl) | rfl) | rfl <;> rcases h with h | h <;> cases h

theorem starts_chars {j : Json} (h : j.Spelled) (rest : List Char) : Starts (j.chars ++ rest) := by
  cases j with
  | null => exact ⟨_, _, rfl, rfl, by decide⟩
  | bool b => cases b <;> exact ⟨_, _, rfl, rfl, by decide⟩
  | num spelling =>
    rw [Spelled] at h
    obtain ⟨⟨c, cs, hhead, hc⟩, _⟩ := h
    refine ⟨c, cs ++ rest, by rw [chars, hhead]; rfl, isGap_eq_false hc, ?_⟩
    rintro rfl
    rcases hc with hc | hc <;> cases hc
  | str spelling => exact ⟨_, _, rfl, rfl, by decide⟩
  | arr items closed => exact ⟨_, _, rfl, rfl, by decide⟩
  | obj members closed => exact ⟨_, _, rfl, rfl, by decide⟩
  | cut =>
    rw [Spelled] at h
    exact h.elim

theorem skipGap_cons {c : Char} {rest : List Char} (h : isGap c = false) :
    skipGap (c :: rest) = c :: rest := by
  rw [skipGap, List.dropWhile_cons_of_neg (by rw [h]; exact Bool.false_ne_true)]

/-! ### Single steps of the readers -/

variable {bound : Nat} {cs rest : List Char}

theorem readValue_num {c : Char} {spelling : List Char} (hc : c.isDigit = true ∨ c = '-')
    (h : Numeral.scan? (c :: cs) = some (spelling, rest)) :
    readValue (bound + 1) (c :: cs) = (num (String.ofList spelling), some rest) := by
  have hne : ∀ c' : Char, c'.isDigit = false → c' ≠ '-' → c ≠ c' := by
    rintro c' hdigit hsign rfl
    rcases hc with hc | hc
    · rw [hdigit] at hc
      cases hc
    · exact hsign hc
  rw [readValue, skipGap_cons (isGap_eq_false hc)]
  split
  · rename_i heq
    exact absurd (List.cons.inj heq).1 (hne 'n' rfl (by decide))
  · rename_i heq
    exact absurd (List.cons.inj heq).1 (hne 't' rfl (by decide))
  · rename_i heq
    exact absurd (List.cons.inj heq).1 (hne 'f' rfl (by decide))
  · rename_i heq
    exact absurd (List.cons.inj heq).1 (hne '"' rfl (by decide))
  · rename_i heq
    exact absurd (List.cons.inj heq).1 (hne '[' rfl (by decide))
  · rename_i heq
    exact absurd (List.cons.inj heq).1 (hne '{' rfl (by decide))
  · rw [h]

theorem readValue_str {spelling : List Char} (h : Quoted.scan? cs = some (spelling, rest)) :
    readValue (bound + 1) ('"' :: cs) = (str (String.ofList spelling), some rest) := by
  have hskip : skipGap ('"' :: cs) = '"' :: cs := skipGap_cons rfl
  rw [readValue, hskip]
  simp only [h]

theorem readValue_arr {items : List Json} (hstarts : Starts cs)
    (h : readItems bound cs = (items, some rest)) :
    readValue (bound + 1) ('[' :: cs) = (arr items true, some rest) := by
  obtain ⟨c, cs', rfl, hgap, hclose⟩ := hstarts
  have hskip : skipGap ('[' :: c :: cs') = '[' :: c :: cs' := skipGap_cons rfl
  rw [readValue, hskip]
  simp only [skipGap_cons hgap]
  split
  · rename_i heq
    exact absurd (List.cons.inj heq).1 hclose
  · rw [h]
    rfl

theorem readValue_obj {members : List (String × Json)}
    (h : readMembers bound ('"' :: cs) = (members, some rest)) :
    readValue (bound + 1) ('{' :: '"' :: cs) = (obj members true, some rest) := by
  have hskip : skipGap ('{' :: '"' :: cs) = '{' :: '"' :: cs := skipGap_cons rfl
  have hskip' : skipGap ('"' :: cs) = '"' :: cs := skipGap_cons rfl
  rw [readValue, hskip]
  simp only [hskip']
  split
  · rename_i heq
    exact absurd (List.cons.inj heq).1 (by decide)
  · rw [h]
    rfl

theorem readItems_last {item : Json} (h : readValue bound cs = (item, some (']' :: rest))) :
    readItems (bound + 1) cs = ([item], some rest) := by
  have hskip : skipGap (']' :: rest) = ']' :: rest := skipGap_cons rfl
  rw [readItems, h]
  simp only [hskip]

theorem readItems_more {item : Json} {items : List Json} {tail : List Char}
    (h : readValue bound cs = (item, some (',' :: tail)))
    (htail : readItems bound tail = (items, some rest)) :
    readItems (bound + 1) cs = (item :: items, some rest) := by
  have hskip : skipGap (',' :: tail) = ',' :: tail := skipGap_cons rfl
  rw [readItems, h]
  simp only [hskip, htail]

theorem readMembers_last {name tail : List Char} {value : Json}
    (hname : Quoted.scan? cs = some (name, ':' :: tail))
    (h : readValue bound tail = (value, some ('}' :: rest))) :
    readMembers (bound + 1) ('"' :: cs) = ([(String.ofList name, value)], some rest) := by
  have hquote : skipGap ('"' :: cs) = '"' :: cs := skipGap_cons rfl
  have hcolon : skipGap (':' :: tail) = ':' :: tail := skipGap_cons rfl
  have hclose : skipGap ('}' :: rest) = '}' :: rest := skipGap_cons rfl
  rw [readMembers, hquote]
  simp only [hname, hcolon, h, hclose]

theorem readMembers_more {name tail tail' : List Char} {value : Json}
    {members : List (String × Json)} (hname : Quoted.scan? cs = some (name, ':' :: tail))
    (h : readValue bound tail = (value, some (',' :: tail')))
    (htail : readMembers bound tail' = (members, some rest)) :
    readMembers (bound + 1) ('"' :: cs) =
      ((String.ofList name, value) :: members, some rest) := by
  have hquote : skipGap ('"' :: cs) = '"' :: cs := skipGap_cons rfl
  have hcolon : skipGap (':' :: tail) = ':' :: tail := skipGap_cons rfl
  have hcomma : skipGap (',' :: tail') = ',' :: tail' := skipGap_cons rfl
  rw [readMembers, hquote]
  simp only [hname, hcolon, h, hcomma, htail]

/-! ### Whole trees -/

theorem ends_cons {c : Char} (h : c = ',' ∨ c = ']' ∨ c = '}') : Ends (c :: rest) := by
  intro c' hc'
  cases hc'
  rcases h with rfl | rfl | rfl <;> exact ⟨rfl, by decide, by decide, by decide⟩

theorem starts_itemChars {item : Json} {items : List Json} (h : item.Spelled) :
    Starts (itemChars (item :: items) ++ rest) := by
  cases items with
  | nil => exact starts_chars h _
  | cons next items =>
    rw [itemChars, List.append_assoc]
    · exact starts_chars h _
    · exact List.cons_ne_nil _ _

theorem exists_memberChars (name : String) (value : Json) (members : List (String × Json)) :
    ∃ tail, memberChars ((name, value) :: members) = '"' :: tail := by
  cases members with
  | nil => exact ⟨_, rfl⟩
  | cons next members => exact ⟨_, rfl⟩

mutual

/-- The text of a tree is read as the tree, with what follows it. -/
theorem readValue_chars : ∀ (j : Json), j.Spelled → ∀ (bound : Nat) (rest : List Char),
    2 * j.chars.length ≤ bound + 1 → Ends rest →
      readValue (bound + 1) (j.chars ++ rest) = (j, some rest)
  | null, _, bound, rest, _, _ => rfl
  | bool true, _, bound, rest, _, _ => rfl
  | bool false, _, bound, rest, _, _ => rfl
  | num spelling, h, bound, rest, _, hrest => by
    rw [Spelled] at h
    obtain ⟨⟨c, cs, hhead, hc⟩, hscan⟩ := h
    have hnum := hscan rest hrest
    rw [chars]
    rw [hhead] at hnum ⊢
    rw [List.cons_append] at hnum ⊢
    rw [readValue_num hc hnum, ← hhead, String.ofList_toList]
  | str spelling, h, bound, rest, _, _ => by
    rw [Spelled] at h
    have htext : (str spelling).chars ++ rest = '"' :: (spelling.toList ++ '"' :: rest) := by
      rw [chars]
      simp
    rw [htext, readValue_str (h rest), String.ofList_toList]
  | arr [] closed, h, bound, rest, _, _ => by
    rw [Spelled] at h
    rw [h.2]
    rfl
  | arr (item :: items) closed, h, bound, rest, hbound, _ => by
    rw [Spelled] at h
    obtain ⟨hitems, rfl⟩ := h
    have htext : (arr (item :: items) true).chars ++ rest =
        '[' :: (itemChars (item :: items) ++ ']' :: rest) := by
      rw [chars]
      simp
    -- the bound counts twice the length, one half for values and one for lists of values
    have hlength : 2 * (itemChars (item :: items)).length + 1 ≤ bound := by
      rw [chars] at hbound
      simp at hbound
      omega
    have hread := readItems_itemChars (item :: items) hitems bound rest hlength
      (List.cons_ne_nil _ _)
    rw [SpelledItems] at hitems
    rw [htext, readValue_arr (starts_itemChars hitems.1) hread]
  | obj [] closed, h, bound, rest, _, _ => by
    rw [Spelled] at h
    rw [h.2]
    rfl
  | obj ((name, value) :: members) closed, h, bound, rest, hbound, _ => by
    rw [Spelled] at h
    obtain ⟨hmembers, rfl⟩ := h
    have htext : (obj ((name, value) :: members) true).chars ++ rest =
        '{' :: (memberChars ((name, value) :: members) ++ '}' :: rest) := by
      rw [chars]
      simp
    have hlength : 2 * (memberChars ((name, value) :: members)).length + 1 ≤ bound := by
      rw [chars] at hbound
      simp at hbound
      omega
    have hread := readMembers_memberChars ((name, value) :: members) hmembers bound rest hlength
      (List.cons_ne_nil _ _)
    obtain ⟨tail, htail⟩ := exists_memberChars name value members
    rw [htail] at hread htext
    rw [htext]
    exact readValue_obj hread
  | cut, h, _, _, _, _ => by
    rw [Spelled] at h
    exact h.elim

theorem readItems_itemChars : ∀ (items : List Json), SpelledItems items →
    ∀ (bound : Nat) (rest : List Char), 2 * (itemChars items).length + 1 ≤ bound → items ≠ [] →
      readItems bound (itemChars items ++ ']' :: rest) = (items, some rest)
  | [], _, _, _, _, hne => absurd rfl hne
  | [item], h, bound + 2, rest, hbound, _ => by
    rw [SpelledItems] at h
    rw [itemChars] at hbound ⊢
    exact readItems_last
      (readValue_chars item h.1 bound (']' :: rest) (by omega) (ends_cons (.inr (.inl rfl))))
  | item :: next :: items, h, bound + 2, rest, hbound, _ => by
    rw [SpelledItems] at h
    rw [itemChars, List.length_append, List.length_cons] at hbound
    · rw [itemChars, List.append_assoc, List.cons_append]
      · exact readItems_more
          (readValue_chars item h.1 bound _ (by omega) (ends_cons (.inl rfl)))
          (readItems_itemChars (next :: items) h.2 (bound + 1) rest (by omega)
            (List.cons_ne_nil _ _))
      · exact List.cons_ne_nil _ _
    · exact List.cons_ne_nil _ _
  | item :: items, h, 1, _, hbound, _ => by
    rw [SpelledItems] at h
    have hstarts : Starts (itemChars (item :: items) ++ []) := starts_itemChars h.1
    obtain ⟨c, tail, heq, _⟩ := hstarts
    rw [List.append_nil] at heq
    rw [heq, List.length_cons] at hbound
    omega
  | _ :: _, _, 0, _, hbound, _ => by cases hbound

theorem readMembers_memberChars : ∀ (members : List (String × Json)), SpelledMembers members →
    ∀ (bound : Nat) (rest : List Char), 2 * (memberChars members).length + 1 ≤ bound →
      members ≠ [] → readMembers bound (memberChars members ++ '}' :: rest) = (members, some rest)
  | [], _, _, _, _, hne => absurd rfl hne
  | [(name, value)], h, bound + 2, rest, hbound, _ => by
    rw [SpelledMembers] at h
    have htext : memberChars [(name, value)] ++ '}' :: rest =
        '"' :: (name.toList ++ '"' :: ':' :: (value.chars ++ '}' :: rest)) := by
      rw [memberChars]
      simp
    have hlength : 2 * value.chars.length ≤ bound + 1 := by
      rw [memberChars] at hbound
      simp at hbound
      omega
    rw [htext, readMembers_last (h.1 _)
      (readValue_chars value h.2.1 bound _ hlength (ends_cons (.inr (.inr rfl)))),
      String.ofList_toList]
  | (name, value) :: next :: members, h, bound + 2, rest, hbound, _ => by
    rw [SpelledMembers] at h
    have htext : memberChars ((name, value) :: next :: members) ++ '}' :: rest =
        '"' :: (name.toList ++ '"' :: ':' :: (value.chars ++ ',' ::
          (memberChars (next :: members) ++ '}' :: rest))) := by
      rw [memberChars]
      · simp
      · exact List.cons_ne_nil _ _
    have hlength : 2 * (value.chars.length + (memberChars (next :: members)).length) + 4 ≤
        bound + 2 := by
      rw [memberChars] at hbound
      · simp at hbound
        omega
      · exact List.cons_ne_nil _ _
    rw [htext, readMembers_more (h.1 _)
      (readValue_chars value h.2.1 bound _ (by omega) (ends_cons (.inl rfl)))
      (readMembers_memberChars (next :: members) h.2.2 (bound + 1) rest (by omega)
        (List.cons_ne_nil _ _)), String.ofList_toList]
  | (name, value) :: members, h, 1, _, hbound, _ => by
    obtain ⟨tail, htail⟩ := exists_memberChars name value members
    rw [htail, List.length_cons] at hbound
    omega
  | _ :: _, _, 0, _, hbound, _ => by cases hbound

end

theorem ofText_write {j : Json} (h : j.Spelled) : Document.ofText j.write = ⟨j, true⟩ := by
  have hread := readValue_chars j h (2 * j.chars.length + 1) [] (by omega)
    fun c hc => by cases hc
  rw [List.append_nil] at hread
  rw [Document.ofText, write, String.toList_ofList, hread]
  rfl

end Json

end QuestionTree
