import QuestionTree.Plan
import Mathlib.Data.List.DropRight

/-!
# Actions as texts

The tag of an action is kept without the blanks around it, and the word for splitting in small
letters. Taking blanks off once more changes nothing, so an action that was read off a text is read
again from its own text.
-/

namespace QuestionTree

namespace Text

theorem trimChars_eq (cs : List Char) :
    trimChars cs = (cs.dropWhile isBlank).rdropWhile isBlank := rfl

/-- What is left when blanks are taken off at the end starts as before. -/
theorem dropWhile_rdropWhile {α : Type} {p : α → Bool} {l : List α} (h : l.dropWhile p = l) :
    (l.rdropWhile p).dropWhile p = l.rdropWhile p := by
  rw [List.dropWhile_eq_self_iff] at h ⊢
  intro hpos
  have hfirst := List.rdropWhile_prefix p (l := l)
  rw [hfirst.getElem hpos]
  exact h (Nat.lt_of_lt_of_le hpos hfirst.length_le)

theorem trimChars_trimChars (cs : List Char) : trimChars (trimChars cs) = trimChars cs := by
  have hstart : (trimChars cs).dropWhile isBlank = trimChars cs :=
    dropWhile_rdropWhile (List.dropWhile_idempotent isBlank cs)
  rw [trimChars_eq (trimChars cs), hstart, trimChars_eq, List.rdropWhile_idempotent]

theorem trim_trim (s : String) : trim (trim s) = trim s := by
  rw [trim, trim, String.toList_ofList, trimChars_trimChars]

end Text

namespace StepAction

theorem ofText_text {s : String} {a : StepAction} (h : ofText s = .ok a) :
    ofText a.text = .ok a := by
  rw [ofText] at h
  split at h
  · cases h
  · rename_i hsome
    split at h
    · cases h
      decide +kernel
    · rename_i htag
      cases h
      rw [text, ofText, Text.trim_trim, if_neg hsome, if_neg htag]

end StepAction

end QuestionTree
