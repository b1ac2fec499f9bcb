import QuestionTree.Json.Text

/-!
# Levels of nesting

A list or an object is one level above its deepest item; a number or a string has no level at all.
The levels of what is written are told from the parts that it is written from.
-/

namespace QuestionTree

namespace Json

mutual

/-- How many levels of lists and objects a tree has. -/
def levels : Json → Nat
  | arr items _ => itemLevels items + 1
  | obj members _ => memberLevels members + 1
  | _ => 0

def itemLevels : List Json → Nat
  | [] => 0
  | item :: items => max item.levels (itemLevels items)

def memberLevels : List (String × Json) → Nat
  | [] => 0
  | (_, value) :: members => max value.levels (memberLevels members)

end

example : (list [num "1", object [("a", list []), ("b", null)]]).levels = 3 := by decide +kernel

@[simp] theorem levels_null : levels null = 0 := rfl

@[simp] theorem levels_ofNat (n : Nat) : (ofNat n).levels = 0 := rfl

@[simp] theorem levels_ofString (s : String) : (ofString s).levels = 0 := rfl

@[simp] theorem levels_ofFloat (x : Float) : (ofFloat x).levels = 0 := by
  unfold ofFloat
  split <;> rfl

@[simp] theorem levels_list (items : List Json) : (list items).levels = itemLevels items + 1 := rfl

@[simp] theorem itemLevels_nil : itemLevels [] = 0 := rfl

@[simp] theorem itemLevels_cons (item : Json) (items : List Json) :
    itemLevels (item :: items) = max item.levels (itemLevels items) := rfl

theorem itemLevels_le {items : List Json} {n : Nat} (h : ∀ item ∈ items, item.levels ≤ n) :
    itemLevels items ≤ n := by
  induction items with
  | nil => exact Nat.zero_le n
  | cons item items ih =>
    obtain ⟨hitem, hitems⟩ := List.forall_mem_cons.1 h
    exact Nat.max_le.2 ⟨hitem, ih hitems⟩

theorem levels_ofList_le {α : Type} {item : α → Json} {items : List α} {n : Nat}
    (h : ∀ a ∈ items, (item a).levels ≤ n) : (ofList item items).levels ≤ n + 1 :=
  Nat.succ_le_succ (itemLevels_le (List.forall_mem_map.2 h))

theorem memberLevels_eq (members : List (String × Json)) :
    memberLevels members = itemLevels (members.map Prod.snd) := by
  induction members with
  | nil => rfl
  | cons member members ih =>
    obtain ⟨name, value⟩ := member
    rw [memberLevels, ih]
    rfl

@[simp] theorem levels_ofFields (fields : List (String × Json)) :
    (ofFields fields).levels = itemLevels (fields.map Prod.snd) + 1 := by
  rw [ofFields, levels, memberLevels_eq, List.map_map]
  rfl

end Json

end QuestionTree
