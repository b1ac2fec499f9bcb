import QuestionTree.Growth.Queue
import Mathlib.Data.Multiset.AddSub

/-!
# What a queue holds

An insertion adds one item to those that a queue holds, and what is served next is taken away from
them; the order of service is no matter here. `Queue.items` forgets the order of the levels, so that
each operation is one equation, and the lists of the levels are compared up to their order.
-/

namespace QuestionTree

namespace Queue

section Shape

variable {α : Type}

/-- The items of a queue, in no order. -/
def items (q : Queue α) : Multiset α := q.toList

@[simp] theorem items_empty : (empty : Queue α).items = 0 := rfl

theorem flatten_zipWithAll_perm (xs ys : List (List α)) :
    (List.zipWithAll (fun x y => x.getD [] ++ y.getD []) xs ys).flatten.Perm
      (xs.flatten ++ ys.flatten) := by
  induction xs generalizing ys with
  | nil => simp [List.zipWithAll]
  | cons x xs ih =>
    cases ys with
    | nil => simp [List.zipWithAll]
    | cons y ys =>
      simp only [List.zipWithAll, Option.getD_some, List.flatten_cons, List.append_assoc]
      have hswap : (y ++ (xs.flatten ++ ys.flatten)).Perm (xs.flatten ++ (y ++ ys.flatten)) := by
        rw [← List.append_assoc, ← List.append_assoc]
        exact List.perm_append_comm.append_right ys.flatten
      exact (((ih ys).append_left y).trans hswap).append_left x

@[simp] theorem items_item (a : α) (left right : Queue α) :
    (item a left right).items = a ::ₘ (left.items + right.items) := by
  have hlevels := flatten_zipWithAll_perm left.levels right.levels
  simp only [items, toList, levels, List.flatten_cons, List.singleton_append,
    Multiset.coe_add, Multiset.cons_coe]
  exact Multiset.coe_eq_coe.2 (hlevels.cons a)

theorem card_items (q : Queue α) : q.items.card = q.size := by
  induction q with
  | empty => rfl
  | item a left right ihLeft ihRight =>
    rw [items_item, Multiset.card_cons, Multiset.card_add, ihLeft, ihRight, size]

theorem eq_empty_of_height_eq_zero {q : Queue α} (h : q.height = 0) : q = empty := by
  cases q with
  | empty => rfl
  | item a left right => simp [height] at h

/-- The last item of a queue is its first one only if it is the only one. -/
theorem shape_of_last? {a b : α} {left right q : Queue α}
    (h : (item a left right).last? = some (b, q)) :
    (q = empty ∧ b = a) ∨ ∃ left' right', q = item a left' right' := by
  simp only [last?] at h
  split at h
  · obtain ⟨⟨c, rest⟩, _, heq⟩ := Option.map_eq_some_iff.1 h
    cases heq
    exact .inr ⟨rest, right, rfl⟩
  · rename_i hheight
    split at h
    · rename_i c rest _
      cases h
      exact .inr ⟨left, rest, rfl⟩
    · rename_i hright
      cases h
      rw [eq_empty_of_last? hright] at hheight
      have hzero : left.height = 0 := Nat.le_zero.1 (Nat.le_of_not_lt hheight)
      exact .inl ⟨eq_empty_of_height_eq_zero hzero, rfl⟩

theorem items_of_last? {q q' : Queue α} {a : α} (h : q.last? = some (a, q')) :
    q.items = a ::ₘ q'.items := by
  induction q generalizing a q' with
  | empty => simp [last?] at h
  | item b left right ihLeft ihRight =>
    simp only [last?] at h
    split at h
    · obtain ⟨⟨c, rest⟩, hrest, heq⟩ := Option.map_eq_some_iff.1 h
      cases heq
      rw [items_item, items_item, ihLeft hrest, Multiset.cons_add, Multiset.cons_swap]
    · split at h
      · rename_i c rest hrest
        cases h
        rw [items_item, items_item, ihRight hrest, Multiset.add_cons, Multiset.cons_swap]
      · rename_i hright
        cases h
        rw [items_item, eq_empty_of_last? hright, items_empty, Multiset.add_zero]

end Shape

variable {α ν : Type} [Arithmetic ν] [Prioritized α ν]

theorem items_exchange (a : α) (q : Queue α) :
    (exchange a q).1 ::ₘ (exchange a q).2.items = a ::ₘ q.items := by
  cases q with
  | empty => rfl
  | item b left right =>
    simp only [exchange]
    split
    · rw [items_item, items_item, Multiset.cons_swap]
    · rfl

theorem items_insert (q : Queue α) (a : α) : (q.insert a).items = a ::ₘ q.items := by
  induction q with
  | empty => rfl
  | item b left right ihLeft ihRight =>
    simp only [insert]
    split
    · rw [items_item, ← Multiset.cons_add, items_exchange, ihLeft, Multiset.cons_swap,
        Multiset.cons_add, Multiset.cons_add, items_item]
    · rw [items_item, ← Multiset.add_cons, items_exchange, ihRight, Multiset.cons_swap,
        Multiset.add_cons, Multiset.add_cons, items_item]

theorem items_replaceFirst (q : Queue α) (a : α) {b : α} {left right : Queue α}
    (h : q = item b left right) :
    (q.replaceFirst a).items = a ::ₘ (left.items + right.items) := by
  induction q generalizing b left right with
  | empty => cases h
  | item c lower upper ihLower ihUpper =>
    cases h
    simp only [replaceFirst]
    split
    · rw [items_item]
    · rename_i d hfirst
      split
      · rw [items_item]
      · by_cases hleads : leftLeads lower upper = true
        · simp only [hleads, if_true] at hfirst ⊢
          cases lower with
          | empty => cases hfirst
          | item e left right =>
            cases hfirst
            rw [items_item, ihLower rfl, items_item, Multiset.cons_add, Multiset.cons_swap,
              Multiset.cons_add]
        · simp only [hleads, if_false, Bool.false_eq_true] at hfirst ⊢
          cases upper with
          | empty => cases hfirst
          | item e left right =>
            cases hfirst
            rw [items_item, ihUpper rfl, items_item, Multiset.add_cons, Multiset.cons_swap,
              Multiset.add_cons]

theorem items_of_next? {q q' : Queue α} {a : α} (h : q.next? = some (a, q')) :
    q.items = a ::ₘ q'.items := by
  cases q with
  | empty => simp [next?, first?] at h
  | item b left right =>
    obtain ⟨⟨c, rest⟩, hlast, heq⟩ := Option.bind_eq_some_iff.1 h
    cases heq
    rw [items_of_last? hlast]
    rcases shape_of_last? hlast with ⟨rfl, rfl⟩ | ⟨left', right', rfl⟩
    · rfl
    · rw [items_replaceFirst _ c rfl, items_item, Multiset.cons_swap]

/-- Only an empty queue has nothing to serve. -/
theorem eq_empty_of_next? {q : Queue α} (h : q.next? = none) : q = empty := by
  cases q with
  | empty => rfl
  | item b left right =>
    rw [next?, first?, Option.bind_eq_bind, Option.bind_some, Option.bind_eq_bind,
      Option.bind_eq_none_iff] at h
    cases hlast : (item b left right).last? with
    | none => exact eq_empty_of_last? hlast
    | some last => cases h last hlast

omit [Arithmetic ν] in
theorem byAge_perm (q : Queue α) : q.byAge.Perm q.toList := List.mergeSort_perm _ _

end Queue

end QuestionTree
