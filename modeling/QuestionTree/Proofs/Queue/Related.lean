import QuestionTree.Growth.Queue
import Mathlib.Data.List.Forall2

/-!
# Queues of related items

A queue looks at nothing but the priorities of its items. A function that keeps them can be applied
to the items before or after any operation, as the equations for `Queue.map` say. Hence two queues
that hold items of equal priority in the same places do so after the same operations, too: they are
the two sides of one queue of pairs.
-/

namespace QuestionTree

namespace Queue

section Shape

variable {α β : Type}

/-- The queue with a function applied to every item. -/
def map (f : α → β) : Queue α → Queue β
  | empty => empty
  | item a left right => item (f a) (left.map f) (right.map f)

variable (f : α → β)

@[simp] theorem size_map (q : Queue α) : (q.map f).size = q.size := by
  induction q with
  | empty => rfl
  | item a left right ihLeft ihRight => rw [map, size, size, ihLeft, ihRight]

@[simp] theorem height_map (q : Queue α) : (q.map f).height = q.height := by
  induction q with
  | empty => rfl
  | item a left right ihLeft ihRight => rw [map, height, height, ihLeft, ihRight]

@[simp] theorem fullHeight_map (q : Queue α) : (q.map f).fullHeight = q.fullHeight := by
  induction q with
  | empty => rfl
  | item a left right ihLeft ihRight => rw [map, fullHeight, fullHeight, ihLeft, ihRight]

@[simp] theorem first?_map (q : Queue α) : (q.map f).first? = q.first?.map f := by
  cases q <;> rfl

theorem zipWithAll_map (xs ys : List (List α)) :
    List.zipWithAll (fun x y => x.getD [] ++ y.getD []) (xs.map (List.map f))
        (ys.map (List.map f)) =
      (List.zipWithAll (fun x y => x.getD [] ++ y.getD []) xs ys).map (List.map f) := by
  induction xs generalizing ys with
  | nil => simp [List.zipWithAll]
  | cons x xs ih =>
    cases ys with
    | nil => simp [List.zipWithAll]
    | cons y ys => simp [List.zipWithAll, ih]

@[simp] theorem levels_map (q : Queue α) : (q.map f).levels = q.levels.map (List.map f) := by
  induction q with
  | empty => rfl
  | item a left right ihLeft ihRight =>
    rw [map, levels, levels, ihLeft, ihRight, zipWithAll_map]
    rfl

@[simp] theorem toList_map (q : Queue α) : (q.map f).toList = q.toList.map f := by
  rw [toList, levels_map, toList, List.map_flatten]

theorem last?_map (q : Queue α) :
    (q.map f).last? = q.last?.map fun (a, rest) => (f a, rest.map f) := by
  induction q with
  | empty => rfl
  | item a left right ihLeft ihRight =>
    simp only [map, last?, height_map, ihLeft, ihRight, Option.map_map]
    split
    · cases left.last? <;> rfl
    · cases right.last? <;> rfl

end Shape

variable {α β ν : Type} [Arithmetic ν] [Prioritized α ν] [Prioritized β ν] {f : α → β}

section Naturality

variable (hf : ∀ a, Prioritized.priority (f a) = Prioritized.priority a)
include hf

theorem rank_map (a b : α) : rank (f a) (f b) = rank a b := by rw [rank, rank, hf, hf]

theorem exchange_map (a : α) (q : Queue α) :
    exchange (f a) (q.map f) = (f (exchange a q).1, (exchange a q).2.map f) := by
  cases q with
  | empty => rfl
  | item b left right =>
    simp only [map, exchange, rank_map hf]
    split <;> rfl

theorem insert_map (a : α) (q : Queue α) : (q.map f).insert (f a) = (q.insert a).map f := by
  induction q with
  | empty => rfl
  | item b left right ihLeft ihRight =>
    simp only [map, insert, fullHeight_map, ihLeft, ihRight, exchange_map hf]
    split <;> rfl

theorem leftLeads_map (left right : Queue α) :
    leftLeads (left.map f) (right.map f) = leftLeads left right := by
  rw [leftLeads, leftLeads, first?_map, first?_map]
  cases left.first? <;> cases right.first? <;> simp [rank_map hf]

theorem replaceFirst_map (a : α) (q : Queue α) :
    (q.map f).replaceFirst (f a) = (q.replaceFirst a).map f := by
  induction q with
  | empty => rfl
  | item b left right ihLeft ihRight =>
    have hside : (if leftLeads left right then left.map f else right.map f).first? =
        (if leftLeads left right then left else right).first?.map f := by
      split <;> exact first?_map f _
    simp only [map, replaceFirst, leftLeads_map hf, hside]
    cases (if leftLeads left right then left else right).first? with
    | none => rfl
    | some c =>
      simp only [Option.map_some, rank_map hf, ihLeft, ihRight]
      split
      · rfl
      · split <;> rfl

theorem next?_map (q : Queue α) :
    (q.map f).next? = q.next?.map fun (a, rest) => (f a, rest.map f) := by
  cases q with
  | empty => rfl
  | item a left right =>
    have hlast := last?_map f (item a left right)
    simp only [map] at hlast
    simp only [next?, map, first?, hlast, Option.bind_eq_bind, Option.bind_some]
    cases (item a left right).last? with
    | none => rfl
    | some last => simp only [Option.map_some, Option.bind_some, replaceFirst_map hf]; rfl

omit [Arithmetic ν] in
theorem byAge_map (q : Queue α) : (q.map f).byAge = q.byAge.map f := by
  rw [byAge, byAge, toList_map]
  refine (List.map_mergeSort ?_).symm
  intro a _ b _
  rw [hf, hf]

end Naturality

/-! ### Related items -/

/-- Whether two queues hold related items in the same places. -/
def Related (R : α → β → Prop) (q : Queue α) (q' : Queue β) : Prop :=
  ∃ pairs : Queue {p : α × β // R p.1 p.2}, pairs.map (·.1.1) = q ∧ pairs.map (·.1.2) = q'

/-- A pair of related items has the priority of the first one. -/
instance {R : α → β → Prop} : Prioritized {p : α × β // R p.1 p.2} ν :=
  ⟨fun p => Prioritized.priority p.1.1⟩

theorem related_empty (R : α → β → Prop) : Related R empty empty := ⟨empty, rfl, rfl⟩

namespace Related

variable {R : α → β → Prop} {q : Queue α} {q' : Queue β}

theorem size_eq (h : Related R q q') : q.size = q'.size := by
  obtain ⟨pairs, rfl, rfl⟩ := h
  rw [size_map, size_map]

omit [Arithmetic ν] [Prioritized β ν] in
theorem priority_left (p : {p : α × β // R p.1 p.2}) :
    Prioritized.priority p.1.1 = Prioritized.priority p := rfl

variable (hR : ∀ a b, R a b → Prioritized.priority a = Prioritized.priority b)
include hR

omit [Arithmetic ν] in
theorem priority_right (p : {p : α × β // R p.1 p.2}) :
    Prioritized.priority p.1.2 = Prioritized.priority p := (hR _ _ p.2).symm

theorem insert (h : Related R q q') {a : α} {b : β} (hab : R a b) :
    Related R (q.insert a) (q'.insert b) := by
  obtain ⟨pairs, rfl, rfl⟩ := h
  refine ⟨pairs.insert ⟨(a, b), hab⟩, ?_, ?_⟩
  · exact (insert_map priority_left _ pairs).symm
  · exact (insert_map (priority_right hR) _ pairs).symm

theorem next? (h : Related R q q') :
    Option.Rel (fun s s' => R s.1 s'.1 ∧ Related R s.2 s'.2) q.next? q'.next? := by
  obtain ⟨pairs, rfl, rfl⟩ := h
  rw [next?_map priority_left, next?_map (priority_right hR)]
  cases pairs.next? with
  | none => exact .none
  | some served => exact .some ⟨served.1.2, served.2, rfl, rfl⟩

omit [Arithmetic ν] in
theorem byAge (h : Related R q q') : List.Forall₂ R q.byAge q'.byAge := by
  obtain ⟨pairs, rfl, rfl⟩ := h
  rw [byAge_map priority_left, byAge_map (priority_right hR), List.forall₂_map_left_iff,
    List.forall₂_map_right_iff, List.forall₂_same]
  exact fun p _ => p.2

end Related

end Queue

end QuestionTree
