import QuestionTree.Proofs.Queue.Order
import Mathlib.Data.List.Sort

/-!
# Heaps

What is asked of a heap is that it holds what was put in and serves an item that no other one ranks
before. How it keeps its items, which one of several equals it serves and in which order it gives
them all away is its own affair. The queue by gain is a heap, and so is a list in the order of
service.
-/

namespace QuestionTree

variable {α ν : Type} [Arithmetic ν] [Prioritized α ν]

/-- An implementation of a queue. -/
structure Heap (α : Type) {ν : Type} [Arithmetic ν] [Prioritized α ν] where
  Store : Type
  empty : Store
  insert : α → Store → Store
  next? : Store → Option (α × Store)
  size : Store → Nat
  /-- All items, in any order. -/
  drain : Store → List α
  size_eq (s : Store) : size s = (drain s).length
  drain_empty : drain empty = []
  drain_insert (a : α) (s : Store) : (drain (insert a s)).Perm (a :: drain s)
  /-- Nothing that is left ranks before what is served. -/
  served {s s' : Store} {a : α} (h : next? s = some (a, s')) :
    (drain s).Perm (a :: drain s') ∧ ∀ b ∈ drain s', (Queue.rank b a).isLE
  /-- Only an empty store has nothing to serve. -/
  exhausted {s : Store} (h : next? s = none) : drain s = []

variable [Std.TransOrd ν]

namespace Queue

/-- The item that is served next, and the queue of the others, which is heaped as well. -/
def nextHeaped? (q : { q : Queue α // q.Heaped }) : Option (α × { q : Queue α // q.Heaped }) :=
  q.1.next?.pmap (fun s h => (s.1, ⟨s.2, h⟩)) fun _ h => (served_of_next? q.2 h).1

theorem map_nextHeaped? (q : { q : Queue α // q.Heaped }) :
    (nextHeaped? q).map (fun s => (s.1, s.2.1)) = q.1.next? := by
  rw [nextHeaped?, Option.map_pmap]
  exact (Option.pmap_eq_map ..).trans Option.map_id'

/-- The queue by gain, which gives its items away by age. -/
def heap (α : Type) {ν : Type} [Arithmetic ν] [Prioritized α ν] [Std.TransOrd ν] : Heap α where
  Store := { q : Queue α // q.Heaped }
  empty := ⟨.empty, trivial⟩
  insert a q := ⟨q.1.insert a, heaped_insert q.2 a⟩
  next? := nextHeaped?
  size q := q.1.size
  drain q := q.1.byAge
  size_eq q := by
    rw [q.1.byAge_perm.length_eq, ← card_items, items, Multiset.coe_card]
  drain_empty := List.mergeSort_nil
  drain_insert a q := by
    refine (byAge_perm _).trans ((Multiset.coe_eq_coe.1 (items_insert q.1 a)).trans ?_)
    exact (q.1.byAge_perm.cons a).symm
  served {q q' a} h := by
    have hnext := map_nextHeaped? q
    rw [h, Option.map_some] at hnext
    obtain ⟨_, hserved⟩ := served_of_next? q.2 hnext.symm
    refine ⟨?_, fun b hb => hserved b (Multiset.mem_coe.2 (q'.1.byAge_perm.mem_iff.1 hb))⟩
    refine (byAge_perm _).trans ((Multiset.coe_eq_coe.1 (items_of_next? hnext.symm)).trans ?_)
    exact (q'.1.byAge_perm.cons a).symm
  exhausted {q} h := by
    have hnext := map_nextHeaped? q
    rw [h, Option.map_none] at hnext
    rw [eq_empty_of_next? hnext.symm]
    exact List.mergeSort_nil

end Queue

/-! ### Lists in the order of service -/

namespace Heap

/-- Whether no item ranks before another one. -/
def Leads (a b : α) : Prop := (Queue.rank b a).isLE

instance (a b : α) : Decidable (Leads a b) := inferInstanceAs (Decidable (_ = true))

instance : Std.Total (Leads : α → α → Prop) where
  total a b := by
    by_cases hlt : Queue.rank b a = .lt
    · exact .inl (Ordering.isLE_of_eq_lt hlt)
    · exact .inr (Queue.isLE_of_ne_lt hlt)

instance : IsTrans α Leads where
  trans _ _ _ hab hbc := Queue.isLE_trans hbc hab

/-- A list in the order of service, which gives its items away from the last one to the first. -/
def line (α : Type) {ν : Type} [Arithmetic ν] [Prioritized α ν] [Std.TransOrd ν] : Heap α where
  Store := { l : List α // l.Pairwise Leads }
  empty := ⟨[], .nil⟩
  insert a l := ⟨l.1.orderedInsert Leads a, l.2.orderedInsert a l.1⟩
  next?
    | ⟨[], _⟩ => none
    | ⟨a :: l, h⟩ => some (a, ⟨l, h.tail⟩)
  size l := l.1.length
  drain l := l.1.reverse
  size_eq l := List.length_reverse.symm
  drain_empty := rfl
  drain_insert a l := by
    refine (List.reverse_perm _).trans ((List.perm_orderedInsert Leads a l.1).trans ?_)
    exact (List.reverse_perm l.1).symm.cons a
  served {l l' a} h := by
    match l, h with
    | ⟨b :: rest, hline⟩, h =>
      cases h
      refine ⟨(List.reverse_perm _).trans ((List.reverse_perm rest).symm.cons _), fun c hc => ?_⟩
      exact List.rel_of_pairwise_cons hline (List.mem_reverse.1 hc)
  exhausted {l} h := by
    match l, h with
    | ⟨[], _⟩, _ => rfl

end Heap

end QuestionTree
