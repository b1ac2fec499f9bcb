import QuestionTree.Question
import Mathlib.Data.List.Forall2

/-!
# Pools with a table of indices

A pool of questions can find the index of a handle in a table that is kept beside its members. A
push appends the handle to the members, and enters its tag into the table unless the tag is there
already. So the table tells where a tag stands first, and never changes what it tells. Pools are
made of handles, copied and pushed to in any order. Whatever was done, a pool holds what was pushed
to it and answers by that, and pools leave each other alone even where they hold the same handles.
-/

namespace QuestionTree

/-- Whether a handle is told from some others by its tag, as it is while all of them are alive. -/
def Handle.LiveAmong {α : Type} (q : Handle α) (held : List (Handle α)) : Prop :=
  ∀ m ∈ held, m.tag = q.tag → m = q

/-- A pool with a table that tells the indices of tags. -/
structure IndexedPool where
  members : List (Handle Question)
  table : Std.HashMap Nat Nat

namespace IndexedPool

def empty : IndexedPool := ⟨[], ∅⟩

/-- The index that a handle is given, and the pool with the handle. -/
def push (p : IndexedPool) (q : Handle Question) : Nat × IndexedPool :=
  let index := p.members.length
  (index, ⟨p.members ++ [q], p.table.insertIfNew q.tag index⟩)

/-- The pool after some handles were pushed one after the other. -/
def pushAll (p : IndexedPool) (qs : List (Handle Question)) : IndexedPool :=
  qs.foldl (fun p q => (p.push q).2) p

def collect (qs : List (Handle Question)) : IndexedPool := empty.pushAll qs

def indexOf? (p : IndexedPool) (q : Handle Question) : Option Nat := p.table[q.tag]?

def get? (p : IndexedPool) (index : Nat) : Option (Handle Question) := p.members[index]?

/-- The pool without the table. -/
def plain (p : IndexedPool) : QuestionPool := ⟨p.members⟩

variable {p : IndexedPool} {q : Handle Question} {log : List (Handle Question)}

/-- Whether the table tells where each tag stands first, and has no other tags. -/
def Indexes (p : IndexedPool) : Prop :=
  ∀ tag, p.table[tag]? = p.members.findIdx? fun m => m.tag == tag

theorem indexes_empty : empty.Indexes := fun _ => Std.HashMap.getElem?_empty

/-- A tag that is entered already keeps its index. -/
theorem Indexes.push (h : p.Indexes) (q : Handle Question) : (p.push q).2.Indexes := by
  intro tag
  have htable := h tag
  rw [IndexedPool.push, Std.HashMap.getElem?_insertIfNew, List.findIdx?_append]
  cases hfound : p.members.findIdx? fun m => m.tag == tag with
  | some i =>
    rw [hfound] at htable
    rw [Option.some_or, if_neg, htable]
    rintro ⟨heq, hnew⟩
    rw [beq_iff_eq.1 heq, Std.HashMap.mem_iff_isSome_getElem?, htable] at hnew
    exact hnew rfl
  | none =>
    rw [hfound] at htable
    have hnew : tag ∉ p.table := by
      rw [Std.HashMap.mem_iff_isSome_getElem?, htable]
      exact Bool.false_ne_true
    rw [Option.none_or, htable, List.findIdx?_singleton]
    by_cases heq : q.tag = tag
    · rw [heq]
      simp [hnew]
    · simp [heq]

theorem Indexes.pushAll (h : p.Indexes) (qs : List (Handle Question)) : (p.pushAll qs).Indexes := by
  induction qs generalizing p with
  | nil => exact h
  | cons q qs ih => exact ih (h.push q)

theorem members_pushAll (p : IndexedPool) (qs : List (Handle Question)) :
    (p.pushAll qs).members = p.members ++ qs := by
  induction qs generalizing p with
  | nil => exact (List.append_nil _).symm
  | cons q qs ih =>
    rw [pushAll, List.foldl_cons, ← pushAll, ih]
    exact List.append_assoc p.members [q] qs

/-- The library's search through the members finds the same index. -/
theorem Indexes.indexOf?_eq (h : p.Indexes) (q : Handle Question) :
    p.indexOf? q = p.plain.indexOf? q := h q.tag

theorem Indexes.indexOf?_eq_some_iff (h : p.Indexes) (hq : q.LiveAmong p.members) {i : Nat} :
    p.indexOf? q = some i ↔ p.get? i = some q ∧ ∀ j < i, p.get? j ≠ some q := by
  have htag : ∀ j (hj : j < p.members.length), (p.members[j].tag == q.tag) = true ↔
      p.get? j = some q := by
    intro j hj
    rw [beq_iff_eq, get?, List.getElem?_eq_getElem hj, Option.some_inj]
    exact ⟨hq _ (List.getElem_mem hj), fun heq => congrArg Handle.tag heq⟩
  rw [indexOf?, h q.tag, List.findIdx?_eq_some_iff_getElem]
  constructor
  · rintro ⟨hi, hfound, hfirst⟩
    exact ⟨(htag i hi).1 hfound, fun j hj heq => hfirst j hj ((htag j (by omega)).2 heq)⟩
  · rintro ⟨hfound, hfirst⟩
    obtain ⟨hi, _⟩ := List.getElem?_eq_some_iff.1 hfound
    exact ⟨hi, (htag i hi).2 hfound, fun j hj heq => hfirst j hj ((htag j (by omega)).1 heq)⟩

theorem Indexes.indexOf?_eq_none_iff (h : p.Indexes) (hq : q.LiveAmong p.members) :
    p.indexOf? q = none ↔ q ∉ p.members := by
  rw [indexOf?, h q.tag, List.findIdx?_eq_none_iff]
  constructor
  · intro hnone hmem
    exact absurd (hnone q hmem) (by simp)
  · intro hnot m hm
    refine beq_eq_false_iff_ne.2 fun heq => hnot ?_
    rw [← hq m hm heq]
    exact hm

/-- What a pool answers after some handles were pushed to it. -/
structure Answers (p : IndexedPool) (log : List (Handle Question)) : Prop where
  get?_eq : ∀ i, p.get? i = log[i]?
  /-- A handle is found at the index that it is given, and the others stay where they are. -/
  push_eq : ∀ q, (p.push q).2.get? (p.push q).1 = some q ∧
    ∀ i ≠ (p.push q).1, (p.push q).2.get? i = p.get? i
  /-- The index of a handle is the first one at which it is found. -/
  index_iff : ∀ q : Handle Question, q.LiveAmong log → ∀ i,
    p.indexOf? q = some i ↔ p.get? i = some q ∧ ∀ j < i, p.get? j ≠ some q
  /-- A handle that was never pushed has no index. -/
  index_none_iff : ∀ q : Handle Question, q.LiveAmong log → (p.indexOf? q = none ↔ q ∉ log)
  /-- An index stays the same whatever is pushed later. -/
  index_pushAll : ∀ q i, p.indexOf? q = some i → ∀ qs, (p.pushAll qs).indexOf? q = some i
  /-- The pool without the table answers the same. -/
  plain_eq : ∀ q, p.indexOf? q = p.plain.indexOf? q ∧ (p.push q).2.plain = p.plain.push q ∧
    (p.push q).1 = p.plain.size

theorem get?_push (p : IndexedPool) (q : Handle Question) :
    (p.push q).2.get? (p.push q).1 = some q ∧
      ∀ i ≠ (p.push q).1, (p.push q).2.get? i = p.get? i := by
  refine ⟨List.getElem?_concat_length, fun i hi => ?_⟩
  show (p.members ++ [q])[i]? = p.members[i]?
  rcases Nat.lt_or_gt_of_ne hi with hlt | hgt
  · exact List.getElem?_append_left hlt
  · rw [List.getElem?_eq_none (Nat.le_of_lt hgt), List.getElem?_eq_none]
    rw [List.length_append, List.length_singleton]
    exact hgt

theorem Indexes.answers (h : p.Indexes) : p.Answers p.members where
  get?_eq _ := rfl
  push_eq := p.get?_push
  index_iff _ hq _ := h.indexOf?_eq_some_iff hq
  index_none_iff _ hq := h.indexOf?_eq_none_iff hq
  index_pushAll q i hi qs := by
    rw [indexOf?, h q.tag] at hi
    rw [indexOf?, h.pushAll qs q.tag, members_pushAll, List.findIdx?_append, hi, Option.some_or]
  plain_eq q := ⟨h.indexOf?_eq q, rfl, rfl⟩

end IndexedPool

/-! ### Pools that are made, copied and pushed to -/

/-- The pools that there are, in the order in which they came about. -/
abbrev PoolShelf := List IndexedPool

namespace PoolShelf

/-- What is done to the pools. -/
inductive Move where
  | collect (qs : List (Handle Question))
  | clone (i : Nat)
  | push (i : Nat) (q : Handle Question)

/-- The pools after a move. -/
def apply (s : PoolShelf) : Move → PoolShelf
  | .collect qs => s ++ [.collect qs]
  | .clone i => s ++ s[i]?.toList
  | .push i q => s.modify i fun p => (p.push q).2

def applyAll (s : PoolShelf) (moves : List Move) : PoolShelf := moves.foldl apply s

/-- The handles that were pushed to each pool. A copy begins with those of its original. -/
def record (logs : List (List (Handle Question))) : Move → List (List (Handle Question))
  | .collect qs => logs ++ [qs]
  | .clone i => logs ++ logs[i]?.toList
  | .push i q => logs.modify i (· ++ [q])

def recordAll (logs : List (List (Handle Question))) (moves : List Move) :
    List (List (Handle Question)) := moves.foldl record logs

/-- The handle that a move pushes to the pool at a place. -/
def Move.pushed? (j : Nat) : Move → Option (Handle Question)
  | .push i q => if i = j then some q else none
  | .collect _ | .clone _ => none

variable {s : PoolShelf} {p : IndexedPool} {m : Move} {j : Nat}

theorem members_apply (s : PoolShelf) (m : Move) :
    (s.apply m).map IndexedPool.members = record (s.map IndexedPool.members) m := by
  cases m with
  | collect qs =>
    rw [apply, record, List.map_append, List.map_singleton, IndexedPool.collect,
      IndexedPool.members_pushAll]
    rfl
  | clone i =>
    rw [apply, record, List.map_append, List.getElem?_map]
    cases s[i]? <;> rfl
  | push i q =>
    refine List.ext_getElem? fun j => ?_
    rw [apply, record, List.getElem?_map, List.getElem?_modify, List.getElem?_modify,
      List.getElem?_map]
    cases s[j]? with
    | none => rfl
    | some p => by_cases hij : i = j <;> simp [hij, IndexedPool.push]

theorem members_applyAll (s : PoolShelf) (moves : List Move) :
    (s.applyAll moves).map IndexedPool.members = recordAll (s.map IndexedPool.members) moves := by
  induction moves generalizing s with
  | nil => rfl
  | cons m moves ih =>
    rw [applyAll, List.foldl_cons, ← applyAll, ih, members_apply]
    rfl

theorem indexes_apply (hs : ∀ p ∈ s, p.Indexes) (m : Move) : ∀ p ∈ s.apply m, p.Indexes := by
  cases m with
  | collect qs =>
    refine List.forall_mem_append.2 ⟨hs, List.forall_mem_singleton.2 ?_⟩
    exact IndexedPool.indexes_empty.pushAll qs
  | clone i =>
    refine List.forall_mem_append.2 ⟨hs, fun p hp => hs p ?_⟩
    exact List.mem_of_getElem? (Option.mem_toList.1 hp)
  | push i q =>
    intro p hp
    obtain ⟨j, hj⟩ := List.mem_iff_getElem?.1 hp
    rw [apply, List.getElem?_modify] at hj
    obtain ⟨before, hbefore, rfl⟩ := Option.map_eq_some_iff.1 hj
    have hindexes := hs before (List.mem_of_getElem? hbefore)
    split
    · exact hindexes.push q
    · exact hindexes

theorem indexes_applyAll (hs : ∀ p ∈ s, p.Indexes) (moves : List Move) :
    ∀ p ∈ s.applyAll moves, p.Indexes := by
  induction moves generalizing s with
  | nil => exact hs
  | cons m moves ih => exact ih (indexes_apply hs m)

theorem getElem?_apply (hp : s[j]? = some p) (m : Move) :
    (s.apply m)[j]? = some (p.pushAll (m.pushed? j).toList) := by
  cases m with
  | collect _ | clone _ =>
    rw [apply, List.getElem?_append_left (List.getElem?_eq_some_iff.1 hp).1, hp]
    rfl
  | push i q =>
    rw [apply, List.getElem?_modify, hp]
    show some (if i = j then (p.push q).2 else p) =
      some (p.pushAll (if i = j then some q else none).toList)
    split <;> rfl

theorem getElem?_applyAll (hp : s[j]? = some p) (moves : List Move) :
    (s.applyAll moves)[j]? = some (p.pushAll (moves.filterMap (Move.pushed? j))) := by
  induction moves generalizing s p with
  | nil => exact hp
  | cons m moves ih =>
    rw [applyAll, List.foldl_cons, ← applyAll, ih (getElem?_apply hp m), List.filterMap_cons]
    cases m.pushed? j <;> rfl

/-- What is true of pools to which some handles were pushed. -/
structure Kept (s : PoolShelf) (logs : List (List (Handle Question))) : Prop where
  answers : List.Forall₂ IndexedPool.Answers s logs
  /-- A pool goes by what is pushed to it, and stays as it is while nothing is. -/
  apart : ∀ (j : Nat) (p : IndexedPool), s[j]? = some p → ∀ moves : List Move,
    (s.applyAll moves)[j]? = some (p.pushAll (moves.filterMap (Move.pushed? j))) ∧
      ((∀ m ∈ moves, m.pushed? j = none) → (s.applyAll moves)[j]? = some p)
  /-- A copy is equal to its original, and from then on each goes by what is pushed to it. -/
  copied : ∀ (i : Nat) (p : IndexedPool), s[i]? = some p → s.apply (.clone i) = s ++ [p] ∧
    ∀ moves : List Move, let later := (s.apply (.clone i)).applyAll moves
      later[i]? = some (p.pushAll (moves.filterMap (Move.pushed? i))) ∧
        later[s.length]? = some (p.pushAll (moves.filterMap (Move.pushed? s.length)))

theorem kept_of_indexes (hs : ∀ p ∈ s, p.Indexes) : s.Kept (s.map IndexedPool.members) where
  answers := by
    rw [List.forall₂_map_right_iff]
    exact List.forall₂_same.2 fun p hp => (hs p hp).answers
  apart j p hp moves := by
    have hmoves := getElem?_applyAll hp moves
    refine ⟨hmoves, fun hnone => ?_⟩
    rw [hmoves, List.filterMap_eq_nil_iff.2 hnone]
    rfl
  copied i p hp := by
    have hclone : s.apply (.clone i) = s ++ [p] := by
      rw [apply, hp]
      rfl
    refine ⟨hclone, fun moves => ⟨getElem?_applyAll ?_ moves, getElem?_applyAll ?_ moves⟩⟩
    · exact getElem?_apply hp (.clone i)
    · rw [hclone, List.getElem?_concat_length]

/-- Pools answer by what was pushed to them, whatever was done, and leave each other alone. -/
theorem pools_kept (moves : List Move) : Kept (applyAll [] moves) (recordAll [] moves) := by
  have hrecord := members_applyAll [] moves
  rw [List.map_nil] at hrecord
  rw [← hrecord]
  exact kept_of_indexes (indexes_applyAll (List.forall_mem_nil _) moves)

end PoolShelf

end QuestionTree
