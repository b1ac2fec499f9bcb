import QuestionTree.Number.Binary64

/-!
# Queues by gain

What waits in a queue is ranked by its gain, and among equal gains the older one comes first. The
queue is a heap: a binary tree whose levels are filled one after the other from the left, and in
which no item ranks behind one below it. The shape of the heap decides the order of items of one
priority.
-/

namespace QuestionTree

/-- What decides the order of service. -/
structure Priority (ν : Type) where
  gain : ν
  order : Nat

instance {ν : Type} [Arithmetic ν] : Ord (Priority ν) where
  compare a b := (compare a.gain b.gain).then (compare b.order a.order)

class Prioritized (α : Type) (ν : outParam Type) where
  priority : α → Priority ν

instance {α ν : Type} : Prioritized (Priority ν × α) ν := ⟨Prod.fst⟩

/-- Items in a tree, those that are served earlier above. -/
inductive Queue (α : Type) where
  | empty
  | item (first : α) (left right : Queue α)

namespace Queue

section Shape

variable {α : Type}

def size : Queue α → Nat
  | empty => 0
  | item _ left right => left.size + right.size + 1

def height : Queue α → Nat
  | empty => 0
  | item _ left right => max left.height right.height + 1

def fullHeight : Queue α → Nat
  | empty => 0
  | item _ left right => min left.fullHeight right.fullHeight + 1

def first? : Queue α → Option α
  | empty => none
  | item a _ _ => some a

/-- The items of each level from left to right, from the top level to the lowest. -/
def levels : Queue α → List (List α)
  | empty => []
  | item a left right =>
    [a] :: List.zipWithAll (fun xs ys => xs.getD [] ++ ys.getD []) left.levels right.levels

def toList (q : Queue α) : List α := q.levels.flatten

/-- The rightmost item of the lowest level, and the queue of the others. -/
def last? : Queue α → Option (α × Queue α)
  | empty => none
  | item a left right =>
    if right.height < left.height then
      left.last?.map fun (b, left) => (b, item a left right)
    else
      match right.last? with
      | some (b, right) => some (b, item a left right)
      | none => some (a, left)

end Shape

variable {α ν : Type} [Arithmetic ν] [Prioritized α ν]

def rank (a b : α) : Ordering := compare (Prioritized.priority a) (Prioritized.priority b)

/-- Of an item and the first one of a queue that it stands above, the one that belongs above, and
the queue with the other one in the first place. The item stays above its equals. -/
def exchange (a : α) : Queue α → α × Queue α
  | empty => (a, empty)
  | item b left right =>
    if rank a b == .lt then (b, item a left right) else (a, item b left right)

/-- Adds an item in the first gap, and lifts it above those that rank behind it. -/
def insert (a : α) : Queue α → Queue α
  | empty => item a empty empty
  | item b left right =>
    if left.fullHeight ≤ right.fullHeight then
      let (top, left) := exchange b (left.insert a)
      item top left right
    else
      let (top, right) := exchange b (right.insert a)
      item top left right

/-- Whether the first item of the left one of two queues ranks before that of the right one. -/
def leftLeads (left right : Queue α) : Bool :=
  match left.first?, right.first? with
  | some b, some c => rank b c == .gt
  | some _, none => true
  | none, _ => false

/-- The queue with another item in place of the first one. The item sinks below those that do not
rank behind it, on the side whose first item ranks before the other one, and on the right side if
they are equal. -/
def replaceFirst (a : α) : Queue α → Queue α
  | empty => empty
  | item _ left right =>
    match (if leftLeads left right then left else right).first? with
    | none => item a left right
    | some b =>
      if rank b a == .lt then item a left right
      else if leftLeads left right then item b (left.replaceFirst a) right
      else item b left (right.replaceFirst a)

/-- The item that is served next, and the queue of the others, of which the last one takes its
place. -/
def next? (q : Queue α) : Option (α × Queue α) := do
  let a ← q.first?
  let (b, rest) ← q.last?
  return (a, rest.replaceFirst b)

/-- All items by age; items of one age keep the order of the levels. -/
def byAge (q : Queue α) : List α :=
  q.toList.mergeSort fun a b =>
    decide ((Prioritized.priority a).order ≤ (Prioritized.priority b).order)

theorem size_exchange (a : α) (q : Queue α) : (exchange a q).2.size = q.size := by
  cases q with
  | empty => rfl
  | item b left right =>
    simp only [exchange]
    split <;> rfl

@[simp] theorem size_insert (q : Queue α) (a : α) : (q.insert a).size = q.size + 1 := by
  induction q with
  | empty => rfl
  | item b left right ihLeft ihRight =>
    simp only [insert]
    split
    · simp only [size, size_exchange, ihLeft]
      omega
    · simp only [size, size_exchange, ihRight]
      omega

@[simp] theorem size_replaceFirst (q : Queue α) (a : α) : (q.replaceFirst a).size = q.size := by
  induction q with
  | empty => rfl
  | item b left right ihLeft ihRight =>
    simp only [replaceFirst]
    split
    · rfl
    · split
      · rfl
      · split
        · simp only [size, ihLeft]
        · simp only [size, ihRight]

omit [Arithmetic ν] [Prioritized α ν] in
theorem eq_empty_of_last? {q : Queue α} (h : q.last? = none) : q = empty := by
  induction q with
  | empty => rfl
  | item b left right ihLeft _ =>
    simp only [last?] at h
    split at h
    · rename_i hheight
      rw [ihLeft (Option.map_eq_none_iff.1 h)] at hheight
      simp [height] at hheight
    · split at h <;> simp at h

omit [Arithmetic ν] [Prioritized α ν] in
theorem size_of_last? {q q' : Queue α} {a : α} (h : q.last? = some (a, q')) :
    q.size = q'.size + 1 := by
  induction q generalizing a q' with
  | empty => simp [last?] at h
  | item b left right ihLeft ihRight =>
    simp only [last?] at h
    split at h
    · obtain ⟨⟨c, rest⟩, hrest, heq⟩ := Option.map_eq_some_iff.1 h
      cases heq
      simp only [size, ihLeft hrest]
      omega
    · split at h
      · rename_i hrest
        cases h
        simp only [size, ihRight hrest]
        omega
      · rename_i hrest
        cases h
        simp [size, eq_empty_of_last? hrest]

theorem size_of_next? {q q' : Queue α} {a : α} (h : q.next? = some (a, q')) :
    q.size = q'.size + 1 := by
  cases q with
  | empty => simp [next?, first?] at h
  | item b left right =>
    obtain ⟨⟨c, rest⟩, hlast, heq⟩ := Option.bind_eq_some_iff.1 h
    cases heq
    rw [size_of_last? hlast, size_replaceFirst]

end Queue

end QuestionTree
