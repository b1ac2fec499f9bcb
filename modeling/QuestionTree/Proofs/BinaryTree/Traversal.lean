import QuestionTree.Proofs.BinaryTree.Height
import QuestionTree.Proofs.BinaryTree.Place
import Mathlib.Logic.Function.Iterate

/-!
# Traversals

A traversal takes the first subtree off a stack, visits its root and puts the children on the stack
in its place. `Node.Traversed` says what this comes to by recursion on the tree, whatever else is on
the stack: a subtree is finished before the next one is begun. The nodes are those at the places of
the tree, each visited once, and the places come in the order of their branches, where yes comes
before no and a node before those below it.
-/

namespace QuestionTree

namespace Node

variable {ι : Type}

/-! ### The nodes in order -/

/-- The nodes of a tree, each before those below it, and those below yes before those below no. -/
def listed : Node ι → List (Node ι)
  | leaf id info => [leaf id info]
  | internal id info yes no => internal id info yes no :: (yes.listed ++ no.listed)

/-- The number of edges on the longest way to a leaf, as the tree has it. -/
def longestWay : Node ι → Nat
  | leaf _ _ => 0
  | internal _ _ yes no => 1 + max yes.longestWay no.longestWay

theorem preorder_eq_listed (n : Node ι) : n.preorder = n.listed := by
  induction n with
  | leaf id info => exact preorder_leaf id info
  | internal id info yes no ihYes ihNo => rw [preorder_internal, ihYes, ihNo, listed]

theorem length_places (n : Node ι) : n.places.length = n.nodeCount := by
  rw [places, List.length_map, nodeCount, ← map_snd_placed, List.length_map]

/-! ### What is on the stack -/

/-- The stack after the first subtree was taken off and its children were put on. -/
def descend : List (Node ι) → List (Node ι)
  | [] => []
  | n :: stack => n.childList ++ stack

theorem head?_visit (stack : List (Node ι)) : (visit stack).head? = stack.head? := by
  cases stack with
  | nil => rw [visit]
  | cons n stack =>
    rw [visit]
    rfl

theorem visit_descend (stack : List (Node ι)) : visit (descend stack) = (visit stack).tail := by
  cases stack with
  | nil =>
    rw [descend, visit]
    rfl
  | cons n stack =>
    rw [visit]
    rfl

/-- After some steps those nodes are still to be visited that were not taken off by then. -/
theorem visit_iterate_descend (k : Nat) (stack : List (Node ι)) :
    visit (descend^[k] stack) = (visit stack).drop k := by
  induction k generalizing stack with
  | zero => rfl
  | succ k ih =>
    rw [Function.iterate_succ_apply, ih, visit_descend, ← List.drop_one, List.drop_drop,
      Nat.add_comm]

theorem visit_cons (n : Node ι) (stack : List (Node ι)) :
    visit (n :: stack) = n.listed ++ visit stack := by
  have happend : visit ([n] ++ stack) = visit [n] ++ visit stack := visit_append [n] stack
  rw [← preorder_eq_listed]
  exact happend

theorem depths_under (branch : Bool) (depth : Nat) (l : List (List Bool × Node ι)) :
    (l.map (under branch)).map (fun s => (s.2, depth + s.1.length)) =
      l.map fun s => (s.2, depth + 1 + s.1.length) := by
  rw [List.map_map]
  refine List.map_congr_left fun s _ => ?_
  rw [Function.comp_apply, under, List.length_cons, Nat.add_assoc, Nat.add_comm 1]

theorem visitDepths_single (n : Node ι) (depth : Nat) :
    visitDepths [(n, depth)] = n.placed.map fun s => (s.2, depth + s.1.length) := by
  induction n generalizing depth with
  | leaf id info => rw [visitDepths_leaf, placed, List.map_singleton, List.length_nil, Nat.add_zero]
  | internal id info yes no ihYes ihNo =>
    rw [visitDepths_internal, ihYes, ihNo, placed, List.map_cons, List.map_append, depths_under,
      depths_under]
    rfl

theorem visitDepths_cons (n : Node ι) (depth : Nat) (stack : List (Node ι × Nat)) :
    visitDepths ((n, depth) :: stack) =
      (n.placed.map fun s => (s.2, depth + s.1.length)) ++ visitDepths stack := by
  have happend : visitDepths ([(n, depth)] ++ stack) =
      visitDepths [(n, depth)] ++ visitDepths stack := visitDepths_append [(n, depth)] stack
  rw [← visitDepths_single]
  exact happend

/-! ### What traversals come to -/

theorem leaves_eq (n : Node ι) : n.leaves = n.listed.filter fun v => v.children?.isNone := by
  rw [leaves, preorder_eq_listed]
  rfl

theorem leafCount_internal (id : Nat) (info : ι) (yes no : Node ι) :
    (internal id info yes no).leafCount = yes.leafCount + no.leafCount := by
  rw [leafCount, leaves_internal, List.length_append, leafCount, leafCount]

theorem nodeCount_internal (id : Nat) (info : ι) (yes no : Node ι) :
    (internal id info yes no).nodeCount = 1 + (yes.nodeCount + no.nodeCount) := by
  rw [nodeCount, preorder_internal, List.length_cons, List.length_append, nodeCount, nodeCount,
    Nat.add_comm]

theorem leafCount_leaf (id : Nat) (info : ι) : (leaf id info).leafCount = 1 := by
  rw [leafCount, leaves_leaf, List.length_singleton]

theorem nodeCount_leaf (id : Nat) (info : ι) : (leaf id info).nodeCount = 1 := by
  rw [nodeCount, preorder_leaf, List.length_singleton]

/-- There is one inner node less than there are leaves. -/
theorem nodeCount_add_one (n : Node ι) : n.nodeCount + 1 = 2 * n.leafCount := by
  induction n with
  | leaf id info => rw [nodeCount_leaf, leafCount_leaf]
  | internal id info yes no ihYes ihNo =>
    rw [nodeCount_internal, leafCount_internal]
    omega

theorem nodeCount_eq_weight (n : Node ι) : n.nodeCount = n.weight := by
  induction n with
  | leaf id info => exact nodeCount_leaf id info
  | internal id info yes no ihYes ihNo =>
    rw [nodeCount_internal, ihYes, ihNo, weight, Nat.add_assoc]

theorem height_eq_longestWay (n : Node ι) : n.height = n.longestWay := by
  induction n with
  | leaf id info => exact height_leaf id info
  | internal id info yes no ihYes ihNo =>
    rw [height_internal, ihYes, ihNo, longestWay, Nat.add_comm]

/-- What the traversals of a tree come to. -/
structure Traversed (n : Node ι) : Prop where
  /-- All nodes of a subtree are visited before the rest of the stack. -/
  visit_cons : ∀ stack, visit (n :: stack) = n.listed ++ visit stack
  preorder_eq : n.preorder = n.listed
  /-- The node that a step takes off the stack is the next one, until there is none. -/
  next_eq : ∀ k, (descend^[k] [n]).head? = n.listed[k]?
  /-- The nodes are those at the places of the tree, in the order of the places. -/
  at_places : n.preorder.map some = n.places.map n.at?
  mem_places_iff : ∀ place, place ∈ n.places ↔ (n.at? place).isSome = true
  nodup_places : n.places.Nodup
  before : n.places.Pairwise Before
  /-- The leaves are the nodes without children, in the same order. -/
  leaves_eq : n.leaves = n.preorder.filter fun v => v.children?.isNone
  nodeCount_eq : n.nodeCount = 2 * n.leafCount - 1
  leafCount_pos : 0 < n.leafCount
  /-- The depths that are noted on the stack are those of the places. -/
  visitDepths_cons : ∀ depth stack, visitDepths ((n, depth) :: stack) =
    (n.placed.map fun s => (s.2, depth + s.1.length)) ++ visitDepths stack
  height_eq : n.height = n.longestWay

theorem map_at?_places (n : Node ι) : n.places.map n.at? = n.preorder.map some := by
  rw [places, ← map_snd_placed, List.map_map, List.map_map]
  exact List.map_congr_left fun s hs => mem_placed_iff.1 hs

theorem head?_iterate_descend (n : Node ι) (k : Nat) :
    (descend^[k] [n]).head? = n.listed[k]? := by
  rw [← head?_visit, visit_iterate_descend, List.head?_drop, visit_cons, visit, List.append_nil]

/-- The traversals with a stack are the recursion on the tree. -/
theorem traversed (n : Node ι) : n.Traversed where
  visit_cons := n.visit_cons
  preorder_eq := n.preorder_eq_listed
  next_eq := n.head?_iterate_descend
  at_places := n.map_at?_places.symm
  mem_places_iff _ := mem_places_iff
  nodup_places := n.nodup_places
  before := n.pairwise_places
  leaves_eq := by rw [preorder_eq_listed, leaves_eq]
  nodeCount_eq := Nat.eq_sub_of_add_eq n.nodeCount_add_one
  leafCount_pos := by
    have hcount := n.nodeCount_add_one
    omega
  visitDepths_cons := n.visitDepths_cons
  height_eq := n.height_eq_longestWay

end Node

end QuestionTree
