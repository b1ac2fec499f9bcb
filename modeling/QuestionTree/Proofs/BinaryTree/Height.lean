import QuestionTree.BinaryTree.Basic

/-!
# The height of a tree

The height is found by visiting all nodes with their depths. Since the depths below a node are
counted from its own, the height of a tree is that of its higher subtree and one more.
-/

namespace QuestionTree

namespace Node

variable {ι : Type}

/-- The greatest depth of some visited nodes. -/
def deepest (visited : List (Node ι × Nat)) : Nat := visited.foldl (fun h v => max h v.2) 0

theorem deepest_append (xs ys : List (Node ι × Nat)) :
    deepest (xs ++ ys) = max (deepest xs) (deepest ys) := by
  have hfold : ∀ (ys : List (Node ι × Nat)) (h : Nat),
      ys.foldl (fun h v => max h v.2) h = max h (deepest ys) := by
    intro ys
    induction ys with
    | nil => exact fun h => (Nat.max_zero h).symm
    | cons v ys ih =>
      intro h
      rw [deepest, List.foldl_cons, List.foldl_cons, ih, ih, Nat.zero_max, Nat.max_assoc]
  rw [deepest, List.foldl_append, hfold]
  rfl

theorem visitDepths_append (xs ys : List (Node ι × Nat)) :
    visitDepths (xs ++ ys) = visitDepths xs ++ visitDepths ys := by
  induction xs using visitDepths.induct with
  | case1 => rw [visitDepths, List.nil_append, List.nil_append]
  | case2 n depth stack ih =>
    rw [List.cons_append, visitDepths, visitDepths, List.cons_append, ← ih, List.append_assoc]

theorem visitDepths_leaf (id : Nat) (info : ι) (depth : Nat) :
    visitDepths [(leaf id info, depth)] = [(leaf id info, depth)] := by
  rw [visitDepths, childList, List.map_nil, List.append_nil, visitDepths]

theorem visitDepths_internal (id : Nat) (info : ι) (yes no : Node ι) (depth : Nat) :
    visitDepths [(internal id info yes no, depth)] = [(internal id info yes no, depth)] ++
      (visitDepths [(yes, depth + 1)] ++ visitDepths [(no, depth + 1)]) := by
  have hchildren : visitDepths [(yes, depth + 1), (no, depth + 1)] =
      visitDepths [(yes, depth + 1)] ++ visitDepths [(no, depth + 1)] :=
    visitDepths_append [(yes, depth + 1)] [(no, depth + 1)]
  rw [visitDepths, childList, List.append_nil, List.map_cons, List.map_cons, List.map_nil,
    hchildren]
  rfl

theorem deepest_singleton (n : Node ι) (depth : Nat) : deepest [(n, depth)] = depth :=
  Nat.zero_max depth

theorem height_leaf (id : Nat) (info : ι) : (leaf id info).height = 0 := by
  have hheight : (leaf id info).height = deepest (visitDepths [(leaf id info, 0)]) := rfl
  rw [hheight, visitDepths_leaf, deepest_singleton]

/-- Depths are counted from the depth of the first node. -/
theorem deepest_visitDepths (n : Node ι) (depth : Nat) :
    deepest (visitDepths [(n, depth)]) = depth + n.height := by
  induction n generalizing depth with
  | leaf id info => rw [visitDepths_leaf, deepest_singleton, height_leaf, Nat.add_zero]
  | internal id info yes no ihYes ihNo =>
    have hheight : (internal id info yes no).height =
        deepest (visitDepths [(internal id info yes no, 0)]) := rfl
    rw [hheight, visitDepths_internal, visitDepths_internal, deepest_append, deepest_append,
      deepest_append, deepest_append, deepest_singleton, deepest_singleton, ihYes, ihNo, ihYes,
      ihNo]
    omega

theorem height_internal (id : Nat) (info : ι) (yes no : Node ι) :
    (internal id info yes no).height = max yes.height no.height + 1 := by
  have hheight : (internal id info yes no).height =
      deepest (visitDepths [(internal id info yes no, 0)]) := rfl
  rw [hheight, visitDepths_internal, deepest_append, deepest_append, deepest_singleton,
    deepest_visitDepths, deepest_visitDepths]
  omega

end Node

end QuestionTree
