import QuestionTree.Proofs.DecisionTree.Way
import Mathlib.Data.List.Infix

/-!
# The nodes that a record visits

A walk that follows both branches of an answer that is not defined visits several nodes. It keeps
the nodes still to be visited on a stack. `explore_cons` says that all that is found below the first
of them comes before the rest of the stack is looked at, and that the first failure is the one that
is reported, so the walk is the recursion `reachable` on the tree. `visited` lists the nodes with
their places, so that equal nodes at different places are kept apart. The nodes on the way to the
leaf of the record are listed in the same form by `way`: they stand at the places where the branches
of the way begin.
-/

namespace QuestionTree

variable {ν : Type}

/-- Whether the walk that follows both branches of an answer that is not defined takes a branch. -/
def Answer.follows : Answer → Bool → Bool
  | yes, branch => branch
  | no, branch => !branch
  | undefined, _ => true

namespace Node

/-- The nodes of a subtree that a record could reach, by recursion. -/
def reachable (pool : QuestionPool) (record : Record) : Node (NodeInfo ν) →
    Except Error (List (Node (NodeInfo ν)))
  | leaf id info => .ok [leaf id info]
  | internal id info yes no => do
    let q ← pool.require id
    let below ← match (q.item.evaluate record).branches .followBoth with
      | .yes => yes.reachable pool record
      | .no => no.reachable pool record
      | .both => (· ++ ·) <$> yes.reachable pool record <*> no.reachable pool record
    return internal id info yes no :: below

/-- The nodes that a record visits, with their places. -/
def visited (pool : QuestionPool) (record : Record) :
    Node (NodeInfo ν) → List (List Bool × Node (NodeInfo ν))
  | leaf id info => [([], leaf id info)]
  | internal id info yes no =>
    ([], internal id info yes no) ::
      match pool.get? id with
      | none => []
      | some q =>
        (if (q.item.evaluate record).follows true then
          (yes.visited pool record).map (under true) else []) ++
        (if (q.item.evaluate record).follows false then
          (no.visited pool record).map (under false) else [])

/-- The nodes on the way of a record to its leaf, with their places. -/
def way (pool : QuestionPool) (record : Record) :
    Node (NodeInfo ν) → List (List Bool × Node (NodeInfo ν))
  | leaf id info => [([], leaf id info)]
  | internal id info yes no =>
    ([], internal id info yes no) ::
      match pool.get? id with
      | none => []
      | some q =>
        if q.item.evaluate record = .yes then (yes.way pool record).map (under true)
        else (no.way pool record).map (under false)

variable {pool : QuestionPool} {record : Record} {id : Nat} {info : NodeInfo ν}
  {n yes no : Node (NodeInfo ν)} {q : Handle Question}

theorem visited_internal (hq : pool.require id = .ok q) :
    (internal id info yes no).visited pool record = ([], internal id info yes no) ::
      ((if (q.item.evaluate record).follows true then
          (yes.visited pool record).map (under true) else []) ++
        (if (q.item.evaluate record).follows false then
          (no.visited pool record).map (under false) else [])) := by
  rw [visited, require_eq_ok_iff.1 hq]

theorem way_internal (hq : pool.require id = .ok q) :
    (internal id info yes no).way pool record = ([], internal id info yes no) ::
      if q.item.evaluate record = .yes then (yes.way pool record).map (under true)
      else (no.way pool record).map (under false) := by
  rw [way, require_eq_ok_iff.1 hq]

/-! ### What the walk finds -/

theorem explore_eq_bind (pool : QuestionPool) (record : Record) (n : Node (NodeInfo ν))
    (stack : List (Node (NodeInfo ν))) :
    explore pool record (n :: stack) =
      n.followed pool record >>= fun next => (n :: ·) <$> explore pool record (next ++ stack) := by
  rw [explore]
  split <;> rename_i h <;> rw [h] <;> rfl

/-- What could be reached from the first node comes before what could be reached from the others. -/
theorem explore_cons (pool : QuestionPool) (record : Record) (n : Node (NodeInfo ν))
    (stack : List (Node (NodeInfo ν))) :
    explore pool record (n :: stack) =
      (· ++ ·) <$> n.reachable pool record <*> explore pool record stack := by
  induction n generalizing stack with
  | leaf id info =>
    rw [explore_eq_bind]
    show _ <$> explore pool record stack = _
    cases explore pool record stack <;> rfl
  | internal id info yes no ihYes ihNo =>
    rw [explore_eq_bind, followed, reachable]
    cases pool.require id with
    | error e => rfl
    | ok q =>
      simp only [bind, Except.bind]
      cases (q.item.evaluate record).branches .followBoth with
      | yes =>
        show _ <$> explore pool record (yes :: stack) = _
        rw [ihYes]
        cases yes.reachable pool record <;> cases explore pool record stack <;> rfl
      | no =>
        show _ <$> explore pool record (no :: stack) = _
        rw [ihNo]
        cases no.reachable pool record <;> cases explore pool record stack <;> rfl
      | both =>
        show _ <$> explore pool record (yes :: no :: stack) = _
        rw [ihYes, ihNo]
        cases yes.reachable pool record with
        | error e => rfl
        | ok fromYes =>
          cases no.reachable pool record with
          | error e => rfl
          | ok fromNo =>
            cases explore pool record stack with
            | error e => rfl
            | ok rest =>
              exact congrArg (fun found => Except.ok (_ :: found)) (List.append_assoc ..).symm

/-- The walk with a stack finds what the recursion finds, and fails where it fails. -/
theorem explore_singleton (n : Node (NodeInfo ν)) (pool : QuestionPool) (record : Record) :
    explore pool record [n] = n.reachable pool record := by
  rw [explore_cons, explore]
  cases n.reachable pool record with
  | error e => rfl
  | ok visited => exact congrArg Except.ok (List.append_nil visited)

theorem reachable_internal (hq : pool.require id = .ok q)
    {fromYes fromNo : List (Node (NodeInfo ν))}
    (hyes : yes.reachable pool record = .ok fromYes)
    (hno : no.reachable pool record = .ok fromNo) :
    (internal id info yes no).reachable pool record = .ok (internal id info yes no ::
      ((if (q.item.evaluate record).follows true then fromYes else []) ++
        (if (q.item.evaluate record).follows false then fromNo else []))) := by
  simp only [reachable, hq, hyes, hno, bind, Except.bind]
  cases q.item.evaluate record with
  | yes => exact congrArg (fun below => Except.ok (_ :: below)) (List.append_nil fromYes).symm
  | no => rfl
  | undefined => rfl

theorem reachable_eq (h : n.Asks pool) (record : Record) :
    n.reachable pool record = .ok ((n.visited pool record).map Prod.snd) := by
  induction n with
  | leaf id info => rfl
  | internal id info yes no ihYes ihNo =>
    obtain ⟨hid, hyes, hno⟩ := h
    obtain ⟨q, hq⟩ := exists_require hid
    rw [visited_internal hq, reachable_internal hq (ihYes hyes) (ihNo hno), List.map_cons,
      List.map_append, apply_ite (List.map Prod.snd), apply_ite (List.map Prod.snd), map_snd_under,
      map_snd_under, List.map_nil]

theorem visited_sublist_placed (n : Node (NodeInfo ν)) (pool : QuestionPool) (record : Record) :
    (n.visited pool record).Sublist n.placed := by
  induction n with
  | leaf id info => exact .refl _
  | internal id info yes no ihYes ihNo =>
    have hbelow : ∀ (branch follows : Bool) {l l' : List (List Bool × Node (NodeInfo ν))},
        l.Sublist l' →
          (if follows then l.map (under branch) else []).Sublist (l'.map (under branch)) := by
      intro branch follows l l' h
      cases follows with
      | false => exact List.nil_sublist _
      | true => exact h.map _
    rw [visited, placed]
    refine .cons_cons _ ?_
    split
    · exact List.nil_sublist _
    · exact (hbelow true _ ihYes).append (hbelow false _ ihNo)

theorem at?_of_mem_visited {s : List Bool × Node (NodeInfo ν)} (h : s ∈ n.visited pool record) :
    n.at? s.1 = some s.2 :=
  mem_placed_iff.1 ((n.visited_sublist_placed pool record).subset h)

theorem nodup_visited (n : Node (NodeInfo ν)) (pool : QuestionPool) (record : Record) :
    ((n.visited pool record).map Prod.fst).Nodup :=
  n.nodup_places.sublist ((n.visited_sublist_placed pool record).map Prod.fst)

/-! ### The way to the leaf -/

theorem way_sublist_visited (n : Node (NodeInfo ν)) (pool : QuestionPool) (record : Record) :
    (n.way pool record).Sublist (n.visited pool record) := by
  induction n with
  | leaf id info => exact List.Sublist.refl _
  | internal id info yes no ihYes ihNo =>
    rw [way, visited]
    refine List.Sublist.cons_cons _ ?_
    split
    · exact List.Sublist.refl _
    · rename_i q _
      have hyes := ihYes.map (under true)
      have hno := ihNo.map (under false)
      cases q.item.evaluate record with
      | yes => exact hyes.trans (List.sublist_append_left _ _)
      | no => exact hno
      | undefined => exact hno.trans (List.sublist_append_right _ _)

/-- The way leads through the beginnings of its branches. -/
theorem map_fst_way (h : n.Asks pool) {path : Path ν} (hpath : n.pathFrom pool record = .ok path) :
    (n.way pool record).map Prod.fst = path.branches.inits := by
  induction n generalizing path with
  | leaf id info =>
    cases hpath
    rfl
  | internal id info yes no ihYes ihNo =>
    obtain ⟨hid, hyes, hno⟩ := h
    obtain ⟨q, hq⟩ := exists_require hid
    rw [pathFrom_internal hq] at hpath
    obtain ⟨rest, hrest, rfl⟩ := map_eq_ok_iff.1 hpath
    rw [way_internal hq, List.map_cons, Path.branches, List.map_cons, List.inits_cons]
    by_cases hanswer : q.item.evaluate record = .yes
    · rw [if_pos hanswer] at hrest
      rw [if_pos hanswer, map_fst_under, ihYes hyes hrest, decide_eq_true hanswer]
      rfl
    · rw [if_neg hanswer] at hrest
      rw [if_neg hanswer, map_fst_under, ihNo hno hrest, decide_eq_false hanswer]
      rfl

theorem leaf_mem_way (h : n.Asks pool) {path : Path ν} (hpath : n.pathFrom pool record = .ok path) :
    (path.branches, path.leaf) ∈ n.way pool record := by
  induction n generalizing path with
  | leaf id info =>
    cases hpath
    exact List.mem_singleton_self _
  | internal id info yes no ihYes ihNo =>
    obtain ⟨hid, hyes, hno⟩ := h
    obtain ⟨q, hq⟩ := exists_require hid
    rw [pathFrom_internal hq] at hpath
    obtain ⟨rest, hrest, rfl⟩ := map_eq_ok_iff.1 hpath
    rw [way_internal hq, Path.branches, List.map_cons]
    refine List.mem_cons_of_mem _ ?_
    by_cases hanswer : q.item.evaluate record = .yes
    · rw [if_pos hanswer] at hrest
      rw [if_pos hanswer, decide_eq_true hanswer]
      exact List.mem_map_of_mem (f := under true) (ihYes hyes hrest)
    · rw [if_neg hanswer] at hrest
      rw [if_neg hanswer, decide_eq_false hanswer]
      exact List.mem_map_of_mem (f := under false) (ihNo hno hrest)

end Node

theorem DecisionTree.findAll_eq_reachable {t : DecisionTree ν} {root : Node (NodeInfo ν)}
    (hroot : t.root? = some root) (record : Record) :
    t.findAll record = root.reachable t.pool record := by
  rw [root?] at hroot
  rw [findAll, BinaryTree.requireRoot, hroot, ← Node.explore_singleton]
  rfl

end QuestionTree
