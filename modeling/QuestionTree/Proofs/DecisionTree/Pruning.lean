import QuestionTree.Proofs.DecisionTree.Classes

/-!
# Pruned trees

A tree is pruned from another one if it asks the same questions at the same places, but may stop
earlier; the nodes at a place tell the same. The way of a record through the pruned tree is then the
beginning of its way through the other one. So records that the other tree puts into one class are
in one class of the pruned tree, too, and a class of the pruned tree is put together from classes of
the other one.
-/

namespace QuestionTree

variable {ν : Type}

namespace Node

/-- Whether a tree asks the same questions as another one, but may stop earlier. -/
def PrunedFrom (pool pool' : QuestionPool) : Node (NodeInfo ν) → Node (NodeInfo ν) → Prop
  | leaf _ info, n' => n'.info = info
  | internal id info yes no, internal id' info' yes' no' =>
    info' = info ∧ (∃ q, pool.require id = .ok q ∧ pool'.require id' = .ok q) ∧
      yes.PrunedFrom pool pool' yes' ∧ no.PrunedFrom pool pool' no'
  | internal _ _ _ _, leaf _ _ => False

/-- The node that some branches lead to, or the leaf at which they leave the tree. -/
def along {ι : Type} : Node ι → List Bool → Node ι
  | internal _ _ yes no, branch :: place => if branch then yes.along place else no.along place
  | n, _ => n

variable {pool pool' : QuestionPool} {record : Record}

theorem branches_cons (s : Handle Question × Answer) (path : Path ν) :
    ({ path with steps := s :: path.steps } : Path ν).branches =
      decide (s.2 = .yes) :: path.branches := rfl

/-- The way through a pruned tree begins like the way through the other one. -/
theorem walk_of_prunedFrom {n n' : Node (NodeInfo ν)} {path : Path ν}
    (h : n.PrunedFrom pool pool' n') (hpath : n'.pathFrom pool' record = .ok path) :
    n.walk pool record = .ok (n.along path.branches) := by
  induction n generalizing n' path with
  | leaf id info => rfl
  | internal id info yes no ihYes ihNo =>
    cases n' with
    | leaf id' info' => cases h
    | internal id' info' yes' no' =>
      obtain ⟨_, ⟨q, hq, hq'⟩, hyes, hno⟩ := h
      rw [pathFrom_internal hq'] at hpath
      rw [walk_internal hq]
      by_cases hanswer : q.item.evaluate record = .yes
      · rw [if_pos hanswer] at hpath ⊢
        obtain ⟨rest, hrest, rfl⟩ := map_eq_ok_iff.1 hpath
        rw [ihYes hyes hrest, branches_cons, decide_eq_true hanswer]
        rfl
      · rw [if_neg hanswer] at hpath ⊢
        obtain ⟨rest, hrest, rfl⟩ := map_eq_ok_iff.1 hpath
        rw [ihNo hno hrest, branches_cons, decide_eq_false hanswer]
        rfl

end Node

namespace DecisionTree

/-- Whether a decision tree asks the same questions as another one, but may stop earlier. -/
structure PrunedFrom (t t' : DecisionTree ν) : Prop where
  schema_eq : t.schema = t'.schema
  roots : ∃ root root', t.root? = some root ∧ t'.root? = some root' ∧
    root.PrunedFrom t.pool t'.pool root'

variable {t t' : DecisionTree ν} {root' : Node (NodeInfo ν)}

/-- The class of a record in a pruned tree is given by its class in the other one. -/
theorem exists_merge (h : t.PrunedFrom t') (hroot' : t'.root? = some root')
    (hasks : root'.Asks t'.pool) (hnodup : (root'.leaves.map Node.id).Nodup) :
    ∃ merge : Nat → Nat, ∀ record classId, t'.classify record = .ok classId →
      t.classify record = .ok (merge classId) := by
  obtain ⟨root, root'', hroot, hsame, hpruned⟩ := h.roots
  rw [hroot', Option.some_inj] at hsame
  subst hsame
  -- the class is the number of the leaf at the end of the way, which the number determines
  have hclass : ∀ record, ∃ path : Path ν, root'.at? path.branches = some path.leaf ∧
      path.leaf.isLeaf = true ∧ t'.classify record = .ok path.leaf.id ∧
      t.classify record = .ok (root.along path.branches).id := by
    intro record
    obtain ⟨path, hpath, hwalk, hat, hleaf⟩ := Node.exists_path hasks record
    refine ⟨path, hat, hleaf, ?_, ?_⟩
    · rw [classify, find_eq_walk hroot', hwalk]
      rfl
    · rw [classify, find_eq_walk hroot, Node.walk_of_prunedFrom hpruned hpath]
      rfl
  have hmerge : ∀ classId, ∃ merged, ∀ record, t'.classify record = .ok classId →
      t.classify record = .ok merged := by
    intro classId
    by_cases hsome : ∃ record, t'.classify record = .ok classId
    · obtain ⟨first, hfirst⟩ := hsome
      obtain ⟨path, hat, hleaf, hid, hown⟩ := hclass first
      refine ⟨(root.along path.branches).id, fun record hrecord => ?_⟩
      obtain ⟨other, hat', hleaf', hid', hown'⟩ := hclass record
      rw [hfirst] at hid
      rw [hrecord, hid] at hid'
      rw [Node.place_unique hnodup hat hleaf hat' hleaf' (Except.ok.inj hid')]
      exact hown'
    · exact ⟨0, fun record hrecord => absurd ⟨record, hrecord⟩ hsome⟩
  choose merge hmerged using hmerge
  exact ⟨merge, fun record classId hrecord => hmerged classId record hrecord⟩

end DecisionTree

end QuestionTree
