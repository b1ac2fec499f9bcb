import QuestionTree.Growth.Outcome
import QuestionTree.Proofs.DecisionTree.Way
import Mathlib.Data.List.Perm.Basic

/-!
# The classes of a decision tree

In a tree whose inner nodes all name questions every record has a class, the number of the leaf that
it is led to. The cluster of a class then holds the examples of this class in their order, and if
every class is below the number of clusters, the clusters hold every example exactly once.
-/

namespace QuestionTree

variable {ν : Type}

/-! ### Lists sorted into classes -/

theorem flatMap_filter_perm {α : Type} (f : α → Nat) (xs : List α) (k : Nat) :
    ((List.range k).flatMap fun c => xs.filter fun x => decide (f x = c)).Perm
      (xs.filter fun x => decide (f x < k)) := by
  induction k with
  | zero => simp
  | succ k ih =>
    have hbelow : (xs.filter fun x => decide (f x < k)) =
        (xs.filter fun x => decide (f x < k + 1)).filter fun x => decide (f x < k) := by
      rw [List.filter_filter]
      refine List.filter_congr fun x _ => ?_
      rw [← Bool.decide_and]
      exact decide_eq_decide.2 ⟨fun h => ⟨h, by omega⟩, fun h => h.1⟩
    have hlast : (xs.filter fun x => decide (f x = k)) =
        (xs.filter fun x => decide (f x < k + 1)).filter fun x => !decide (f x < k) := by
      rw [List.filter_filter]
      refine List.filter_congr fun x _ => ?_
      rw [← decide_not, ← Bool.decide_and]
      exact decide_eq_decide.2 ⟨fun h => ⟨by omega, by omega⟩, fun h => by omega⟩
    rw [List.range_succ, List.flatMap_append, List.flatMap_singleton, hlast]
    exact ((hbelow ▸ ih).append_right _).trans (List.filter_append_perm ..)

theorem flatMap_filter {α β : Type} (p : α → Bool) (f : α → List β) (xs : List α) :
    (xs.filter p).flatMap f = xs.flatMap fun x => if p x then f x else [] := by
  induction xs with
  | nil => rfl
  | cons x xs ih =>
    rw [List.filter_cons, List.flatMap_cons, ← ih]
    cases p x <;> rfl

/-- The classes that are merged into one hold what the merged class holds. -/
theorem flatMap_merged_perm {α : Type} (f : α → Nat) (merge : Nat → Nat) (merged : Nat)
    {xs : List α} {k : Nat} (hk : ∀ x ∈ xs, f x < k) :
    (((List.range k).filter fun c => decide (merge c = merged)).flatMap fun c =>
        xs.filter fun x => decide (f x = c)).Perm
      (xs.filter fun x => decide (merge (f x) = merged)) := by
  have hclass : ∀ c,
      (if decide (merge c = merged) then xs.filter fun x => decide (f x = c) else []) =
      (xs.filter fun x => decide (merge (f x) = merged)).filter fun x => decide (f x = c) := by
    intro c
    rw [List.filter_filter]
    by_cases hc : merge c = merged
    · rw [decide_eq_true hc, if_pos rfl]
      refine List.filter_congr fun x _ => ?_
      rw [← Bool.decide_and]
      exact decide_eq_decide.2 ⟨fun h => ⟨h, h ▸ hc⟩, fun h => h.1⟩
    · rw [decide_eq_false hc, if_neg Bool.false_ne_true, eq_comm, List.filter_eq_nil_iff]
      intro x _ hx
      rw [Bool.and_eq_true, decide_eq_true_iff, decide_eq_true_iff] at hx
      exact hc (hx.1 ▸ hx.2)
  rw [flatMap_filter, List.flatMap_congr fun c _ => hclass c]
  refine (flatMap_filter_perm f _ k).trans (List.Perm.of_eq (List.filter_eq_self.2 ?_))
  intro x hx
  exact decide_eq_true (hk x (List.mem_of_mem_filter hx))

/-! ### Classification -/

namespace DecisionTree

variable {t : DecisionTree ν} {root : Node (NodeInfo ν)}

theorem exists_class (hroot : t.root? = some root) (hasks : root.Asks t.pool) (record : Record) :
    ∃ leaf ∈ root.leaves, t.find record = .ok leaf ∧ t.classify record = .ok leaf.id := by
  obtain ⟨path, _, hwalk, hat, hleaf⟩ := Node.exists_path hasks record
  rw [← find_eq_walk hroot] at hwalk
  refine ⟨path.leaf, Node.mem_leaves_iff.2 ⟨hleaf, _, hat⟩, hwalk, ?_⟩
  rw [classify, hwalk]
  rfl

/-- A cluster holds the examples of its class in their order. -/
theorem clusters_eq (hroot : t.root? = some root) (hasks : root.Asks t.pool)
    (examples : List (Handle (Example ν))) (classCount : Nat) :
    t.clusters examples classCount = .ok ⟨t.schema, (List.range classCount).map fun classId =>
      ⟨classId, examples.filter fun e => decide (t.classify e.item.record = .ok classId)⟩⟩ := by
  have hclass : ∀ record, ∃ classId, t.classify record = .ok classId := fun record => by
    obtain ⟨leaf, _, _, hleaf⟩ := exists_class hroot hasks record
    exact ⟨leaf.id, hleaf⟩
  choose classOf hclassOf using hclass
  have hclasses : examples.mapM (fun e => return (← t.classify e.item.record, e)) =
      (.ok (examples.map fun e => (classOf e.item.record, e)) : Except Error _) := by
    refine mapM_eq_ok fun e _ => ?_
    rw [hclassOf]
    rfl
  rw [clusters, hclasses]
  refine congrArg Except.ok (congrArg (ClusterList.mk t.schema) (List.map_congr_left ?_))
  intro classId _
  refine congrArg (Cluster.mk classId) ?_
  have hsecond : (Prod.snd ∘ fun e : Handle (Example ν) => (classOf e.item.record, e)) = id := rfl
  rw [List.filter_map, List.map_map, hsecond, List.map_id]
  refine List.filter_congr fun e _ => ?_
  rw [hclassOf]
  exact decide_eq_decide.2 ⟨fun h => congrArg Except.ok h, Except.ok.inj⟩

end DecisionTree

end QuestionTree
