import QuestionTree.Proofs.Growth.Nesting
import QuestionTree.Proofs.Training.Partition

/-!
# Trainings with other budgets

Training with a smaller budget, or with the first steps of a plan only, makes the tree that training
with the whole plan had on its way. So the tree is pruned from the tree of the whole training, and
its clusters are put together from the clusters of that tree, also if questions are drawn.
-/

namespace QuestionTree

variable {ν γ : Type}

/-- Whether an outcome is coarser than another one. -/
structure Outcome.Coarsens (o o' : Outcome ν) : Prop where
  pruned : o.tree.PrunedFrom o'.tree
  /-- Every class is put together from classes of the other outcome, and so is its cluster. -/
  merged : ∃ merge : Nat → Nat,
    (∀ record classId, o'.tree.classify record = .ok classId →
      o.tree.classify record = .ok (merge classId)) ∧
    ∀ c ∈ o.clusters.clusters, c.members.Perm
      ((o'.clusters.clusters.filter fun c' => merge c'.classId = c.classId).flatMap
        Cluster.members)

namespace Trainer

variable [Arithmetic ν] {t t' : Trainer ν} {source : DrawSource γ} {draws : γ}
  {examples : ExampleList ν} {o o' : Outcome ν} {g g' : Growth ν γ}
  {root root' : Node (NodeInfo ν)}

namespace Made

theorem prunedFrom (h : t.Made examples g root o) (h' : t'.Made examples g' root' o')
    (hschema : t.plan.schema = t'.plan.schema) (hroot : g.root = g'.root)
    (hgoes : g.GoesOn g') : o.tree.PrunedFrom o'.tree := by
  refine ⟨?_, root, root', h.root?_eq, h'.root?_eq, ?_⟩
  · rw [h.tree_eq, h'.tree_eq]
    exact hschema
  · rw [h.tree_eq, h'.tree_eq]
    have htree : g.tree = GrownTree.replay g.root g.commits := rfl
    have htree' : g'.tree = GrownTree.replay g.root g'.commits := by
      rw [hroot]
      rfl
    have hprunes : g.tree.Prunes g'.tree := by
      rw [htree, htree']
      exact GrownTree.prunes_replay g.root hgoes.commits
    exact GrownTree.prunedFrom_of_prunes hprunes h.shows h'.shows h.sound.ledger.tree_rooted
      (hroot ▸ h'.sound.ledger.tree_rooted)

/-- The clusters are put together from those of a tree that the tree is pruned from. -/
theorem coarsens (h : t.Made examples g root o) (h' : t'.Made examples g' root' o')
    (hpruned : o.tree.PrunedFrom o'.tree) : o.Coarsens o' := by
  obtain ⟨merge, hmerge⟩ := DecisionTree.exists_merge hpruned h'.root?_eq h'.asks h'.nodup_ids
  refine ⟨hpruned, merge, hmerge, fun c hc => ?_⟩
  choose leafOf hleaf _ hclass using h'.exists_leaf
  have hown : ∀ record, o.tree.classify record = .ok (merge (leafOf record).id) :=
    fun record => hmerge record _ (hclass record)
  rw [h.clusters_eq] at hc
  obtain ⟨classId, _, rfl⟩ := List.mem_map.1 hc
  have hmembers : (examples.members.filter fun e =>
      decide (o.tree.classify e.item.record = .ok classId)) =
      examples.members.filter fun e => decide (merge (leafOf e.item.record).id = classId) := by
    refine List.filter_congr fun e _ => ?_
    rw [hown]
    exact decide_eq_decide.2 ⟨Except.ok.inj, congrArg Except.ok⟩
  have hclusters : (o'.clusters.clusters.filter fun c' => merge c'.classId = classId).flatMap
      Cluster.members =
      ((List.range (g'.commits.length + 1)).filter fun k => decide (merge k = classId)).flatMap
        fun k => examples.members.filter fun e => decide ((leafOf e.item.record).id = k) := by
    rw [h'.clusters_eq, List.filter_map, List.flatMap_map]
    refine List.flatMap_congr fun k _ => List.filter_congr fun e _ => ?_
    rw [hclass]
    exact decide_eq_decide.2 ⟨Except.ok.inj, congrArg Except.ok⟩
  rw [hclusters, hmembers]
  exact (flatMap_merged_perm (fun e : Handle (Example ν) => (leafOf e.item.record).id) merge classId
    fun e _ => h'.id_lt (hleaf e.item.record)).symm

end Made

/-- Training with fewer steps and a smaller budget is the beginning of the whole training. -/
theorem nested_of_prefix (hscorer : t.scorer = t'.scorer) (hschema : t.plan.schema = t'.plan.schema)
    (hsteps : t.plan.steps <+: t'.plan.steps) (hbudget : t.plan.maxLeaves ≤ t'.plan.maxLeaves)
    (source : DrawSource γ) (draws : γ) (examples : ExampleList ν) :
    (t.grow source draws examples).commits <+: (t'.grow source draws examples).commits ∧
      (t.plan.steps = t'.plan.steps → (t.grow source draws examples).commits.length =
        min (t'.grow source draws examples).commits.length (max t.plan.maxLeaves 1 - 1)) ∧
      ∀ o', t'.train source draws examples = .ok o' →
        ∃ o, t.train source draws examples = .ok o ∧ o.Coarsens o' := by
  obtain ⟨hgoes, hlength⟩ :=
    Growth.run_nested t.scorer source draws examples.members hsteps hbudget
  have hgrow : t'.grow source draws examples =
      Growth.run t.scorer source draws t'.plan examples.members := by
    rw [grow, hscorer]
  rw [← hgrow] at hgoes hlength
  refine ⟨hgoes.commits, hlength, fun o' ho' => ?_⟩
  obtain ⟨root', made, hmade', htrain'⟩ := exists_train_eq t' source draws examples
  obtain ⟨root, o, hmade, htrain⟩ := exists_train_eq t source draws examples
  rw [htrain'] at ho'
  obtain ⟨⟨⟩, hsame, ho'⟩ := bind_eq_ok_iff.1 ho'
  obtain ⟨⟨⟩, hset, ho'⟩ := bind_eq_ok_iff.1 ho'
  obtain ⟨⟨⟩, hcheck, ho'⟩ := bind_eq_ok_iff.1 ho'
  cases ho'
  -- the questions of the smaller tree are among those that were checked for the other one
  have hown : DecisionTree.checkQuestions t.plan.schema (t.grow source draws examples).usedPool =
      .ok () := by
    rw [hschema]
    refine forM_eq_ok_iff.2 fun q hq => forM_eq_ok_iff.1 hcheck q ?_
    exact List.map_subset Handle.item (List.map_subset Entry.question hgoes.used_subset) hq
  refine ⟨o, ?_, hmade.coarsens hmade' (hmade.prunedFrom hmade' hschema ?_ hgoes)⟩
  · rw [htrain, hschema, hsame, hset, ← hschema, hown]
    rfl
  · rw [hmade.sound.root_eq, hmade'.sound.root_eq, hscorer]

open Sample in
/-- The training that may make one leaf is the beginning of the one that may make two. -/
theorem nested_one_and_two_leaves : ∃ o o' : Outcome Float,
    Trainer.train ⟨⟨schema, 1, [step]⟩, trainer.scorer, 0⟩ firstPlaces () list = .ok o ∧
    trainer.train firstPlaces () list = .ok o' ∧ o.summary.splitCount = 0 ∧
    o'.summary.splitCount = 1 ∧ o.Coarsens o' := by
  let small : Trainer Float := ⟨⟨schema, 1, [step]⟩, trainer.scorer, 0⟩
  have hscorer : small.scorer = trainer.scorer := rfl
  have hsteps : small.plan.steps <+: trainer.plan.steps := List.prefix_refl _
  have hbudget : small.plan.maxLeaves ≤ trainer.plan.maxLeaves := by decide
  obtain ⟨_, _, hcoarsens⟩ :=
    nested_of_prefix hscorer rfl hsteps hbudget firstPlaces () list
  have hcount : (trainer.train firstPlaces () list).toOption.map (·.summary.splitCount) =
      some 1 := by
    decide +kernel
  have hnone : (small.train firstPlaces () list).toOption.map (·.summary.splitCount) = some 0 := by
    decide +kernel
  obtain ⟨o', ho', hsplit'⟩ := Outcome.exists_of_splitCount hcount
  obtain ⟨o, ho, hsplit⟩ := Outcome.exists_of_splitCount hnone
  obtain ⟨made, hmade, hnested⟩ := hcoarsens o' ho'
  rw [ho, Except.ok.injEq] at hmade
  exact ⟨o, o', ho, ho', hsplit, hsplit', hmade ▸ hnested⟩

end Trainer

end QuestionTree
