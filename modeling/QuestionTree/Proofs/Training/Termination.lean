import QuestionTree.Proofs.Growth.Termination
import QuestionTree.Proofs.Training.Admission
import QuestionTree.Proofs.Training.Partition

/-!
# The end of training

Training comes to an end whatever the plan, the examples, the draws and the scorer are, even if the
scorer reports a great gain for every split: the number of transitions of its run is bounded by the
steps and the examples alone. The tree has no more leaves than the budget allows and no more than
there are examples, apart from its first leaf, and so no class is empty unless there is no example.
-/

namespace QuestionTree

variable {γ : Type}

/-- Whether an outcome is no larger than the budget and the examples allow. -/
structure Outcome.Fits (o : Outcome Float) (maxLeaves : Nat) (examples : ExampleList Float) :
    Prop where
  within_budget : o.tree.tree.leafCount ≤ max 1 maxLeaves
  within_examples : o.tree.tree.leafCount ≤ max 1 examples.size
  /-- No cluster is empty unless there is no example. -/
  members_ne_nil : examples.size ≠ 0 → ∀ c ∈ o.clusters.clusters, c.members ≠ []

namespace Trainer

variable {t : Trainer Float} {source : DrawSource γ} {draws : γ} {examples : ExampleList Float}
  {o : Outcome Float} {g : Growth Float γ} {root : Node (NodeInfo Float)}

namespace Made

theorem exists_place_of_cluster (h : t.Made examples g root o) {c : Cluster Float}
    (hc : c ∈ o.clusters.clusters) : ∃ place leaf, root.at? place = some leaf ∧
      c.members = o.passing examples place := by
  rw [h.clusters_eq] at hc
  obtain ⟨classId, hid, rfl⟩ := List.mem_map.1 hc
  rw [← h.numbered] at hid
  obtain ⟨leaf, hleaf, rfl⟩ := List.mem_map.1 hid
  obtain ⟨hend, place, hplace⟩ := Node.mem_leaves_iff.1 hleaf
  refine ⟨place, leaf, hplace, List.filter_congr fun e _ => ?_⟩
  rw [Bool.eq_iff_iff, decide_eq_true_iff, h.classify_eq_iff hplace hend]

end Made

theorem passing_ne_nil_of_train (h : t.train source draws examples = .ok o)
    (hexamples : examples.size ≠ 0) {place : List Bool} {v : Node (NodeInfo Float)}
    (hv : o.tree.nodeAt? place = some v) : o.passing examples place ≠ [] := by
  obtain ⟨root, hmade⟩ := exists_made_of_train h
  have hroot := hmade.root?_eq
  induction place using List.reverseRecOn with
  | nil =>
    have hall : o.passing examples [] = examples.members := by
      rw [hmade.passing_eq]
      exact List.filter_eq_self.2 fun _ _ => Node.passes_nil (GrownTree.asks_of_shows hmade.shows)
    rw [hall]
    exact fun hnil => hexamples (List.length_eq_zero_iff.2 hnil)
  | append_singleton place branch _ =>
    rw [DecisionTree.nodeAt?_eq hroot] at hv
    obtain ⟨id, info, yes, no, hparent⟩ := Node.exists_parent hv
    rw [← DecisionTree.nodeAt?_eq hroot] at hparent
    obtain ⟨_, _, _, _, _, _, hreadmits⟩ := readmits_of_train h hparent
    cases branch with
    | true => exact hreadmits.yes_ne_nil
    | false => exact hreadmits.no_ne_nil

theorem fits_of_train (h : t.train source draws examples = .ok o) :
    o.Fits t.plan.maxLeaves examples := by
  obtain ⟨root, hmade⟩ := exists_made_of_train h
  refine ⟨?_, ?_, fun hexamples c hc => ?_⟩
  · rw [hmade.leafCount_tree]
    exact Growth.length_commits_run_le t.scorer source draws t.plan examples.members
  · rw [hmade.leafCount_tree]
    exact hmade.sound.length_commits_lt (by decide)
  · obtain ⟨place, leaf, hleaf, hmembers⟩ := hmade.exists_place_of_cluster hc
    rw [← DecisionTree.nodeAt?_eq hmade.root?_eq] at hleaf
    rw [hmembers]
    exact passing_ne_nil_of_train h hexamples hleaf

theorem exists_of_built (hplan : t.plan.Built) (hexamples : examples.Built)
    (hschema : t.plan.schema = examples.schema) (source : DrawSource γ) (draws : γ) :
    ∃ o, t.train source draws examples = .ok o := by
  obtain ⟨root, o, hmade, htrain⟩ := exists_train_eq t source draws examples
  rw [Schema.requireSame_eq hplan.schema_built hexamples.schema_built, if_pos hschema,
    hplan.requireSet, checkQuestions_usedPool hplan hmade.sound] at htrain
  exact ⟨o, htrain⟩

/-- Training ends, and what it makes fits the budget and the examples. -/
theorem train_ends (t : Trainer Float) (source : DrawSource γ) (draws : γ)
    (examples : ExampleList Float) :
    (∃ n ≤ t.plan.steps.length * (max 1 examples.size + 3) + max 1 examples.size,
      (Stage.between t.plan.steps (Growth.start t.scorer draws examples.members)).after? t.scorer
        source t.plan.maxLeaves n = some (.ended (t.grow source draws examples))) ∧
    (t.plan.Built → examples.Built → t.plan.schema = examples.schema →
      ∃ o, t.train source draws examples = .ok o) ∧
    ∀ o, t.train source draws examples = .ok o → o.Fits t.plan.maxLeaves examples :=
  ⟨Growth.exists_after?_eq_run (by decide) t.scorer source draws t.plan examples.members,
    fun hplan hexamples hschema => exists_of_built hplan hexamples hschema source draws,
    fun _ h => fits_of_train h⟩

end Trainer

namespace Sample

/-- Rates every split as a great gain. -/
def greedyScorer : Scorer Float := ⟨"greedy", fun _ => 0, fun _ _ _ => ⟨1e300, 0, 0⟩⟩

/-- Asks twice whether a thing is red, without a budget. -/
def greedyTrainer : Trainer Float :=
  ⟨⟨schema, TrainingPlan.unlimited, [step, step]⟩, greedyScorer, 0⟩

theorem built_greedyPlan : greedyTrainer.plan.Built := by
  have hblank : (TrainingPlan.blank schema : Except Error (TrainingPlan Float)) =
      .ok ⟨schema, TrainingPlan.unlimited, []⟩ := rfl
  have hcheck : step.check schema = .ok () := by decide +kernel
  have hfirst : (⟨schema, TrainingPlan.unlimited, []⟩ : TrainingPlan Float).addStep step =
      .ok ⟨schema, TrainingPlan.unlimited, [step]⟩ := by
    rw [TrainingPlan.addStep, hcheck]
    rfl
  have hsecond : (⟨schema, TrainingPlan.unlimited, [step]⟩ : TrainingPlan Float).addStep step =
      .ok greedyTrainer.plan := by
    rw [TrainingPlan.addStep, hcheck]
    rfl
  exact .addStep (.addStep (.blank built_schema hblank) hfirst) hsecond

end Sample

namespace Trainer

open Sample

/-- The training that takes every split of the red thing from the blue thing for a great gain. -/
theorem greedy_training_ends : greedyTrainer.plan.Built ∧ list.Built ∧
    ∃ o, greedyTrainer.train firstPlaces () list = .ok o ∧ o.summary.splitCount = 1 ∧
      o.Fits TrainingPlan.unlimited list := by
  have hcount : (greedyTrainer.train firstPlaces () list).toOption.map (·.summary.splitCount) =
      some 1 := by
    decide +kernel
  obtain ⟨o, ho, hsplit⟩ := Outcome.exists_of_splitCount hcount
  obtain ⟨_, _, hfits⟩ := train_ends greedyTrainer firstPlaces () list
  exact ⟨built_greedyPlan, built_list, o, ho, hsplit, hfits o ho⟩

end Trainer

end QuestionTree
