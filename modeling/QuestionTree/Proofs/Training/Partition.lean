import QuestionTree.Proofs.Example.Partition
import QuestionTree.Proofs.Growth.Range
import QuestionTree.Proofs.Training.Built
import QuestionTree.Proofs.Training.Routing

/-!
# Training as a whole

Training a built plan on a built list fails exactly if their schemas differ, and then says where. In
every other case it succeeds, whatever the scorer, the budget and the draws are, and looks up no
place that does not exist. The clusters partition the examples, there is one for each leaf, the
leaves carry the numbers from zero on, and the leaf of a class is the one that its records are led
to.
-/

namespace QuestionTree

variable {ν γ : Type}

/-- Whether an outcome sorts examples into the classes of its tree. -/
structure Outcome.Partitions (examples : ExampleList ν) (o : Outcome ν) : Prop where
  /-- The clusters hold every example once and nothing else. -/
  partition : o.clusters.isPartitionOf examples = true
  /-- There is a cluster for each leaf. -/
  cluster_count : o.clusters.size = o.tree.tree.leafCount
  /-- The totals count the leaves. -/
  leaf_count : o.tree.tree.leafCount = o.summary.leafCount
  /-- There is one leaf more than there are splits. -/
  split_count : o.summary.leafCount = o.summary.splitCount + 1
  /-- The leaves carry the numbers from zero on, from left to right. -/
  leaf_ids : ∃ root, o.tree.root? = some root ∧
    root.leaves.map Node.id = List.range o.summary.leafCount
  /-- The cluster of a class holds the examples of the class in their order. -/
  cluster_eq : ∀ classId < o.summary.leafCount, o.clusters.get? classId = some ⟨classId,
    examples.members.filter fun e => decide (o.tree.classify e.item.record = .ok classId)⟩
  /-- The class of a record is the number of the leaf that the record is led to. -/
  class_leaf : ∀ record, ∃ leaf, o.tree.find record = .ok leaf ∧
    o.tree.classify record = .ok leaf.id ∧ leaf.id < o.summary.leafCount ∧
    o.tree.leaf? leaf.id = some leaf

namespace Node

theorem find?_leaves {ι : Type} {n leaf : Node ι} (hnodup : (n.leaves.map id).Nodup)
    (hleaf : leaf ∈ n.leaves) : n.leaves.find? (·.id == leaf.id) = some leaf := by
  cases hfind : n.leaves.find? (·.id == leaf.id) with
  | none =>
    have hnot := List.find?_eq_none.1 hfind leaf hleaf
    exact absurd (beq_self_eq_true leaf.id) hnot
  | some leaf' =>
    have hsame := List.find?_some hfind
    have hid : leaf'.id = leaf.id := beq_iff_eq.1 hsame
    rw [List.inj_on_of_nodup_map hnodup (List.mem_of_find?_eq_some hfind) hleaf hid]

end Node

namespace Trainer

namespace Made

variable [Arithmetic ν] {t : Trainer ν} {examples : ExampleList ν} {o : Outcome ν}
  {g : Growth ν γ} {root : Node (NodeInfo ν)} (h : t.Made examples g root o)

include h

theorem leafCount_eq : o.summary.leafCount = g.commits.length + 1 := by
  rw [h.summary_eq]
  rfl

theorem leafCount_tree : o.tree.tree.leafCount = g.commits.length + 1 := by
  have hlength := congrArg List.length h.numbered
  rw [List.length_map, List.length_range] at hlength
  rw [h.tree_eq]
  exact hlength

theorem exists_leaf (record : Record) : ∃ leaf ∈ root.leaves, o.tree.find record = .ok leaf ∧
    o.tree.classify record = .ok leaf.id := by
  exact DecisionTree.exists_class h.root?_eq h.asks record

theorem members_perm : o.clusters.members.Perm examples.members := by
  choose leafOf hmem _ hclass using h.exists_leaf
  have hmembers : o.clusters.members = (List.range (g.commits.length + 1)).flatMap fun classId =>
      examples.members.filter fun e => decide ((leafOf e.item.record).id = classId) := by
    rw [ClusterList.members, h.clusters_eq, List.flatMap_map]
    refine List.flatMap_congr fun classId _ => List.filter_congr fun e _ => ?_
    rw [hclass]
    exact decide_eq_decide.2 ⟨Except.ok.inj, congrArg Except.ok⟩
  have hall : (examples.members.filter fun e =>
      decide ((leafOf e.item.record).id < g.commits.length + 1)) = examples.members :=
    List.filter_eq_self.2 fun e _ => decide_eq_true (h.id_lt (hmem e.item.record))
  rw [hmembers]
  refine (flatMap_filter_perm
    (fun e : Handle (Example ν) => (leafOf e.item.record).id) _ _).trans ?_
  rw [hall]

theorem partitions (hnodup : (examples.members.map Handle.tag).Nodup) :
    o.Partitions examples := by
  have hleaves := h.leafCount_tree
  have hclusters : o.clusters.size = g.commits.length + 1 := by
    rw [h.clusters_eq, ClusterList.size, List.length_map, List.length_range]
  have hsplits : o.summary.splitCount = g.commits.length := by
    rw [h.summary_eq]
    rfl
  refine ⟨(ClusterList.isPartitionOf_iff hnodup).2 (h.members_perm.map _), ?_, ?_, ?_, ?_, ?_, ?_⟩
  · rw [hclusters, hleaves]
  · rw [hleaves, h.leafCount_eq]
  · rw [h.leafCount_eq, hsplits]
  · exact ⟨root, h.root?_eq, by rw [h.numbered, h.leafCount_eq]⟩
  · intro classId hlt
    exact h.get?_clusters (h.leafCount_eq ▸ hlt)
  · intro record
    obtain ⟨leaf, hleaf, hfind, hclass⟩ := h.exists_leaf record
    refine ⟨leaf, hfind, hclass, h.leafCount_eq ▸ h.id_lt hleaf, ?_⟩
    rw [DecisionTree.leaf?, h.root?_eq]
    exact Node.find?_leaves h.nodup_ids hleaf

end Made

variable {t : Trainer Float} {source : DrawSource γ} {draws : γ} {examples : ExampleList Float}

theorem checkQuestions_usedPool {g : Growth Float γ} {current : Option (Step Float)}
    {waiting : List (Leaf Float)} (hplan : t.plan.Built)
    (hsound : g.Sound t.scorer examples.members t.plan.steps current waiting) :
    DecisionTree.checkQuestions t.plan.schema g.usedPool = .ok () :=
  checkQuestions_of_validate
    (fun step hstep _ hq => TrainingPlan.validate_of_check (hplan.checked step hstep) hq) hsound

/-- Training fails exactly if the schemas differ, and otherwise partitions the examples. -/
theorem train_of_built (hplan : t.plan.Built) (hexamples : examples.Built)
    (hsize : examples.size < 2 ^ 31) (hsource : source.Lawful) :
    ((∃ e, t.train source draws examples = .error e) ↔ t.plan.schema ≠ examples.schema) ∧
    (t.plan.schema ≠ examples.schema → t.train source draws examples =
      .error (.schemaMismatch (t.plan.schema.differences examples.schema))) ∧
    (t.plan.schema = examples.schema → ∃ o, t.train source draws examples = .ok o ∧
      o.Partitions examples ∧
      ∀ s, Stage.Reaches t.scorer source t.plan.maxLeaves
        (.between t.plan.steps (Growth.start t.scorer draws examples.members)) s →
          s.InRange source) := by
  obtain ⟨root, o, hmade, htrain⟩ := exists_train_eq t source draws examples
  rw [Schema.requireSame_eq hplan.schema_built hexamples.schema_built, hplan.requireSet,
    checkQuestions_usedPool hplan hmade.sound] at htrain
  have hfails : t.plan.schema ≠ examples.schema → t.train source draws examples =
      .error (.schemaMismatch (t.plan.schema.differences examples.schema)) := by
    intro hne
    rw [htrain, if_neg hne]
    rfl
  have hsucceeds : t.plan.schema = examples.schema → t.train source draws examples = .ok o := by
    intro heq
    rw [htrain, if_pos heq]
    rfl
  refine ⟨⟨?_, fun hne => ⟨_, hfails hne⟩⟩, hfails, fun heq => ?_⟩
  · rintro ⟨e, he⟩ heq
    rw [hsucceeds heq] at he
    cases he
  · refine ⟨o, hsucceeds heq, hmade.partitions hexamples.nodup_tags, fun s hs => ?_⟩
    have hzero : (0 : Float) ≤ 0 := by decide
    have hword : 2 * examples.members.length + 1 < UInt32.size := by
      have hwords : UInt32.size = 2 ^ 32 := rfl
      rw [ExampleList.size] at hsize
      omega
    exact Stage.inRange_of_reaches hzero hsource hword hs

end Trainer

namespace Sample

theorem built_schema : schema.Built := ⟨[⟨"color", ["red", "blue"]⟩], by decide +kernel⟩

theorem built_plan : trainer.plan.Built := by
  have hblank : (TrainingPlan.blank schema : Except Error (TrainingPlan Float)) =
      .ok ⟨schema, TrainingPlan.unlimited, []⟩ := rfl
  have hcheck : step.check schema = .ok () := by decide +kernel
  have hstep : (⟨schema, 2, []⟩ : TrainingPlan Float).addStep step = .ok trainer.plan := by
    rw [TrainingPlan.addStep, hcheck]
    rfl
  exact .addStep (.setMaxLeaves (.blank built_schema hblank) 2 (by decide)) hstep

/-- A red thing and a blue thing, and what they show. -/
def redAndBlue (red blue : Box Float) : ExampleList Float :=
  ⟨schema, Handle.ofList 0 [⟨⟨schema, [some 0]⟩, red, 1⟩, ⟨⟨schema, [some 1]⟩, blue, 1⟩]⟩

theorem built_redAndBlue (red blue : Box Float) : (redAndBlue red blue).Built := by
  have hblank : (ExampleList.blank schema : Except Error (ExampleList Float)) =
      .ok ⟨schema, []⟩ := rfl
  have hsame : schema.requireSame schema = .ok () := by decide +kernel
  have hmass : Parameter.checkRange (1 : Float) 0.0 ExampleList.maxMass "n_obs" = .ok () := by
    decide +kernel
  have hred : (⟨schema, []⟩ : ExampleList Float).add ⟨0, ⟨⟨schema, [some 0]⟩, red, 1⟩⟩ =
      .ok ⟨schema, [⟨0, ⟨⟨schema, [some 0]⟩, red, 1⟩⟩]⟩ := by
    rw [ExampleList.add, hmass, hsame]
    rfl
  have hblue : (⟨schema, [⟨0, ⟨⟨schema, [some 0]⟩, red, 1⟩⟩]⟩ : ExampleList Float).add
      ⟨1, ⟨⟨schema, [some 1]⟩, blue, 1⟩⟩ = .ok (redAndBlue red blue) := by
    rw [ExampleList.add, hmass, hsame]
    rfl
  exact .add (.add (.blank built_schema hblank) hred) hblue

theorem built_list : list.Built := built_redAndBlue (Box.single 0) (Box.single 1)

theorem lawful_firstPlaces : firstPlaces.Lawful := fun _ _ _ _ hn => List.mem_of_mem_take hn

end Sample

namespace Trainer

open Sample

/-- The training that splits the red thing from the blue thing. -/
theorem partitions_red_from_blue : trainer.plan.Built ∧ list.Built ∧ list.size < 2 ^ 31 ∧
    firstPlaces.Lawful ∧
    ∃ o, trainer.train firstPlaces () list = .ok o ∧ o.Partitions list := by
  have hsize : list.size < 2 ^ 31 := by decide
  have hsame : trainer.plan.schema = list.schema := rfl
  obtain ⟨o, ho, hpartitions, _⟩ :=
    (train_of_built built_plan built_list hsize lawful_firstPlaces).2.2 hsame
  exact ⟨built_plan, built_list, hsize, lawful_firstPlaces, o, ho, hpartitions⟩

end Trainer

end QuestionTree
