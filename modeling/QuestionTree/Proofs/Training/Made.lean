import QuestionTree.Proofs.DecisionTree.Classes
import QuestionTree.Proofs.Growth.Conversion

/-!
# What training makes

Training succeeds exactly if the schemas agree, the schema is set and the questions that were used
fit it: nothing else that it does can fail. `Trainer.Made` says what a successful training makes.
Its tree shows the tree of the run, its clusters are those of the classes, and its totals are those
of the run.
-/

namespace QuestionTree

variable {ν γ : Type}

namespace DecisionTree

variable {pool : QuestionPool} {root : Node (NodeInfo ν)}

theorem checkNodes_eq_ok_iff : checkNodes pool (some root) = .ok () ↔ root.Asks pool := by
  rw [checkNodes, forM_eq_ok_iff]
  have hnode : ∀ n : Node (NodeInfo ν),
      (do let _ ← pool.require n.id) = (.ok () : Except Error Unit) ↔ n.id < pool.size := by
    intro n
    rw [bind_eq_ok_iff]
    constructor
    · rintro ⟨q, hq, _⟩
      exact (List.getElem?_eq_some_iff.1 (Node.require_eq_ok_iff.1 hq)).1
    · intro hlt
      obtain ⟨q, hq⟩ := Node.exists_require hlt
      exact ⟨q, hq, rfl⟩
  simp only [hnode]
  induction root with
  | leaf id info =>
    rw [Node.preorder_leaf]
    exact ⟨fun _ => trivial, fun _ n hn => by simp [Node.isLeaf, Node.children?] at hn⟩
  | internal id info yes no ihYes ihNo =>
    rw [Node.preorder_internal, List.filter_cons_of_pos (by rfl), List.filter_append,
      List.forall_mem_cons, List.forall_mem_append]
    exact and_congr_right fun _ => and_congr ihYes ihNo

theorem ofParts_eq (schema : Schema) (hasks : root.Asks pool) :
    ofParts schema pool (some root) = do
      schema.requireSet
      checkQuestions schema pool
      return ⟨schema, pool, ⟨some root⟩⟩ := by
  rw [ofParts, checkNodes_eq_ok_iff.2 hasks]
  rfl

end DecisionTree

namespace Trainer

variable [Arithmetic ν]

/-- What a training makes of a run. -/
structure Made (t : Trainer ν) (examples : ExampleList ν) (g : Growth ν γ)
    (root : Node (NodeInfo ν)) (o : Outcome ν) : Prop where
  sound : g.Sound t.scorer examples.members t.plan.steps none []
  shows : g.tree.Shows g.usedPool root
  numbered : root.leaves.map Node.id = List.range (g.commits.length + 1)
  tree_eq : o.tree = ⟨t.plan.schema, g.usedPool, ⟨some root⟩⟩
  clusters_eq : o.clusters = ⟨t.plan.schema, (List.range (g.commits.length + 1)).map fun classId =>
    ⟨classId, examples.members.filter
      fun e => decide (o.tree.classify e.item.record = .ok classId)⟩⟩
  summary_eq : o.summary = g.summary (g.commits.length + 1)

variable {t : Trainer ν} {source : DrawSource γ} {draws : γ} {examples : ExampleList ν}

/-- Training fails at most because the schemas differ, the schema is not set, or a question that was
used does not fit it. -/
theorem exists_train_eq (t : Trainer ν) (source : DrawSource γ) (draws : γ)
    (examples : ExampleList ν) :
    ∃ root o, t.Made examples (t.grow source draws examples) root o ∧
      t.train source draws examples = do
        t.plan.schema.requireSame examples.schema
        t.plan.schema.requireSet
        DecisionTree.checkQuestions t.plan.schema (t.grow source draws examples).usedPool
        return o := by
  have hsound : (t.grow source draws examples).Sound t.scorer examples.members t.plan.steps none
      [] :=
    Growth.sound_run t.scorer source draws t.plan examples.members
  rw [train]
  generalize t.grow source draws examples = g at hsound ⊢
  obtain ⟨root, hroot, hshows, hids⟩ := hsound.exists_node
  have hasks := GrownTree.asks_of_shows hshows
  let tree : DecisionTree ν := ⟨t.plan.schema, g.usedPool, ⟨some root⟩⟩
  have hclusters := DecisionTree.clusters_eq (t := tree) rfl hasks examples.members
    (g.commits.length + 1)
  let o : Outcome ν := ⟨tree, ⟨t.plan.schema, (List.range (g.commits.length + 1)).map fun classId =>
    ⟨classId, examples.members.filter fun e => decide (tree.classify e.item.record = .ok classId)⟩⟩,
    g.summary (g.commits.length + 1)⟩
  refine ⟨root, o, ⟨hsound, hshows, hids, rfl, rfl, rfl⟩, ?_⟩
  have htree : g.decisionTree t.plan.schema = do
      t.plan.schema.requireSet
      DecisionTree.checkQuestions t.plan.schema g.usedPool
      return (tree, g.commits.length + 1) := by
    have hpool : (⟨g.used.map Entry.question⟩ : QuestionPool) = g.usedPool := rfl
    simp only [Growth.decisionTree, hroot, hpool, bind, Except.bind]
    rw [DecisionTree.ofParts_eq t.plan.schema hasks]
    cases t.plan.schema.requireSet with
    | error e => rfl
    | ok _ => cases DecisionTree.checkQuestions t.plan.schema g.usedPool <;> rfl
  rw [finish, htree]
  cases t.plan.schema.requireSet with
  | error e => rfl
  | ok _ =>
    cases DecisionTree.checkQuestions t.plan.schema g.usedPool with
    | error e => rfl
    | ok _ =>
      simp only [bind, Except.bind, pure, Except.pure, hclusters]
      rfl

theorem checkQuestions_of_validate {scorer : Scorer ν} {members : List (Handle (Example ν))}
    {steps : List (Step ν)} {current : Option (Step ν)} {waiting : List (Leaf ν)}
    {g : Growth ν γ} {schema : Schema}
    (hvalid : ∀ step ∈ steps, ∀ q ∈ step.pool.members, q.item.validate schema = .ok ())
    (hsound : g.Sound scorer members steps current waiting) :
    DecisionTree.checkQuestions schema g.usedPool = .ok () := by
  refine forM_eq_ok_iff.2 fun q hq => ?_
  rw [Growth.usedPool, QuestionPool.questions, List.map_map] at hq
  obtain ⟨e, he, rfl⟩ := List.mem_map.1 hq
  obtain ⟨step, hstep, hmem⟩ := hsound.pooled e (Growth.mem_used_iff.1 he).1
  exact hvalid step hstep e.question hmem

theorem exists_train_of_validate (hsame : t.plan.schema.requireSame examples.schema = .ok ())
    (hset : t.plan.schema.requireSet = .ok ())
    (hvalid : ∀ step ∈ t.plan.steps, ∀ q ∈ step.pool.members,
      q.item.validate t.plan.schema = .ok ()) (source : DrawSource γ) (draws : γ) :
    ∃ o, t.train source draws examples = .ok o := by
  obtain ⟨root, o, hmade, htrain⟩ := exists_train_eq t source draws examples
  rw [hsame, hset, checkQuestions_of_validate hvalid hmade.sound] at htrain
  exact ⟨o, htrain⟩

end Trainer

end QuestionTree
