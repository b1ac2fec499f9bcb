import QuestionTree.Proofs.DecisionTree.Codec
import QuestionTree.Proofs.Growth.Budget
import QuestionTree.Proofs.Question.Built
import QuestionTree.Proofs.Training.Partition

/-!
# Trained trees that are written and read back

Everything about a trained tree fits into its text but the masses and scores of its nodes, which
need not be finite, and its height, for which the levels of nesting may not suffice. The numbers of
its nodes are words because the budget of leaves is one. So a trained tree survives exactly if it is
not too high and its nodes have finite masses and scores; then what is read differs in nothing but
the handles of the questions, and otherwise the text is refused.
-/

namespace QuestionTree

variable {ν γ : Type}

namespace Node

variable {pool : QuestionPool} {n v : Node (NodeInfo ν)}

theorem Asks.id_lt (h : n.Asks pool) (hv : v ∈ n.preorder) (hinner : v.isLeaf = false) :
    v.id < pool.size := by
  induction n with
  | leaf id info =>
    rw [preorder_leaf, List.mem_singleton] at hv
    rw [hv] at hinner
    cases hinner
  | internal id info yes no ihYes ihNo =>
    obtain ⟨hid, hyes, hno⟩ := h
    rw [preorder_internal, List.mem_cons, List.mem_append] at hv
    rcases hv with rfl | hv | hv
    · exact hid
    · exact ihYes hyes hv
    · exact ihNo hno hv

end Node

theorem GrownTree.exists_info_of_shows {pool : QuestionPool} {t : GrownTree ν}
    {n v : Node (NodeInfo ν)} (h : t.Shows pool n) (hv : v ∈ n.preorder) :
    ∃ l : Leaf ν, v.info = infoOf l := by
  induction t generalizing n with
  | leaf l =>
    cases n with
    | leaf id info =>
      rw [Node.preorder_leaf, List.mem_singleton] at hv
      exact ⟨l, hv ▸ h⟩
    | internal id info yes no => cases h
  | split c yes no ihYes ihNo =>
    cases n with
    | leaf id info => cases h
    | internal id info yesNode noNode =>
      obtain ⟨hinfo, _, hyes, hno⟩ := h
      rw [Node.preorder_internal, List.mem_cons, List.mem_append] at hv
      rcases hv with rfl | hv | hv
      · exact ⟨c.candidate.leaf, hinfo⟩
      · exact ihYes hyes hv
      · exact ihNo hno hv

namespace DecisionTree

/-- Whether a tree that is written is read, and gives every record the class that it had. -/
def Survives (t : DecisionTree Float) : Prop :=
  ∃ t', read t.write = .ok t' ∧ ∀ record, t'.classify record = t.classify record

/-- Whether a tree is not too high and its masses and scores are finite. -/
structure Bounded (t : DecisionTree Float) : Prop where
  /-- The levels of nesting suffice. -/
  height_le : t.tree.height ≤ maxHeight
  size_finite : ∀ root, t.root? = some root → ∀ v ∈ root.preorder, v.info.size.isFinite = true
  score_finite : ∀ root, t.root? = some root → ∀ v ∈ root.preorder, v.info.score.isFinite = true

instance (t : DecisionTree Float) : Decidable t.Bounded :=
  decidable_of_iff
    (t.tree.height ≤ maxHeight ∧
      (∀ root ∈ t.root?, ∀ v ∈ root.preorder, v.info.size.isFinite = true) ∧
      ∀ root ∈ t.root?, ∀ v ∈ root.preorder, v.info.score.isFinite = true)
    ⟨fun h => ⟨h.1, h.2.1, h.2.2⟩, fun h => ⟨h.height_le, h.size_finite, h.score_finite⟩⟩

end DecisionTree

namespace Trainer

namespace Made

variable {t : Trainer Float} {examples : ExampleList Float} {o : Outcome Float}
  {g : Growth Float γ} {root : Node (NodeInfo Float)} (h : t.Made examples g root o)

include h

theorem ofParts_eq_ok (hplan : t.plan.Built) :
    DecisionTree.ofParts o.tree.schema o.tree.pool o.tree.root? = .ok o.tree := by
  have hquestions := checkQuestions_usedPool hplan h.sound
  rw [h.tree_eq]
  change DecisionTree.ofParts t.plan.schema g.usedPool (some root) = _
  rw [DecisionTree.ofParts_eq t.plan.schema (GrownTree.asks_of_shows h.shows), hplan.requireSet,
    hquestions]
  rfl

theorem node_id_lt (hbudget : g.commits.length + 1 ≤ max 1 t.plan.maxLeaves)
    (hplan : t.plan.Built) {v : Node (NodeInfo Float)} (hv : v ∈ root.preorder) :
    v.id < UInt64.size := by
  have hword := hplan.maxLeaves_lt
  have hone : 1 < UInt64.size := by decide
  have hcount : v.id < g.commits.length + 1 := by
    cases hleaf : v.isLeaf with
    | true =>
      obtain ⟨place, hplace⟩ := Node.mem_preorder_iff.1 hv
      exact h.id_lt (Node.mem_leaves_iff.2 ⟨hleaf, place, hplace⟩)
    | false =>
      -- an inner node has the rank of its question, and each question that was used has a commit
      have hid := Node.Asks.id_lt (GrownTree.asks_of_shows h.shows) hv hleaf
      rw [Growth.usedPool, QuestionPool.size, List.length_map] at hid
      have hused := h.sound.length_used_le
      omega
  omega

theorem dump_wellFormed (hbudget : g.commits.length + 1 ≤ max 1 t.plan.maxLeaves)
    (hplan : t.plan.Built)
    (hquestions : ∀ step ∈ t.plan.steps, ∀ q ∈ step.pool.members, q.item.Built) :
    o.tree.dump.WellFormed := by
  rw [h.tree_eq]
  refine ⟨hplan.schema_built, fun q hq => ?_, fun root' heq v hv => ?_⟩
  · change q ∈ (g.used.map Entry.question).map Handle.item at hq
    rw [List.map_map] at hq
    obtain ⟨e, he, rfl⟩ := List.mem_map.1 hq
    obtain ⟨step, hstep, hmem⟩ := h.sound.pooled e (Growth.mem_used_iff.1 he).1
    exact (hquestions step hstep e.question hmem).wellFormed
  · cases heq
    exact h.node_id_lt hbudget hplan hv

/-- The numbering of the nodes is made of words, so a bounded tree can be stored. -/
theorem storable_iff_bounded : DecisionTree.Storable o.tree.tree ↔ o.tree.Bounded := by
  have horder : ∀ v ∈ root.preorder, v.info.order < UInt32.size := by
    intro v hv
    obtain ⟨l, hl⟩ := GrownTree.exists_info_of_shows h.shows hv
    rw [hl]
    exact Nat.mod_lt _ (by decide)
  have hroot := h.root?_eq
  constructor
  · rintro ⟨hheight, hinfo⟩
    exact ⟨hheight, fun root' heq v hv => (hinfo root' heq v hv).size_finite,
      fun root' heq v hv => (hinfo root' heq v hv).score_finite⟩
  · intro hbounded
    refine ⟨hbounded.height_le, fun root' heq v hv => ?_⟩
    have hsame : root' = root := Option.some.inj (heq.symm.trans hroot)
    exact ⟨horder v (hsame ▸ hv), hbounded.size_finite root' heq v hv,
      hbounded.score_finite root' heq v hv⟩

end Made

variable {t : Trainer Float} {source : DrawSource γ} {draws : γ} {examples : ExampleList Float}
  {o : Outcome Float}

theorem read_write_of_train (hplan : t.plan.Built)
    (hquestions : ∀ step ∈ t.plan.steps, ∀ q ∈ step.pool.members, q.item.Built)
    (h : t.train source draws examples = .ok o) :
    (o.tree.Bounded → DecisionTree.read o.tree.write = .ok o.tree.rehandled) ∧
      (¬ o.tree.Bounded →
        DecisionTree.read o.tree.write = .error (.unableToRead .malformed)) := by
  obtain ⟨root, hmade⟩ := exists_made_of_train h
  have hbudget := Growth.length_commits_run_le t.scorer source draws t.plan examples.members
  have hdump := hmade.dump_wellFormed hbudget hplan hquestions
  rw [← hmade.storable_iff_bounded]
  exact ⟨DecisionTree.read_write (hmade.ofParts_eq_ok hplan) hdump,
    DecisionTree.read_write_of_not_storable hdump⟩

/-- A trained tree survives being written and read exactly if it is bounded. -/
theorem survives_iff_of_train (hplan : t.plan.Built)
    (hquestions : ∀ step ∈ t.plan.steps, ∀ q ∈ step.pool.members, q.item.Built)
    (h : t.train source draws examples = .ok o) :
    (o.tree.Survives ↔ o.tree.Bounded) ∧
    (o.tree.Bounded → ∃ t', DecisionTree.read o.tree.write = .ok t' ∧
      t'.schema = o.tree.schema ∧ t'.pool.questions = o.tree.pool.questions ∧
      t'.tree = o.tree.tree ∧ ∀ record, t'.find record = o.tree.find record) ∧
    (¬ o.tree.Bounded →
      DecisionTree.read o.tree.write = .error (.unableToRead .malformed)) := by
  obtain ⟨hread, hrefused⟩ := read_write_of_train hplan hquestions h
  refine ⟨⟨fun hsurvives => ?_, fun hbounded => ?_⟩, fun hbounded => ?_, hrefused⟩
  · by_contra hnot
    obtain ⟨t', ht', _⟩ := hsurvives
    rw [hrefused hnot] at ht'
    cases ht'
  · refine ⟨o.tree.rehandled, hread hbounded, fun record => ?_⟩
    rw [DecisionTree.classify, DecisionTree.classify, DecisionTree.find_rehandled]
  · exact ⟨o.tree.rehandled, hread hbounded, rfl,
      QuestionPool.questions_ofQuestions 0 o.tree.pool.questions, rfl, o.tree.find_rehandled⟩

end Trainer

namespace Sample

theorem built_questions : ∀ step ∈ trainer.plan.steps, ∀ q ∈ step.pool.members, q.item.Built := by
  have haddressable : schema.Addressable := ⟨by decide, by decide⟩
  have hsingle : Question.single schema "color" "red" "" = .ok ⟨0, .single 0, ""⟩ := by
    decide +kernel
  intro s hs q hq
  rw [List.mem_singleton.1 hs] at hq
  rw [List.mem_singleton.1 hq]
  exact .single haddressable hsingle

/-- A red thing and a blue thing that are very far apart. -/
def farApart : ExampleList Float := redAndBlue (Box.single 1e200) (Box.single (-1e200))

end Sample

namespace Trainer

open Sample

/-- The training that splits the red thing from the blue thing. -/
theorem survives_red_from_blue : trainer.plan.Built ∧
    (∀ step ∈ trainer.plan.steps, ∀ q ∈ step.pool.members, q.item.Built) ∧
    ∃ o, trainer.train firstPlaces () list = .ok o ∧ o.tree.Bounded ∧ o.tree.Survives := by
  have hcheck : (trainer.train firstPlaces () list).toOption.map
      (fun o => decide o.tree.Bounded) = some true := by
    decide +kernel
  cases h : trainer.train firstPlaces () list with
  | error e =>
    rw [h] at hcheck
    cases hcheck
  | ok o =>
    rw [h] at hcheck
    have hbounded : o.tree.Bounded := of_decide_eq_true (Option.some.inj hcheck)
    refine ⟨built_plan, built_questions, o, rfl, hbounded, ?_⟩
    exact (survives_iff_of_train built_plan built_questions h).1.2 hbounded

/-- The variance of things that are very far apart is not finite, and so their tree is lost. -/
theorem not_survives_farApart : trainer.plan.Built ∧ farApart.Built ∧
    ∃ o, trainer.train firstPlaces () farApart = .ok o ∧ ¬ o.tree.Survives := by
  have hcheck : (trainer.train firstPlaces () farApart).toOption.map
      (fun o => decide o.tree.Bounded) = some false := by
    decide +kernel
  cases h : trainer.train firstPlaces () farApart with
  | error e =>
    rw [h] at hcheck
    cases hcheck
  | ok o =>
    rw [h] at hcheck
    have hbounded : ¬ o.tree.Bounded := of_decide_eq_false (Option.some.inj hcheck)
    refine ⟨built_plan, built_redAndBlue _ _, o, rfl, ?_⟩
    rintro ⟨t, ht, _⟩
    rw [(read_write_of_train built_plan built_questions h).2 hbounded] at ht
    cases ht

end Trainer

end QuestionTree
