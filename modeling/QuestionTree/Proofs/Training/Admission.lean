import QuestionTree.Proofs.Growth.Origin
import QuestionTree.Proofs.Growth.Placement
import QuestionTree.Proofs.Growth.Range
import QuestionTree.Proofs.Growth.Tally
import QuestionTree.Proofs.Number.Order
import QuestionTree.Proofs.Schema.Comparison
import QuestionTree.Proofs.Training.Routing

/-!
# The splits of a trained tree

Every split of a trained tree can be checked again without the run. The examples that pass a node
are shared out by its question among its two children, and the scorer rates the two sides with the
gain for which the split was admitted and with the scores of the children. Which step admitted it is
found by the totals: the number of an inner node counts the questions that were used, in the order
of the catalogue of the plan. The gains of all inner nodes, added in the order in which the children
were made, are the total gain.
-/

namespace QuestionTree

variable {ν γ : Type}

/-- The places, among all questions on offer, of those that were used. -/
def Summary.usedPlaces (s : Summary ν) : List Nat :=
  (s.statistics.zipIdx.filter fun entry => decide (entry.1.2.count ≠ 0)).map Prod.snd

/-- The rating of the two sides of the node at a place, whose score is given, by the examples that
pass its children. -/
def Outcome.rating (o : Outcome ν) (scorer : Scorer ν) (examples : ExampleList ν)
    (place : List Bool) (score : ν) : SplitScore ν :=
  scorer.split ((o.passing examples (place ++ [true])).map Handle.item)
    ((o.passing examples (place ++ [false])).map Handle.item) score

/-- Whether the split of a node by a question passes the tests of a step. -/
structure Outcome.Readmits (o : Outcome Float) (scorer : Scorer Float)
    (examples : ExampleList Float) (step : Step Float) (q : Question) (place : List Bool)
    (v yes no : NodeInfo Float) : Prop where
  yes_passing : o.passing examples (place ++ [true]) =
    (o.passing examples place).filter q.affirms
  no_passing : o.passing examples (place ++ [false]) =
    (o.passing examples place).filter fun e => !q.affirms e
  yes_ne_nil : o.passing examples (place ++ [true]) ≠ []
  no_ne_nil : o.passing examples (place ++ [false]) ≠ []
  size_eq : v.size = Example.totalMass ((o.passing examples place).map Handle.item)
  yes_size_eq :
    yes.size = Example.totalMass ((o.passing examples (place ++ [true])).map Handle.item)
  no_size_eq :
    no.size = Example.totalMass ((o.passing examples (place ++ [false])).map Handle.item)
  reaches : ¬ v.size < step.minObs + step.minObs
  yes_reaches : ¬ yes.size < step.minObs
  no_reaches : ¬ no.size < step.minObs
  yes_massive : ¬ yes.size ≤ 0
  no_massive : ¬ no.size ≤ 0
  /-- More is gained than the step asks for. -/
  gains : step.minGain < (o.rating scorer examples place v.score).gain
  gain_pos : 0 < (o.rating scorer examples place v.score).gain
  gain_number : (o.rating scorer examples place v.score).gain.isNaN = false
  yes_score : (o.rating scorer examples place v.score).left = yes.score
  no_score : (o.rating scorer examples place v.score).right = no.score

/-- Whether all splits of a trained tree pass the tests again and their gains are the total. -/
structure Outcome.Admissible (o : Outcome Float) (scorer : Scorer Float)
    (plan : TrainingPlan Float) (examples : ExampleList Float) : Prop where
  /-- The question of an inner node is that of a step whose tests the split passes. -/
  readmits : ∀ place id info yes no, o.tree.nodeAt? place = some (.internal id info yes no) →
    ∃ k step q, o.summary.usedPlaces[id]? = some k ∧
      (catalogue plan.steps)[k]? = some (step, q) ∧ o.tree.pool.require id = .ok q ∧
      o.Readmits scorer examples step q.item place info yes.info no.info
  /-- The total is the sum of the gains in the order in which the children were made. -/
  total : ∃ splits : List (List Bool × Node (NodeInfo Float)), (splits.map Prod.fst).Nodup ∧
    (∀ place v, (place, v) ∈ splits ↔ o.tree.nodeAt? place = some v ∧ v.isLeaf = false) ∧
    (∀ i place id info yes no, splits[i]? = some (place, .internal id info yes no) →
      yes.info.order = (2 * i + 1) % UInt32.size ∧ no.info.order = (2 * i + 2) % UInt32.size) ∧
    o.summary.totalGain =
      splits.foldl (fun total s => total + (o.rating scorer examples s.1 s.2.info.score).gain) 0

namespace Growth

variable [Arithmetic ν]

variable {scorer : Scorer ν} {examples : List (Handle (Example ν))} {steps : List (Step ν)}
  {current : Option (Step ν)} {waiting : List (Leaf ν)} {g : Growth ν γ}

namespace Sound

variable (h : g.Sound scorer examples steps current waiting)

include h

theorem usedPlaces_summary (leafCount : Nat) :
    (g.summary leafCount).usedPlaces = g.used.map Entry.id := by
  have hzip : g.offered.zipIdx = g.offered.map fun e => (e, e.id) := by
    refine List.ext_getElem? fun i => ?_
    rw [List.getElem?_zipIdx, List.getElem?_map, Nat.zero_add]
    cases hi : g.offered[i]? with
    | none => rfl
    | some e => exact congrArg (fun id => some (e, id)) (h.id_of_getElem? hi).symm
  have hused : ∀ e, decide ((g.statisticOf e).count ≠ 0) = !(g.commitsOf e).isEmpty := by
    intro e
    rw [count_statisticOf]
    cases g.commitsOf e <;> rfl
  rw [Summary.usedPlaces, summary, List.zipIdx_map, hzip, List.map_map, List.filter_map,
    List.map_map, used]
  refine congrArg (List.map Entry.id) (List.filter_congr fun e _ => ?_)
  exact hused e

/-- The nodes that stand for the commits, in the order of time. -/
theorem exists_splits {root : Node (NodeInfo ν)} {next : Nat}
    (hroot : g.tree.toNode g.rank 0 = .ok (root, next)) (hshows : g.tree.Shows g.usedPool root) :
    ∃ splits : List (List Bool × Node (NodeInfo ν)), splits.Perm root.inner ∧
      List.Forall₂ (fun s c => c.StandsAt g.rank g.usedPool root g.root.members s) splits
        g.commits := by
  have hperm : g.tree.splits.Perm g.commits := h.ledger.tree_splits
  have hinner := GrownTree.forall₂_of_toNode hroot hshows h.ledger.tree_rooted fun _ hc =>
    h.divides (hperm.mem_iff.1 hc)
  obtain ⟨splits, hsplits, hforall⟩ := List.perm_comp_forall₂ hperm.symm hinner.flip
  exact ⟨splits, hforall, hsplits.flip⟩

end Sound

end Growth

namespace Trainer

variable {t : Trainer Float} {source : DrawSource γ} {draws : γ} {examples : ExampleList Float}
  {o : Outcome Float}

theorem exists_toNode_of_train (h : t.train source draws examples = .ok o) :
    ∃ root after, o.tree.root? = some root ∧
      (t.grow source draws examples).tree.toNode (t.grow source draws examples).rank 0 =
        .ok (root, after) := by
  obtain ⟨⟨⟩, _, h⟩ := bind_eq_ok_iff.1 h
  obtain ⟨⟨tree, leafCount⟩, htree, h⟩ := bind_eq_ok_iff.1 h
  obtain ⟨clusters, _, h⟩ := bind_eq_ok_iff.1 h
  cases h
  obtain ⟨⟨root, after⟩, hroot, htree⟩ := bind_eq_ok_iff.1 htree
  obtain ⟨made, hmade, htree⟩ := bind_eq_ok_iff.1 htree
  cases htree
  refine ⟨root, _, ?_, hroot⟩
  obtain ⟨⟨⟩, _, hmade⟩ := bind_eq_ok_iff.1 hmade
  obtain ⟨⟨⟩, _, hmade⟩ := bind_eq_ok_iff.1 hmade
  obtain ⟨⟨⟩, _, hmade⟩ := bind_eq_ok_iff.1 hmade
  cases hmade
  rfl

namespace Made

variable {g : Growth Float γ} {root : Node (NodeInfo Float)} {place : List Bool} {id : Nat}
  {info : NodeInfo Float} {yes no : Node (NodeInfo Float)} {c : Commit Float}

theorem passing_eq (h : t.Made examples g root o) (place : List Bool) :
    o.passing examples place =
      examples.members.filter fun e => root.passes g.usedPool place e.item.record := by
  rw [Outcome.passing]
  refine List.filter_congr fun e _ => ?_
  rw [DecisionTree.passes_eq h.root?_eq, h.tree_eq]

theorem passing_concat (h : t.Made examples g root o) {q : Handle Question}
    (hv : root.at? place = some (.internal id info yes no)) (hq : g.usedPool.require id = .ok q)
    (branch : Bool) :
    o.passing examples (place ++ [branch]) =
      (o.passing examples place).filter fun e => branch == q.item.affirms e := by
  have hasks : root.Asks g.usedPool := GrownTree.asks_of_shows h.shows
  rw [h.passing_eq, h.passing_eq, List.filter_filter]
  refine List.filter_congr fun e _ => ?_
  rw [Node.passes_concat hasks hv hq, Bool.and_comm]
  rfl

theorem passing_of_standsAt (h : t.Made examples g root o) {step : Step Float}
    (hc : c ∈ g.commits) (hv : root.at? place = some (.internal id info yes no))
    (hstands : c.StandsAt g.rank g.usedPool root g.root.members (place, .internal id info yes no))
    (hadmitted : c.candidate.Admitted t.scorer step) :
    o.passing examples place = c.candidate.leaf.members ∧
      o.passing examples (place ++ [true]) = c.candidate.yes.members ∧
      o.passing examples (place ++ [false]) = c.candidate.no.members := by
  obtain ⟨_, _, _, heq, hrank, _⟩ := hstands.node_eq
  cases heq
  have hq := h.sound.require_of_rank hc hrank
  have hroot : g.root.members = examples.members := by
    rw [h.sound.root_eq]
    rfl
  have hpassing : o.passing examples place = c.candidate.leaf.members := by
    rw [hstands.leaf_members, hroot, h.passing_eq]
  refine ⟨hpassing, ?_, ?_⟩
  · rw [h.passing_concat hv hq, hpassing, hadmitted.yes_members]
    exact List.filter_congr fun e _ => Bool.true_beq _
  · rw [h.passing_concat hv hq, hpassing, hadmitted.no_members]
    exact List.filter_congr fun e _ => Bool.false_beq _

theorem rating_of_standsAt (h : t.Made examples g root o) {step : Step Float}
    (hc : c ∈ g.commits) (hv : root.at? place = some (.internal id info yes no))
    (hstands : c.StandsAt g.rank g.usedPool root g.root.members (place, .internal id info yes no))
    (hadmitted : c.candidate.Admitted t.scorer step) :
    o.rating t.scorer examples place info.score =
      ⟨c.candidate.gain, yes.info.score, no.info.score⟩ := by
  obtain ⟨_, hyesMembers, hnoMembers⟩ := h.passing_of_standsAt hc hv hstands hadmitted
  obtain ⟨⟨_, hyesScore, _⟩, _, hnoScore, _⟩ := h.sound.sides_of_commit hc
  obtain ⟨_, _, _, heq, _, hyesInfo, hnoInfo⟩ := hstands.node_eq
  cases heq
  have hscore : (GrownTree.infoOf c.candidate.leaf).score = c.candidate.leaf.score := rfl
  rw [Outcome.rating, hyesMembers, hnoMembers, hscore, hadmitted.rating, hyesInfo, hnoInfo,
    ← hyesScore, ← hnoScore]
  rfl

theorem readmits_of_standsAt (h : t.Made examples g root o) {step : Step Float}
    (hc : c ∈ g.commits) (hv : root.at? place = some (.internal id info yes no))
    (hstands : c.StandsAt g.rank g.usedPool root g.root.members (place, .internal id info yes no))
    (hadmitted : c.candidate.Admitted t.scorer step) :
    o.Readmits t.scorer examples step c.candidate.entry.question.item place info yes.info
      no.info := by
  obtain ⟨hpassing, hyesMembers, hnoMembers⟩ := h.passing_of_standsAt hc hv hstands hadmitted
  have hrating := h.rating_of_standsAt hc hv hstands hadmitted
  obtain ⟨⟨hyesMass, _⟩, hnoMass, _⟩ := h.sound.sides_of_commit hc
  obtain ⟨_, _, _, heq, _, hyesInfo, hnoInfo⟩ := hstands.node_eq
  cases heq
  have hyesSize : yes.info.size = c.candidate.yes.mass := by
    rw [hyesInfo]
    exact hyesMass
  have hnoSize : no.info.size = c.candidate.no.mass := by
    rw [hnoInfo]
    exact hnoMass
  have hzero : (0 : Float) ≤ 0 := by decide
  obtain ⟨hyesNil, hnoNil⟩ := Growth.sides_ne_nil hzero hadmitted
  refine
    { yes_passing := ?_
      no_passing := ?_
      yes_ne_nil := hyesMembers ▸ hyesNil
      no_ne_nil := hnoMembers ▸ hnoNil
      size_eq := ?_
      yes_size_eq := ?_
      no_size_eq := ?_
      reaches := hadmitted.leaf_mass
      yes_reaches := hyesSize ▸ fun hlt => hadmitted.reaches (.inl hlt)
      no_reaches := hnoSize ▸ fun hlt => hadmitted.reaches (.inr hlt)
      yes_massive := hyesSize ▸ fun hle => hadmitted.massive (.inl hle)
      no_massive := hnoSize ▸ fun hle => hadmitted.massive (.inr hle)
      gains := hrating ▸ hadmitted.gains.1
      gain_pos := hrating ▸ hadmitted.gains.2
      gain_number := hrating ▸ Binary64.isNaN_of_pos hadmitted.gains.2
      yes_score := congrArg SplitScore.left hrating
      no_score := congrArg SplitScore.right hrating }
  · rw [hyesMembers, hpassing, hadmitted.yes_members]
  · rw [hnoMembers, hpassing, hadmitted.no_members]
  · rw [hpassing]
    exact h.sound.mass_of_commit hc
  · rw [hyesSize, hyesMembers, hadmitted.yes_mass]
  · rw [hnoSize, hnoMembers, hadmitted.no_mass]

end Made

/-- What training makes, with the conversion that its tree comes from. -/
theorem exists_made_toNode_of_train (h : t.train source draws examples = .ok o) :
    ∃ root after, t.Made examples (t.grow source draws examples) root o ∧
      (t.grow source draws examples).tree.toNode (t.grow source draws examples).rank 0 =
        .ok (root, after) := by
  obtain ⟨root, hmade⟩ := exists_made_of_train h
  obtain ⟨root', after, hroot, hnode⟩ := exists_toNode_of_train h
  rw [hmade.root?_eq, Option.some_inj] at hroot
  exact ⟨root, after, hmade, hroot ▸ hnode⟩

theorem exists_splits_of_train (h : t.train source draws examples = .ok o) :
    ∃ (root : Node (NodeInfo Float)) (splits : List (List Bool × Node (NodeInfo Float))),
      t.Made examples (t.grow source draws examples) root o ∧
      splits.Perm root.inner ∧ splits.length = (t.grow source draws examples).commits.length ∧
      ∀ (i : Nat) s, splits[i]? = some s → ∃ c step,
        (t.grow source draws examples).commits[i]? = some c ∧
        c.StandsAt (t.grow source draws examples).rank (t.grow source draws examples).usedPool root
          (t.grow source draws examples).root.members s ∧
        c.candidate.entry.From t.plan.steps step ∧ c.candidate.Admitted t.scorer step := by
  obtain ⟨root, after, hmade, hnode⟩ := exists_made_toNode_of_train h
  obtain ⟨splits, hperm, hstands⟩ := hmade.sound.exists_splits hnode hmade.shows
  refine ⟨root, splits, hmade, hperm, hstands.length_eq, fun i s hi => ?_⟩
  obtain ⟨c, hc, hs⟩ := exists_getElem?_of_forall₂ hstands hi
  obtain ⟨step, hfrom, hadmitted⟩ := Growth.exists_step_of_run (List.mem_of_getElem? hc)
  exact ⟨c, step, hc, hs, hfrom, hadmitted⟩

theorem readmits_of_train (h : t.train source draws examples = .ok o) {place : List Bool}
    {id : Nat} {info : NodeInfo Float} {yes no : Node (NodeInfo Float)}
    (hv : o.tree.nodeAt? place = some (.internal id info yes no)) :
    ∃ k step q, o.summary.usedPlaces[id]? = some k ∧
      (catalogue t.plan.steps)[k]? = some (step, q) ∧ o.tree.pool.require id = .ok q ∧
      o.Readmits t.scorer examples step q.item place info yes.info no.info := by
  obtain ⟨root, splits, hmade, hperm, _, hcommit⟩ := exists_splits_of_train h
  rw [DecisionTree.nodeAt?_eq hmade.root?_eq] at hv
  have hinner := hperm.mem_iff.2 (Node.mem_inner_iff.2 ⟨hv, rfl⟩)
  obtain ⟨i, hi⟩ := List.mem_iff_getElem?.1 hinner
  obtain ⟨c, step, hc, hs, hfrom, hadmitted⟩ := hcommit i _ hi
  have hmem := List.mem_of_getElem? hc
  obtain ⟨_, _, _, heq, hrank, _⟩ := hs.node_eq
  cases heq
  refine ⟨c.candidate.entry.id, step, c.candidate.entry.question, ?_, hfrom, ?_,
    hmade.readmits_of_standsAt hmem hv hs hadmitted⟩
  · rw [hmade.summary_eq, hmade.sound.usedPlaces_summary, List.getElem?_map,
      hmade.sound.getElem?_used_of_rank hmem hrank]
    rfl
  · rw [hmade.tree_eq]
    exact hmade.sound.require_of_rank hmem hrank

/-- The splits of a trained tree pass their tests again, and their gains are the total. -/
theorem admissible_of_train (h : t.train source draws examples = .ok o) :
    o.Admissible t.scorer t.plan examples := by
  obtain ⟨root, splits, hmade, hperm, hlength, hcommit⟩ := exists_splits_of_train h
  have hmem : ∀ place v, (place, v) ∈ splits ↔
      o.tree.nodeAt? place = some v ∧ v.isLeaf = false := by
    intro place v
    rw [hperm.mem_iff, Node.mem_inner_iff, DecisionTree.nodeAt?_eq hmade.root?_eq]
  refine ⟨fun _ _ _ _ _ hv => readmits_of_train h hv, splits, ?_, hmem, ?_, ?_⟩
  · exact (hperm.map Prod.fst).nodup_iff.2 root.nodup_inner
  · intro i place id info yes no hi
    obtain ⟨c, _, hc, hs, _⟩ := hcommit i _ hi
    obtain ⟨_, _, _, heq, _, hyesInfo, hnoInfo⟩ := hs.node_eq
    cases heq
    rw [hyesInfo, hnoInfo, hmade.sound.ledger.numbered i c hc]
    exact ⟨rfl, rfl⟩
  · have hgains : (splits.map fun s => (o.rating t.scorer examples s.1 s.2.info.score).gain) =
        (t.grow source draws examples).commits.map (·.candidate.gain) := by
      refine List.ext_getElem? fun i => ?_
      rw [List.getElem?_map, List.getElem?_map]
      cases hi : splits[i]? with
      | none =>
        rw [List.getElem?_eq_none_iff, hlength, ← List.getElem?_eq_none_iff] at hi
        rw [hi]
        rfl
      | some s =>
        obtain ⟨c, step, hc, hs, _, hadmitted⟩ := hcommit i s hi
        obtain ⟨place, v⟩ := s
        have hv := (Node.mem_inner_iff.1 (hperm.mem_iff.1 (List.mem_of_getElem? hi))).1
        obtain ⟨id, yes, no, rfl, _⟩ := hs.node_eq
        have hrating := hmade.rating_of_standsAt (List.mem_of_getElem? hc) hv hs hadmitted
        rw [hc]
        exact congrArg some (congrArg SplitScore.gain hrating)
    have htotal : o.summary.totalGain =
        ((t.grow source draws examples).commits.map (·.candidate.gain)).foldl (· + ·) 0 := by
      rw [hmade.summary_eq, List.foldl_map]
      rfl
    rw [htotal, ← hgains, List.foldl_map]

open Sample in
/-- The training that splits the red thing from the blue thing. -/
theorem admissible_red_from_blue : ∃ o, trainer.train firstPlaces () list = .ok o ∧
    o.summary.splitCount = 1 ∧ o.Admissible trainer.scorer trainer.plan list := by
  have hcount : (trainer.train firstPlaces () list).toOption.map (·.summary.splitCount) =
      some 1 := by
    decide +kernel
  obtain ⟨o, ho, hsplit⟩ := Outcome.exists_of_splitCount hcount
  exact ⟨o, ho, hsplit, admissible_of_train ho⟩

end Trainer

end QuestionTree
