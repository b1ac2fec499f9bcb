import QuestionTree.Proofs.Growth.Entered
import QuestionTree.Proofs.Training.Paths

/-!
# The statistics of a trained tree

While a tree grows, the use of a question is noted down with each split; the tree and the list of
its questions are made at the end. Both agree. The statistics list the questions of the steps that
were run, one step after the other. What is noted down of a question can be read off the inner nodes
that it splits: how many there are, how deep they are and what the splits gained. The questions of
the tree are those that split a node, in the order of the statistics, and an inner node carries the
rank of its question among them.
-/

namespace QuestionTree

variable {ν γ : Type}

/-- The plan with the given steps in place of its own. -/
def TrainingPlan.withSteps (p : TrainingPlan ν) (steps : List (Step ν)) : TrainingPlan ν :=
  { p with steps := steps }

namespace Outcome

/-- The inner nodes of the tree with their places. -/
def inner (o : Outcome ν) : List (List Bool × Node (NodeInfo ν)) :=
  (o.tree.root?.map Node.inner).getD []

variable [Arithmetic ν]

/-- The gain and the depth of the split of an inner node. -/
def useOf (o : Outcome ν) (scorer : Scorer ν) (examples : ExampleList ν)
    (s : List Bool × Node (NodeInfo ν)) : ν × Nat :=
  ((o.rating scorer examples s.1 s.2.info.score).gain, s.1.length)

/-- The gains and the depths of the nodes that are split by a question, which is given by its place
in the statistics. A node carries the rank of this place among those of the questions used. -/
def usesOf (o : Outcome ν) (scorer : Scorer ν) (examples : ExampleList ν) (place : Nat) :
    List (ν × Nat) :=
  (o.inner.filter fun s => decide (o.summary.usedPlaces[s.2.id]? = some place)).map
    (o.useOf scorer examples)

/-- Whether an inner node records a commit. -/
structure Records (o : Outcome ν) (scorer : Scorer ν) (examples : ExampleList ν)
    (s : List Bool × Node (NodeInfo ν)) (c : Commit ν) : Prop where
  /-- The node carries the rank of the question that the commit asked. -/
  place_eq : o.summary.usedPlaces[s.2.id]? = some c.candidate.entry.id
  question_eq : o.tree.pool.require s.2.id = .ok c.candidate.entry.question
  use_eq : o.useOf scorer examples s = (c.candidate.gain, c.candidate.leaf.depth)

/-- Whether the statistics of a training agree with the tree that its run grew. -/
structure Tallied (o : Outcome Float) (t : Trainer Float) (source : DrawSource γ) (draws : γ)
    (examples : ExampleList Float) : Prop where
  /-- The questions of the steps that the run entered are listed, one step after the other. -/
  listed : o.summary.statistics.map Prod.fst =
    (t.grow source draws examples).entered.flatMap Step.offers
  /-- The steps of the plan are entered in their order. -/
  entered_first : (t.grow source draws examples).entered <+: t.plan.steps
  /-- Steps are left over only if the budget is reached. -/
  entered_all : (t.grow source draws examples).entered = t.plan.steps ∨
    t.plan.maxLeaves ≤ o.summary.leafCount
  /-- The steps before one that is entered do not reach the budget. -/
  entered_below : ∀ before step, before ++ [step] <+: (t.grow source draws examples).entered →
    (Growth.run t.scorer source draws (t.plan.withSteps before) examples.members).commits.length +
      1 < t.plan.maxLeaves
  /-- The inner nodes record the commits of the run. -/
  recorded : ∃ splits, splits.Perm o.inner ∧
    List.Forall₂ (o.Records t.scorer examples) splits (t.grow source draws examples).commits
  /-- A statistic tells of the nodes that its question splits. -/
  tells : ∀ (place : Nat) (q : Handle Question) (s : Statistic Float),
    o.summary.statistics[place]? = some (q, s) → s.Tells (o.usesOf t.scorer examples place)
  /-- The sum of the depths is exact if there are not too many splits for a word to hold it. -/
  exact : o.summary.splitCount ≤ UInt32.size → ∀ (place : Nat) (q : Handle Question)
    (s : Statistic Float), o.summary.statistics[place]? = some (q, s) →
      s.sumDepth = ((o.usesOf t.scorer examples place).map Prod.snd).sum
  /-- The splits are counted once each. -/
  counts : (o.summary.statistics.map fun entry => entry.2.count).sum = o.summary.splitCount
  splitCount_eq : o.summary.splitCount = o.inner.length
  /-- The questions of the tree are those that were used, in the same order. -/
  kept : o.tree.pool.members =
    (o.summary.statistics.filter fun entry => decide (entry.2.count ≠ 0)).map Prod.fst
  /-- The number of an inner node is the rank of its question among those that were used. -/
  ranked : ∀ place id info yes no, o.tree.nodeAt? place = some (.internal id info yes no) →
    ∃ k q s, o.summary.usedPlaces[id]? = some k ∧ o.summary.statistics[k]? = some (q, s) ∧
      s.count ≠ 0 ∧ o.tree.pool.require id = .ok q
  /-- Every question of the tree splits a node. -/
  used : ∀ id < o.tree.pool.size, ∃ place info yes no,
    o.tree.nodeAt? place = some (.internal id info yes no)

end Outcome

namespace Trainer

variable {t : Trainer Float} {source : DrawSource γ} {draws : γ} {examples : ExampleList Float}
  {o : Outcome Float}

namespace Made

variable {g : Growth Float γ} {root : Node (NodeInfo Float)}

theorem inner_eq (h : t.Made examples g root o) : o.inner = root.inner := by
  rw [Outcome.inner, h.root?_eq]
  rfl

theorem mem_inner_iff (h : t.Made examples g root o) {place : List Bool}
    {v : Node (NodeInfo Float)} :
    (place, v) ∈ o.inner ↔ o.tree.nodeAt? place = some v ∧ v.isLeaf = false := by
  rw [h.inner_eq, Node.mem_inner_iff, DecisionTree.nodeAt?_eq h.root?_eq]

theorem statistics_eq (h : t.Made examples g root o) :
    o.summary.statistics = g.offered.map fun e => (e.question, g.statisticOf e) := by
  rw [h.summary_eq]
  rfl

theorem exists_entry (h : t.Made examples g root o) {place : Nat} {q : Handle Question}
    {s : Statistic Float} (hplace : o.summary.statistics[place]? = some (q, s)) :
    ∃ e ∈ g.offered, e.id = place ∧ s = g.statisticOf e := by
  rw [h.statistics_eq, List.getElem?_map] at hplace
  obtain ⟨e, he, heq⟩ := Option.map_eq_some_iff.1 hplace
  cases heq
  exact ⟨e, List.mem_of_getElem? he, h.sound.id_of_getElem? he, rfl⟩

theorem statistic_of_mem (h : t.Made examples g root o) {e : Entry} (he : e ∈ g.offered) :
    o.summary.statistics[e.id]? = some (e.question, g.statisticOf e) := by
  obtain ⟨place, hplace⟩ := List.mem_iff_getElem?.1 he
  rw [h.statistics_eq, List.getElem?_map, h.sound.id_of_getElem? hplace, hplace]
  rfl

theorem kept (h : t.Made examples g root o) : o.tree.pool.members =
    (o.summary.statistics.filter fun entry => decide (entry.2.count ≠ 0)).map Prod.fst := by
  have hused : ∀ e, (!(g.commitsOf e).isEmpty) = decide ((g.statisticOf e).count ≠ 0) := by
    intro e
    rw [Growth.count_statisticOf]
    cases g.commitsOf e <;> rfl
  have hpool : o.tree.pool.members = g.used.map Entry.question := by
    rw [h.tree_eq]
    rfl
  rw [hpool, h.statistics_eq, List.filter_map, List.map_map, Growth.used]
  exact congrArg (List.map Entry.question) (List.filter_congr fun e _ => hused e)

theorem usedPlaces_eq (h : t.Made examples g root o) :
    o.summary.usedPlaces = g.used.map Entry.id := by
  rw [h.summary_eq, h.sound.usedPlaces_summary]

theorem nodup_usedPlaces (h : t.Made examples g root o) : o.summary.usedPlaces.Nodup := by
  have hoffered : (g.offered.map Entry.id).Nodup := by
    rw [h.sound.numbered]
    exact List.nodup_range
  rw [h.usedPlaces_eq]
  exact hoffered.sublist (List.filter_sublist.map Entry.id)

end Made

/-- The inner nodes, in the order of time, record the commits. -/
theorem exists_recorded_of_train (h : t.train source draws examples = .ok o) :
    ∃ splits, splits.Perm o.inner ∧
      List.Forall₂ (o.Records t.scorer examples) splits (t.grow source draws examples).commits := by
  obtain ⟨root, after, hmade, hnode⟩ := exists_made_toNode_of_train h
  have hsound := hmade.sound
  have hsplits := hsound.ledger.tree_splits
  have hstands := GrownTree.forall₂_of_toNode hnode hmade.shows hsound.ledger.tree_rooted
    fun _ hc => hsound.divides (hsplits.mem_iff.1 hc)
  have hdepths := GrownTree.forall₂_depth hnode hsound.ledger.tree_rooted fun c hc => by
    obtain ⟨i, hi⟩ := List.mem_iff_getElem?.1 (hsplits.mem_iff.1 hc)
    rw [hsound.ledger.numbered i c hi]
    exact ⟨rfl, rfl⟩
  have hrecords : List.Forall₂ (o.Records t.scorer examples) root.inner
      (t.grow source draws examples).tree.splits := by
    refine List.forall₂_iff_zip.2 ⟨hstands.length_eq, fun {s c} hmem => ?_⟩
    obtain ⟨hs, hc⟩ := List.of_mem_zip hmem
    have hstand := List.forall₂_zip hstands hmem
    have hdepth := List.forall₂_zip hdepths hmem
    have hcommit := hsplits.mem_iff.1 hc
    obtain ⟨step, _, hadmitted⟩ := Growth.exists_step_of_run hcommit
    obtain ⟨place, v⟩ := s
    obtain ⟨id, yes, no, rfl, hrank, _⟩ := hstand.node_eq
    have hrating := hmade.rating_of_standsAt hcommit (Node.mem_inner_iff.1 hs).1 hstand hadmitted
    have hroot : (t.grow source draws examples).root.depth = 0 := by
      rw [hsound.root_eq]
      rfl
    refine ⟨?_, ?_, ?_⟩
    · rw [hmade.summary_eq, hsound.usedPlaces_summary, List.getElem?_map, Node.id,
        hsound.getElem?_used_of_rank hcommit hrank]
      rfl
    · rw [hmade.tree_eq]
      exact hsound.require_of_rank hcommit hrank
    · rw [hroot, Nat.zero_add] at hdepth
      rw [hdepth]
      exact congrArg (fun rating => (rating.gain, place.length)) hrating
  obtain ⟨splits, hmatch, hperm⟩ := List.perm_comp_forall₂ hsplits.symm hrecords.flip
  exact ⟨splits, hmade.inner_eq ▸ hperm, hmatch.flip⟩

theorem usesOf_perm (h : t.train source draws examples = .ok o) (e : Entry) :
    (o.usesOf t.scorer examples e.id).Perm (((t.grow source draws examples).commitsOf e).map
      fun c => (c.candidate.gain, c.candidate.leaf.depth)) := by
  obtain ⟨splits, hperm, hrecords⟩ := exists_recorded_of_train h
  let splitBy (s : List Bool × Node (NodeInfo Float)) : Bool :=
    decide (o.summary.usedPlaces[s.2.id]? = some e.id)
  have hfilter : List.Forall₂ (o.Records t.scorer examples) (splits.filter splitBy)
      ((t.grow source draws examples).commitsOf e) := by
    refine List.rel_filter (fun s c hrecord => ?_) hrecords
    show decide (o.summary.usedPlaces[s.2.id]? = some e.id) = true ↔
      (c.candidate.entry.id == e.id) = true
    rw [decide_eq_true_iff, beq_iff_eq, hrecord.place_eq, Option.some_inj]
  have huses : (splits.filter splitBy).map (o.useOf t.scorer examples) =
      ((t.grow source draws examples).commitsOf e).map
        fun c => (c.candidate.gain, c.candidate.leaf.depth) := by
    rw [← List.forall₂_eq_eq_eq, List.forall₂_map_left_iff, List.forall₂_map_right_iff]
    exact hfilter.imp fun _ _ hrecord => hrecord.use_eq
  rw [← huses]
  exact (hperm.symm.filter splitBy).map (o.useOf t.scorer examples)

theorem exists_node_of_commit (h : t.train source draws examples = .ok o) {c : Commit Float}
    (hc : c ∈ (t.grow source draws examples).commits) :
    ∃ place id info yes no, o.tree.nodeAt? place = some (.internal id info yes no) ∧
      o.Records t.scorer examples (place, .internal id info yes no) c := by
  obtain ⟨root, hmade⟩ := exists_made_of_train h
  obtain ⟨splits, hperm, hrecords⟩ := exists_recorded_of_train h
  obtain ⟨i, hi⟩ := List.mem_iff_getElem?.1 hc
  obtain ⟨⟨place, v⟩, hs, hrecord⟩ := exists_getElem?_of_forall₂ hrecords.flip hi
  obtain ⟨hv, hinner⟩ := hmade.mem_inner_iff.1 (hperm.mem_iff.1 (List.mem_of_getElem? hs))
  cases v with
  | leaf id info => cases hinner
  | internal id info yes no => exact ⟨place, id, info, yes, no, hv, hrecord⟩

theorem exists_commit_of_node (h : t.train source draws examples = .ok o) {place : List Bool}
    {v : Node (NodeInfo Float)} (hv : o.tree.nodeAt? place = some v) (hinner : v.isLeaf = false) :
    ∃ c ∈ (t.grow source draws examples).commits,
      o.Records t.scorer examples (place, v) c := by
  obtain ⟨root, hmade⟩ := exists_made_of_train h
  obtain ⟨splits, hperm, hrecords⟩ := exists_recorded_of_train h
  have hmem := hperm.mem_iff.2 (hmade.mem_inner_iff.2 ⟨hv, hinner⟩)
  obtain ⟨i, hi⟩ := List.mem_iff_getElem?.1 hmem
  obtain ⟨c, hc, hrecord⟩ := exists_getElem?_of_forall₂ hrecords hi
  exact ⟨c, List.mem_of_getElem? hc, hrecord⟩

theorem tells_of_train (h : t.train source draws examples = .ok o) {place : Nat}
    {q : Handle Question} {s : Statistic Float}
    (hplace : o.summary.statistics[place]? = some (q, s)) :
    s.Tells (o.usesOf t.scorer examples place) := by
  obtain ⟨root, hmade⟩ := exists_made_of_train h
  obtain ⟨e, _, rfl, rfl⟩ := hmade.exists_entry hplace
  rw [Growth.statisticOf_eq]
  refine (Statistic.tells_tally fun use huse => ?_).of_perm (usesOf_perm h e).symm
  obtain ⟨c, hc, rfl⟩ := List.mem_map.1 huse
  obtain ⟨_, _, hadmitted⟩ := Growth.exists_step_of_run (List.mem_of_mem_filter hc)
  exact hadmitted.gains.2

theorem ranked_of_train (h : t.train source draws examples = .ok o) {place : List Bool} {id : Nat}
    {info : NodeInfo Float} {yes no : Node (NodeInfo Float)}
    (hv : o.tree.nodeAt? place = some (.internal id info yes no)) :
    ∃ k q s, o.summary.usedPlaces[id]? = some k ∧ o.summary.statistics[k]? = some (q, s) ∧
      s.count ≠ 0 ∧ o.tree.pool.require id = .ok q := by
  obtain ⟨root, hmade⟩ := exists_made_of_train h
  obtain ⟨c, hc, hrecord⟩ := exists_commit_of_node h hv rfl
  have hstatistic := hmade.statistic_of_mem (hmade.sound.commit_entries c hc)
  refine ⟨_, _, _, hrecord.place_eq, hstatistic, ?_, hrecord.question_eq⟩
  have hmem : c ∈ (t.grow source draws examples).commitsOf c.candidate.entry :=
    List.mem_filter.2 ⟨hc, beq_self_eq_true _⟩
  rw [Growth.count_statisticOf]
  exact (List.length_pos_of_mem hmem).ne'

theorem used_of_train (h : t.train source draws examples = .ok o) {id : Nat}
    (hid : id < o.tree.pool.size) :
    ∃ place info yes no, o.tree.nodeAt? place = some (.internal id info yes no) := by
  obtain ⟨root, hmade⟩ := exists_made_of_train h
  have hlt : id < (t.grow source draws examples).used.length := by
    rw [hmade.tree_eq] at hid
    rwa [Growth.usedPool, QuestionPool.size, List.length_map] at hid
  obtain ⟨_, c, hc, hsame⟩ := Growth.mem_used_iff.1 (List.getElem_mem hlt)
  obtain ⟨place, id', info, yes, no, hv, hrecord⟩ := exists_node_of_commit h hc
  have hrank : o.summary.usedPlaces[id]? = some c.candidate.entry.id := by
    rw [hmade.usedPlaces_eq, List.getElem?_map, List.getElem?_eq_getElem hlt, hsame]
    rfl
  have hplaces : id < o.summary.usedPlaces.length := by
    rwa [hmade.usedPlaces_eq, List.length_map]
  obtain rfl : id = id' := (List.getElem?_inj hplaces hmade.nodup_usedPlaces).1
    (hrank.trans hrecord.place_eq.symm)
  exact ⟨place, info, yes, no, hv⟩

theorem sum_depths_lt {uses : List (Float × Nat)} {n : Nat} (hlength : uses.length ≤ n)
    (hdepth : ∀ use ∈ uses, use.2 < n) (hn : n ≤ UInt32.size) :
    (uses.map Prod.snd).sum < UInt64.size := by
  have hsum : (uses.map Prod.snd).sum ≤ (uses.map Prod.snd).length • (n - 1) := by
    refine List.sum_le_card_nsmul _ _ fun depth hmem => ?_
    obtain ⟨use, huse, rfl⟩ := List.mem_map.1 hmem
    exact Nat.le_sub_one_of_lt (hdepth use huse)
  rw [List.length_map, smul_eq_mul] at hsum
  have hproduct : uses.length * (n - 1) ≤ UInt32.size * (UInt32.size - 1) :=
    Nat.mul_le_mul (hlength.trans hn) (Nat.sub_le_sub_right hn 1)
  have hwords : UInt32.size * (UInt32.size - 1) < UInt64.size := by decide
  omega

/-- The statistics of a training agree with the tree that it makes. -/
theorem tallied_of_train (h : t.train source draws examples = .ok o) :
    o.Tallied t source draws examples := by
  obtain ⟨root, hmade⟩ := exists_made_of_train h
  obtain ⟨splits, hperm, hrecords⟩ := exists_recorded_of_train h
  have hlength : o.summary.splitCount = o.inner.length := by
    rw [hmade.summary_eq, ← hperm.length_eq, hrecords.length_eq]
    rfl
  obtain ⟨done, henters⟩ := Growth.exists_enters t.scorer source t.plan.maxLeaves t.plan.steps
    (Growth.start t.scorer draws examples.members)
  have hentered : (t.grow source draws examples).entered = done := henters.entered_eq
  refine
    { listed := ?_
      entered_first := hentered ▸ henters.first
      entered_all := ?_
      entered_below := ?_
      recorded := ⟨splits, hperm, hrecords⟩
      tells := fun _ _ _ hplace => tells_of_train h hplace
      exact := ?_
      counts := ?_
      splitCount_eq := hlength
      kept := hmade.kept
      ranked := fun _ _ _ _ _ hv => ranked_of_train h hv
      used := fun _ hid => used_of_train h hid }
  · rw [hmade.statistics_eq, List.map_map, hentered]
    exact henters.offered_eq
  · rw [hentered, hmade.summary_eq]
    refine henters.complete.imp_right fun hreached => hreached.trans (Nat.le_of_eq ?_)
    exact Growth.length_opened_run t.scorer source draws t.plan examples.members
  · intro before step hbefore
    rw [← Growth.length_opened_run]
    exact henters.below before step (hentered ▸ hbefore)
  · intro hwords place q s hplace
    rw [(tells_of_train h hplace).sumDepth_eq]
    refine Nat.mod_eq_of_lt (sum_depths_lt ?_ (fun use huse => ?_) hwords)
    · rw [hlength, Outcome.usesOf, List.length_map]
      exact List.length_filter_le _ _
    · obtain ⟨split, hsplit, rfl⟩ := List.mem_map.1 huse
      have hmem := List.mem_of_mem_filter hsplit
      rw [hmade.inner_eq] at hmem
      rw [hlength, hmade.inner_eq]
      exact Node.length_lt_of_mem_inner hmem
  · rw [hmade.statistics_eq, List.map_map, hmade.summary_eq]
    exact hmade.sound.sum_counts

open Sample in
/-- The training with four steps of which two are used. -/
theorem tallied_of_shades : ∃ o, shadedTrainer.train firstPlaces () shadedList = .ok o ∧
    o.summary.splitCount = 2 ∧ o.Tallied shadedTrainer firstPlaces () shadedList := by
  have hcount : (shadedTrainer.train firstPlaces () shadedList).toOption.map
      (·.summary.splitCount) = some 2 := by
    decide +kernel
  obtain ⟨o, ho, hsplit⟩ := Outcome.exists_of_splitCount hcount
  exact ⟨o, ho, hsplit, tallied_of_train ho⟩

end Trainer

end QuestionTree
