import QuestionTree.Proofs.Growth.Account
import QuestionTree.Proofs.Growth.Placement
import QuestionTree.Proofs.Training.Made
import QuestionTree.Scorer

/-!
# The examples at a node

While a tree grows, the examples of a leaf are handed on to its two children by whether they answer
yes. A finished tree leads a record by questions at other places and by three answers. Both ways
lead every example through the same nodes: what is noted down at a node is the mass and the score of
the examples that pass its place, in the order of the list, and these are the cluster of a leaf.

The scores of the two sides of a split come from `Scorer.split`. They are the scores of the sides
for the two scorers that can be chosen, which is all that `Scorer.Faithful` says.
-/

namespace QuestionTree

variable {ν γ : Type} [Arithmetic ν]

/-- Whether the ratings of splits hold the scores of the sides. -/
def Scorer.Faithful (scorer : Scorer ν) : Prop :=
  ∀ left right father, (scorer.split left right father).left = scorer.score left ∧
    (scorer.split left right father).right = scorer.score right

theorem ScorerKind.faithful (kind : ScorerKind) : (kind.scorer : Scorer ν).Faithful := by
  intro left right father
  cases kind with
  | id3 => exact ⟨rfl, rfl⟩
  | variance => exact ⟨rfl, rfl⟩

/-- Whether a leaf has the mass and the score of its examples. -/
structure Leaf.Rated (scorer : Scorer ν) (l : Leaf ν) : Prop where
  mass_eq : l.mass = Example.totalMass (l.members.map Handle.item)
  score_eq : l.score = scorer.score (l.members.map Handle.item)

theorem Leaf.Rated.of_bare_eq {scorer : Scorer ν} {l m : Leaf ν} (h : m.Rated scorer)
    (hbare : l.bare = m.bare) : l.Rated scorer := by
  refine ⟨?_, ?_⟩
  · rw [Leaf.members_of_bare_eq hbare, Leaf.mass_of_bare_eq hbare]
    exact h.mass_eq
  · rw [Leaf.members_of_bare_eq hbare, Leaf.score_of_bare_eq hbare]
    exact h.score_eq

/-- What a commit hands on to the children. -/
structure Commit.HandsOn (scorer : Scorer ν) (c : Commit ν) : Prop where
  yes_members : c.yes.members =
    c.candidate.leaf.members.filter c.candidate.entry.question.item.affirms
  no_members : c.no.members =
    c.candidate.leaf.members.filter fun e => !c.candidate.entry.question.item.affirms e
  yes_rated : c.yes.Rated scorer
  no_rated : c.no.Rated scorer

theorem Candidate.Admitted.handsOn {scorer : Scorer ν} {step : Step ν} {c : Candidate ν}
    (h : c.Admitted scorer step) (hfaithful : scorer.Faithful) (i : Nat) :
    (Growth.commitOf i c).HandsOn scorer := by
  obtain ⟨hleft, hright⟩ := hfaithful (c.yes.members.map Handle.item)
    (c.no.members.map Handle.item) c.leaf.score
  rw [h.rating] at hleft hright
  exact ⟨h.yes_members, h.no_members, ⟨h.yes_mass, hleft⟩, ⟨h.no_mass, hright⟩⟩

theorem Growth.Sound.handsOn {scorer : Scorer ν} {examples : List (Handle (Example ν))}
    {steps : List (Step ν)} {current : Option (Step ν)} {waiting : List (Leaf ν)}
    {g : Growth ν γ} (h : g.Sound scorer examples steps current waiting)
    (hfaithful : scorer.Faithful) {c : Commit ν} (hc : c ∈ g.commits) : c.HandsOn scorer := by
  obtain ⟨step, _, hadmitted⟩ := h.committed c hc
  obtain ⟨i, hi⟩ := List.mem_iff_getElem?.1 hc
  rw [h.ledger.numbered i c hi]
  exact hadmitted.handsOn hfaithful i

namespace GrownTree

variable {pool : QuestionPool} {scorer : Scorer ν}

theorem exists_leaf_at {t : GrownTree ν} {n v : Node (NodeInfo ν)} {m : Leaf ν}
    {place : List Bool} (hshows : t.Shows pool n) (hrooted : t.Rooted m) (hm : m.Rated scorer)
    (hsplits : ∀ c ∈ t.splits, c.HandsOn scorer) (hv : n.at? place = some v) :
    ∃ l : Leaf ν, v.info = infoOf l ∧ l.Rated scorer ∧
      l.members = m.members.filter fun e => n.passes pool place e.item.record := by
  have hhands : ∀ c ∈ t.splits, c.Divides ∧ c.yes.Rated scorer ∧ c.no.Rated scorer := by
    intro c hc
    obtain ⟨hyes, hno, hyesRated, hnoRated⟩ := hsplits c hc
    exact ⟨⟨hyes, hno⟩, hyesRated, hnoRated⟩
  obtain ⟨l, hinfo, hrated, _, hmembers⟩ := exists_shown_leaf
    (fun _ _ hbare hrated => Leaf.Rated.of_bare_eq hrated hbare) hshows hrooted hm hhands hv
  exact ⟨l, hinfo, hrated, hmembers⟩

end GrownTree

/-! ### Trained trees -/

/-- The examples whose way leads through the node at a place, in their order. -/
def Outcome.passing (o : Outcome ν) (examples : ExampleList ν) (place : List Bool) :
    List (Handle (Example ν)) :=
  examples.members.filter fun e => o.tree.passes place e.item.record

/-- Whether what training brings forth tells of the examples as they are led through the tree. -/
structure Outcome.Routed (scorer : Scorer ν) (examples : ExampleList ν) (o : Outcome ν) : Prop where
  /-- Every record has a way, which ends at the leaf where it is found. -/
  walks : ∀ record, ∃ path, o.tree.findPath record = .ok path ∧
    o.tree.find record = .ok path.leaf ∧ o.tree.nodeAt? path.branches = some path.leaf
  /-- Every node of the tree is at a place. -/
  placed : ∃ root, o.tree.root? = some root ∧
    ∀ v ∈ root.preorder, ∃ place, o.tree.nodeAt? place = some v
  /-- The mass of a node is that of the examples that pass it. -/
  size_eq : ∀ place v, o.tree.nodeAt? place = some v →
    v.info.size = Example.totalMass ((o.passing examples place).map Handle.item)
  /-- The score of a node is that of the examples that pass it. -/
  score_eq : ∀ place v, o.tree.nodeAt? place = some v →
    v.info.score = scorer.score ((o.passing examples place).map Handle.item)
  /-- The cluster of a leaf holds the examples that pass it. -/
  cluster_eq : ∀ place v, o.tree.nodeAt? place = some v → v.isLeaf = true →
    o.clusters.get? v.id = some ⟨v.id, o.passing examples place⟩

omit [Arithmetic ν] in
theorem Outcome.exists_of_splitCount {x : Except Error (Outcome ν)} {n : Nat}
    (h : x.toOption.map (·.summary.splitCount) = some n) :
    ∃ o, x = .ok o ∧ o.summary.splitCount = n :=
  exists_ok_of_map_toOption h

namespace Trainer

variable {t : Trainer ν} {source : DrawSource γ} {draws : γ} {examples : ExampleList ν}
  {o : Outcome ν} {g : Growth ν γ} {root : Node (NodeInfo ν)}

theorem exists_made_of_train (h : t.train source draws examples = .ok o) :
    ∃ root, t.Made examples (t.grow source draws examples) root o := by
  obtain ⟨root, o', hmade, htrain⟩ := exists_train_eq t source draws examples
  rw [htrain] at h
  obtain ⟨⟨⟩, _, h⟩ := bind_eq_ok_iff.1 h
  obtain ⟨⟨⟩, _, h⟩ := bind_eq_ok_iff.1 h
  obtain ⟨⟨⟩, _, h⟩ := bind_eq_ok_iff.1 h
  cases h
  exact ⟨root, hmade⟩

namespace Made

variable (h : t.Made examples g root o)

include h

theorem root?_eq : o.tree.root? = some root := by
  rw [h.tree_eq]
  rfl

theorem asks : root.Asks o.tree.pool := by
  rw [h.tree_eq]
  exact GrownTree.asks_of_shows h.shows

theorem get?_clusters {classId : Nat} (hlt : classId < g.commits.length + 1) :
    o.clusters.get? classId = some ⟨classId, examples.members.filter
      fun e => decide (o.tree.classify e.item.record = .ok classId)⟩ := by
  rw [h.clusters_eq, ClusterList.get?, List.getElem?_map, List.getElem?_range hlt]
  exact Option.filter_some_pos (beq_self_eq_true _)

theorem id_lt {v : Node (NodeInfo ν)} (hv : v ∈ root.leaves) : v.id < g.commits.length + 1 := by
  have hid : v.id ∈ root.leaves.map Node.id := List.mem_map_of_mem hv
  rw [h.numbered] at hid
  exact List.mem_range.1 hid

theorem nodup_ids : (root.leaves.map Node.id).Nodup := by
  rw [h.numbered]
  exact List.nodup_range

theorem classify_eq_iff {place : List Bool} {v : Node (NodeInfo ν)} (hv : root.at? place = some v)
    (hleaf : v.isLeaf = true) (record : Record) :
    o.tree.classify record = .ok v.id ↔ o.tree.passes place record = true := by
  have hroot := h.root?_eq
  obtain ⟨path, hpath, hwalk, hat, hend⟩ := Node.exists_path h.asks record
  have hclass : o.tree.classify record = .ok path.leaf.id := by
    rw [DecisionTree.classify, DecisionTree.find_eq_walk hroot, hwalk]
    rfl
  rw [hclass, DecisionTree.passes_eq hroot, Node.passes_leaf_iff h.asks hv hleaf, hpath]
  constructor
  · intro hid
    exact ⟨path, rfl, Node.place_unique h.nodup_ids hat hend hv hleaf (Except.ok.inj hid)⟩
  · rintro ⟨path', hsame, rfl⟩
    cases hsame
    rw [hat] at hv
    cases hv
    rfl

end Made

/-- A trained tree leads the examples through the nodes that they were handed to in growth. -/
theorem routed_of_train {kind : ScorerKind} (hkind : t.scorer = kind.scorer)
    (h : t.train source draws examples = .ok o) : o.Routed t.scorer examples := by
  obtain ⟨root, hmade⟩ := exists_made_of_train h
  have hroot := hmade.root?_eq
  have hfaithful : t.scorer.Faithful := hkind ▸ kind.faithful
  have hsound := hmade.sound
  have hstart : (t.grow source draws examples).root.Rated t.scorer := by
    rw [hsound.root_eq]
    exact ⟨rfl, rfl⟩
  have hmembers : (t.grow source draws examples).root.members = examples.members := by
    rw [hsound.root_eq]
    rfl
  -- every node shows a leaf of growth that holds the examples passing it
  have hleaf : ∀ place v, o.tree.nodeAt? place = some v → ∃ l : Leaf ν,
      v.info = GrownTree.infoOf l ∧ l.Rated t.scorer ∧ l.members = o.passing examples place := by
    intro place v hv
    rw [DecisionTree.nodeAt?_eq hroot] at hv
    obtain ⟨l, hinfo, hrated, hfilter⟩ := GrownTree.exists_leaf_at hmade.shows
      hsound.ledger.tree_rooted hstart
      (fun c hc => hsound.handsOn hfaithful (hsound.ledger.tree_splits.mem_iff.1 hc)) hv
    refine ⟨l, hinfo, hrated, ?_⟩
    rw [hfilter, hmembers, Outcome.passing]
    refine List.filter_congr fun e _ => ?_
    rw [DecisionTree.passes_eq hroot, hmade.tree_eq]
  refine ⟨?_, ⟨root, hroot, ?_⟩, ?_, ?_, ?_⟩
  · intro record
    obtain ⟨path, hpath, hwalk, hat, _⟩ := Node.exists_path hmade.asks record
    refine ⟨path, ?_, ?_, ?_⟩
    · rw [DecisionTree.findPath_eq_pathFrom hroot, hpath]
    · rw [DecisionTree.find_eq_walk hroot, hwalk]
    · rw [DecisionTree.nodeAt?_eq hroot, hat]
  · intro v hv
    obtain ⟨place, hplace⟩ := Node.mem_preorder_iff.1 hv
    exact ⟨place, (DecisionTree.nodeAt?_eq hroot place).trans hplace⟩
  · intro place v hv
    obtain ⟨l, hinfo, hrated, hl⟩ := hleaf place v hv
    rw [hinfo, ← hl]
    exact hrated.mass_eq
  · intro place v hv
    obtain ⟨l, hinfo, hrated, hl⟩ := hleaf place v hv
    rw [hinfo, ← hl]
    exact hrated.score_eq
  · intro place v hv hend
    rw [DecisionTree.nodeAt?_eq hroot] at hv
    have hmem : v ∈ root.leaves := Node.mem_leaves_iff.2 ⟨hend, place, hv⟩
    rw [hmade.get?_clusters (hmade.id_lt hmem), Outcome.passing]
    refine congrArg (fun members => some (Cluster.mk v.id members)) ?_
    refine List.filter_congr fun e _ => ?_
    rw [Bool.eq_iff_iff, decide_eq_true_iff, hmade.classify_eq_iff hv hend]

end Trainer

namespace Sample

/-- Splits the things by their color. -/
def trainer : Trainer Float := ⟨⟨schema, 2, [step]⟩, ScorerKind.variance.scorer, 0⟩

/-- The two things as a list. -/
def list : ExampleList Float := ⟨schema, things⟩

end Sample

namespace Trainer

open Sample

/-- The training that splits the red thing from the blue thing. -/
theorem routed_red_from_blue : ∃ o, trainer.train firstPlaces () list = .ok o ∧
    o.summary.splitCount = 1 ∧ o.Routed trainer.scorer list := by
  have hcount : (trainer.train firstPlaces () list).toOption.map (·.summary.splitCount) =
      some 1 := by
    decide +kernel
  cases h : trainer.train firstPlaces () list with
  | error e =>
    rw [h] at hcount
    cases hcount
  | ok o =>
    rw [h] at hcount
    have hkind : trainer.scorer = ScorerKind.variance.scorer := rfl
    exact ⟨o, rfl, Option.some.inj hcount, routed_of_train hkind h⟩

end Trainer

end QuestionTree
