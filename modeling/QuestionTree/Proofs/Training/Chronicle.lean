import QuestionTree.Proofs.Growth.BestFirst
import QuestionTree.Proofs.Training.Statistics

/-!
# The orders in a trained tree

A node gets its order when it is made, while the tree grows best first; the decision tree is made
of the commits at the end, depth first. The orders still tell the whole history: as long as they fit
a word, every number below that of the nodes is the order of one of them, and the children of the
split that was carried out as number `i` have the orders `2 * i + 1` and `2 * i + 2`. As a leaf is
made before it is split, orders grow on every way down.
-/

namespace QuestionTree

variable {ν γ : Type}

namespace GrownTree

/-- The nodes, each before those below it. -/
def nodes : GrownTree ν → List (Leaf ν)
  | leaf l => [l]
  | split c yes no => c.candidate.leaf :: (yes.nodes ++ no.nodes)

theorem indices_perm (t : GrownTree ν) :
    (t.nodes.map Leaf.index).Perm (t.leaves.map Leaf.index ++ t.splits.map Commit.target) := by
  induction t with
  | leaf l => exact List.Perm.refl _
  | split c yes no ihYes ihNo =>
    simp only [nodes, leaves, splits, List.map_cons, List.map_append]
    refine ((ihYes.append ihNo).cons c.target).trans ?_
    rw [← Multiset.coe_eq_coe]
    simp only [← Multiset.cons_coe, ← Multiset.coe_add, ← Multiset.singleton_add]
    abel

theorem infos_of_shows {pool : QuestionPool} {t : GrownTree ν} {n : Node (NodeInfo ν)}
    (h : t.Shows pool n) : n.preorder.map Node.info = t.nodes.map infoOf := by
  induction t generalizing n with
  | leaf l =>
    cases n with
    | leaf id info =>
      rw [Node.preorder_leaf]
      exact congrArg (fun info => [info]) h
    | internal id info yes no => cases h
  | split c yes no ihYes ihNo =>
    cases n with
    | leaf id info => cases h
    | internal id info yesNode noNode =>
      obtain ⟨hinfo, _, hyes, hno⟩ := h
      rw [Node.preorder_internal, nodes, List.map_cons, List.map_cons, List.map_append,
        List.map_append, ihYes hyes, ihNo hno]
      exact congrArg (· :: _) hinfo

end GrownTree

open GrownTree (replay)

theorem Ledger.nodes_perm {examples : List (Handle (Example ν))} {root : Leaf ν}
    {commits : List (Commit ν)} {unsplit : Multiset (Leaf ν)}
    (h : Ledger examples root commits unsplit) :
    ((replay root commits).nodes.map Leaf.index).Perm (List.range (2 * commits.length + 1)) := by
  refine (GrownTree.indices_perm _).trans (Multiset.coe_eq_coe.1 ?_)
  have htargets := Multiset.coe_eq_coe.2 (h.tree_splits.map Commit.target)
  rw [← Multiset.coe_add, h.tree_indices, htargets, h.accounted]
  rfl

variable [Arithmetic ν]

namespace Stage

variable {scorer : Scorer ν} {source : DrawSource γ} {maxLeaves : Nat} {draws : γ}
  {examples : List (Handle (Example ν))} {steps : List (Step ν)} {s : Stage ν γ}

/-- What a commit splits was made before. -/
theorem target_lt_of_reaches
    (h : Reaches scorer source maxLeaves (between steps (Growth.start scorer draws examples)) s) :
    ∀ i c, s.growth.commits[i]? = some c → c.target < 2 * i + 1 := by
  refine invariant_of_reaches (P := fun s => ∀ i c, s.growth.commits[i]? = some c →
    c.target < 2 * i + 1) h (fun i c hc => by cases hc) fun a b hsound ih hnext => ?_
  rcases commits_next hnext with heq | ⟨step, before, todo, g, c, queue, rfl, hqueue, heq⟩
  · rw [heq]
    exact ih
  · rw [heq]
    intro i d hd
    rw [List.getElem?_append] at hd
    split at hd
    · exact ih i d hd
    · rename_i hlast
      have hleaf : c.leaf ∈ g.leaves + (([] : List (Leaf ν)) : Multiset (Leaf ν)) := by
        rw [Growth.leaves_of_next? hqueue]
        exact Multiset.mem_add.2 (.inl (Multiset.mem_cons_self ..))
      have hindex := (hsound.growing.ledger.mem_indices_iff.1
        (Multiset.mem_map_of_mem Leaf.index hleaf)).1
      rw [List.getElem?_singleton] at hd
      split at hd
      · cases hd
        have htarget : (Growth.commitOf g.commits.length c).target = c.leaf.index := rfl
        have hcount : (splitting step before todo g).growth.commits.length = g.commits.length := rfl
        omega
      · cases hd

end Stage

theorem Growth.target_lt_of_run {scorer : Scorer ν} {source : DrawSource γ} {draws : γ}
    {plan : TrainingPlan ν} {examples : List (Handle (Example ν))} {i : Nat} {c : Commit ν}
    (h : (run scorer source draws plan examples).commits[i]? = some c) : c.target < 2 * i + 1 :=
  Stage.target_lt_of_reaches (Stage.reaches_runSteps plan.steps (start scorer draws examples)) i c h

/-- Whether the inner node at a place comes from the commit of a number. -/
structure Outcome.StandsFor (o : Outcome ν) (examples : ExampleList ν) (i : Nat) (c : Commit ν)
    (s : List Bool × Node (NodeInfo ν)) : Prop where
  /-- The examples of the leaf that was split are those that pass the place. -/
  leaf_members : c.candidate.leaf.members = o.passing examples s.1
  /-- The node asks the question of the commit and shows the leaf and the two that were made. -/
  node_eq : ∃ id info yes no, s.2 = .internal id info yes no ∧
    o.tree.pool.require id = .ok c.candidate.entry.question ∧
    info.order = c.candidate.leaf.index ∧ yes.info.order = 2 * i + 1 ∧ no.info.order = 2 * i + 2

/-- Whether the orders in a tree record how commits have grown it. -/
structure Outcome.Chronicles (o : Outcome ν) (examples : ExampleList ν)
    (commits : List (Commit ν)) : Prop where
  splitCount_eq : commits.length = o.summary.splitCount
  /-- Every order up to twice the number of splits belongs to one node, and zero to the root. -/
  complete : ∃ root, o.tree.root? = some root ∧ root.info.order = 0 ∧
    (root.preorder.map fun v => v.info.order).Perm (List.range (2 * o.summary.splitCount + 1))
  /-- The inner nodes stand for the commits, one for each. -/
  splits : ∃ splits : List (List Bool × Node (NodeInfo ν)), splits.Perm o.inner ∧
    splits.length = commits.length ∧
      ∀ (i : Nat) c s, commits[i]? = some c → splits[i]? = some s → o.StandsFor examples i c s
  /-- A child is made after its father. -/
  growing : ∀ place id info yes no, o.tree.nodeAt? place = some (.internal id info yes no) →
    info.order < yes.info.order ∧ info.order < no.info.order

namespace Trainer

variable {t : Trainer Float} {source : DrawSource γ} {draws : γ} {examples : ExampleList Float}
  {o : Outcome Float}

namespace Made

variable {g : Growth Float γ} {root : Node (NodeInfo Float)}

theorem orders_perm (h : t.Made examples g root o)
    (hfits : 2 * g.commits.length < UInt32.size) :
    (root.preorder.map fun v => v.info.order).Perm (List.range (2 * g.commits.length + 1)) := by
  have hindices := h.sound.ledger.nodes_perm
  have hinfos := congrArg (List.map NodeInfo.order) (GrownTree.infos_of_shows h.shows)
  rw [List.map_map, List.map_map] at hinfos
  have horders : root.preorder.map (fun v => v.info.order) = g.tree.nodes.map Leaf.index := by
    refine hinfos.trans (List.map_congr_left fun l hl => Nat.mod_eq_of_lt ?_)
    have hmem := hindices.mem_iff.1 (List.mem_map_of_mem hl)
    rw [List.mem_range] at hmem
    omega
  rw [horders]
  exact hindices

theorem standsFor (h : t.Made examples g root o) {i : Nat} {c : Commit Float}
    {s : List Bool × Node (NodeInfo Float)} (hc : g.commits[i]? = some c)
    (hstands : c.StandsAt g.rank g.usedPool root g.root.members s) (htarget : c.target < 2 * i + 1)
    (hfits : 2 * i + 2 < UInt32.size) : o.StandsFor examples i c s := by
  obtain ⟨id, yes, no, heq, hrank, hyes, hno⟩ := hstands.node_eq
  refine ⟨?_, id, _, yes, no, heq, ?_, ?_, ?_, ?_⟩
  · have hroot : g.root.members = examples.members := by
      rw [h.sound.root_eq]
      rfl
    rw [hstands.leaf_members, hroot, h.passing_eq]
  · rw [h.tree_eq]
    exact h.sound.require_of_rank (List.mem_of_getElem? hc) hrank
  · have hleaf : c.candidate.leaf.index < UInt32.size := Nat.lt_trans htarget (by omega)
    exact Nat.mod_eq_of_lt hleaf
  · rw [hyes, h.sound.ledger.numbered i c hc]
    exact Nat.mod_eq_of_lt (Nat.lt_of_succ_lt hfits)
  · rw [hno, h.sound.ledger.numbered i c hc]
    exact Nat.mod_eq_of_lt hfits

end Made

/-- The orders of a trained tree record its growth if there are not too many splits for a word to
count the nodes. -/
theorem chronicles_of_train (h : t.train source draws examples = .ok o)
    (hfew : o.summary.splitCount < 2 ^ 31) :
    o.Chronicles examples (t.grow source draws examples).commits := by
  obtain ⟨root, after, hmade, hnode⟩ := exists_made_toNode_of_train h
  have hsound := hmade.sound
  have hcount : (t.grow source draws examples).commits.length = o.summary.splitCount := by
    rw [hmade.summary_eq]
    rfl
  have hword : UInt32.size = 2 ^ 32 := rfl
  obtain ⟨splits, hperm, hstands⟩ := hsound.exists_splits hnode hmade.shows
  have hstand : ∀ (i : Nat) c s, (t.grow source draws examples).commits[i]? = some c →
      splits[i]? = some s → o.StandsFor examples i c s := by
    intro i c s hc hs
    obtain ⟨d, hd, hat⟩ := exists_getElem?_of_forall₂ hstands hs
    rw [hc] at hd
    cases hd
    have hlt := (List.getElem?_eq_some_iff.1 hc).1
    exact hmade.standsFor hc hat (Growth.target_lt_of_run hc) (by omega)
  refine ⟨hcount, ⟨root, hmade.root?_eq, ?_, ?_⟩, ⟨splits, ?_, hstands.length_eq, hstand⟩, ?_⟩
  · rw [GrownTree.info_of_shows hmade.shows hsound.ledger.tree_rooted, hsound.root_eq]
    rfl
  · rw [← hcount]
    exact hmade.orders_perm (by omega)
  · rw [hmade.inner_eq]
    exact hperm
  · -- an inner node stands for a commit, and what this split was made before it
    intro place id info yes no hv
    have hinner := hmade.mem_inner_iff.2 ⟨hv, rfl⟩
    rw [hmade.inner_eq] at hinner
    obtain ⟨i, hi⟩ := List.mem_iff_getElem?.1 (hperm.mem_iff.2 hinner)
    obtain ⟨c, hc, _⟩ := exists_getElem?_of_forall₂ hstands hi
    have htarget : c.candidate.leaf.index < 2 * i + 1 := Growth.target_lt_of_run hc
    obtain ⟨_, _, _, _, heq, _, hinfo, hyes, hno⟩ := (hstand i c _ hc hi).node_eq
    cases heq
    omega

open Sample in
/-- The training that splits the shades twice. -/
theorem chronicles_of_shades : ∃ o, shadedTrainer.train firstPlaces () shadedList = .ok o ∧
    o.summary.splitCount = 2 ∧ o.Chronicles shadedList
      (shadedTrainer.grow firstPlaces () shadedList).commits := by
  have hcount : (shadedTrainer.train firstPlaces () shadedList).toOption.map
      (·.summary.splitCount) = some 2 := by
    decide +kernel
  obtain ⟨o, ho, htwo⟩ := Outcome.exists_of_splitCount hcount
  exact ⟨o, ho, htwo, chronicles_of_train ho (by omega)⟩

end Trainer

end QuestionTree
