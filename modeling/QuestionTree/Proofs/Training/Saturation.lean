import QuestionTree.Proofs.Growth.Saturation
import QuestionTree.Proofs.Training.Partition

/-!
# Leaves that cannot be split further

If a training ends before the budget of leaves is used up, and the last step that splits asks all of
its questions, then that step accepts no question for any leaf of the tree, with the examples that
pass the leaf. The leaves of the tree are the open leaves that growth ends with, in all but the
questions left to them, so what the step leaves behind is seen in the tree.
-/

namespace QuestionTree

variable {ν γ : Type} [Arithmetic ν]

theorem Leaf.Refuses.of_bare_eq {scorer : Scorer ν} {step : Step ν} {l m : Leaf ν}
    (h : m.Refuses scorer step) (hbare : l.bare = m.bare) : l.Refuses scorer step := by
  intro q hq
  rw [mass_of_bare_eq hbare, score_of_bare_eq hbare, members_of_bare_eq hbare]
  exact h q hq

/-- The leaves of the tree of a run are the open leaves in all but the questions left to them. -/
theorem Growth.Sound.exists_opened {scorer : Scorer ν} {examples : List (Handle (Example ν))}
    {steps : List (Step ν)} {g : Growth ν γ} (h : g.Sound scorer examples steps none [])
    (hempty : g.queue = .empty) {l : Leaf ν} (hl : l ∈ g.tree.leaves) :
    ∃ m ∈ g.opened, l.bare = m.bare := by
  have hmem : l.bare ∈ (g.tree.leaves.map Leaf.bare : Multiset (Leaf ν)) :=
    Multiset.mem_coe.2 (List.mem_map_of_mem hl)
  have hleaves : (g.tree.leaves.map Leaf.bare : Multiset (Leaf ν)) =
      (g.leaves + (([] : List (Leaf ν)) : Multiset (Leaf ν))).map Leaf.bare := h.ledger.tree_leaves
  rw [hleaves, leaves, hempty, Queue.items_empty, Multiset.map_zero, Multiset.coe_nil,
    Multiset.add_zero, Multiset.add_zero] at hmem
  obtain ⟨m, hm, hbare⟩ := Multiset.mem_map.1 hmem
  exact ⟨m, hm, hbare.symm⟩

namespace Trainer

variable {t : Trainer ν} {examples : ExampleList ν} {o : Outcome ν} {g : Growth ν γ}
  {root : Node (NodeInfo ν)}

namespace Made

theorem exists_tree_leaf (h : t.Made examples g root o) {place : List Bool}
    {v : Node (NodeInfo ν)} (hv : o.tree.nodeAt? place = some v) (hleaf : v.isLeaf = true) :
    ∃ l ∈ g.tree.leaves, v.info = GrownTree.infoOf l ∧ l.members = o.passing examples place := by
  have hmembers : g.root.members = examples.members := by
    rw [h.sound.root_eq]
    rfl
  rw [DecisionTree.nodeAt?_eq h.root?_eq] at hv
  obtain ⟨l, hinfo, _, hmem, hfilter⟩ := GrownTree.exists_shown_leaf (P := fun _ => True)
    (fun _ _ _ _ => trivial) h.shows h.sound.ledger.tree_rooted trivial
    (fun c hc => ⟨h.sound.divides (h.sound.ledger.tree_splits.mem_iff.1 hc), trivial, trivial⟩) hv
  refine ⟨l, hmem hleaf, hinfo, ?_⟩
  rw [hfilter, hmembers, Outcome.passing]
  refine List.filter_congr fun e _ => ?_
  rw [DecisionTree.passes_eq h.root?_eq, h.tree_eq]

theorem length_opened (h : t.Made examples g root o) (hempty : g.queue = .empty) :
    g.opened.length = o.tree.tree.leafCount := by
  have hcard := h.sound.ledger.card_unsplit
  rw [Multiset.coe_nil, Multiset.add_zero, Growth.card_leaves, Growth.leafCount, hempty] at hcard
  rw [h.leafCount_tree]
  exact hcard

end Made

/-- If the budget of leaves is not used up, the last step that splits accepts no question for a leaf
of the tree. -/
theorem saturated_of_train {t : Trainer Float} {source : DrawSource γ} {draws : γ}
    {examples : ExampleList Float} {o : Outcome Float} {before after : List (Step Float)}
    {step : Step Float} (h : t.train source draws examples = .ok o)
    (hsteps : t.plan.steps = before ++ step :: after) (haction : step.action = .split)
    (hlast : ∀ s ∈ after, s.action ≠ .split) (hdraw : step.drawSize = 1)
    (hbudget : o.tree.tree.leafCount < t.plan.maxLeaves) {place : List Bool}
    {v : Node (NodeInfo Float)} (hv : o.tree.nodeAt? place = some v) (hleaf : v.isLeaf = true) :
    ∀ q ∈ step.pool.members, ¬ step.Accepts t.scorer v.info.size v.info.score
      (o.passing examples place) q.item := by
  obtain ⟨root, hmade⟩ := exists_made_of_train h
  have hgrow : t.grow source draws examples = Growth.runSteps t.scorer source t.plan.maxLeaves
      (before ++ step :: after) (Growth.start t.scorer draws examples.members) := by
    rw [← hsteps]
    rfl
  have hempty : (t.grow source draws examples).queue = .empty :=
    Stage.queue_eq_empty_of_sound (Stage.sound_of_reaches (Stage.reaches_runSteps ..)) rfl
  have hsaturated : (t.grow source draws examples).Saturated t.scorer step t.plan.maxLeaves := by
    rw [hgrow]
    exact Growth.saturated_runSteps (fun _ => Binary64.not_neg_of_pos) (by decide) haction
      (by omega) source t.plan.maxLeaves before hlast rfl
  obtain ⟨l, hl, hinfo, hmembers⟩ := hmade.exists_tree_leaf hv hleaf
  rcases hsaturated with hreached | hrefuses
  · rw [hmade.length_opened hempty] at hreached
    exact absurd hbudget (Nat.not_lt.2 hreached)
  · obtain ⟨m, hm, hbare⟩ := hmade.sound.exists_opened hempty hl
    have hrefused := (hrefuses m hm).of_bare_eq hbare
    rw [hinfo, ← hmembers]
    exact hrefused

end Trainer

namespace Sample

/-- Splits the things by their color with a budget that is not used up. -/
def roomyTrainer : Trainer Float := ⟨⟨schema, 3, [step]⟩, ScorerKind.variance.scorer, 0⟩

end Sample

namespace Trainer

open Sample

/-- After the split of the red thing from the blue thing, asking whether they are red is of no use
any more. -/
theorem saturated_red_from_blue : ∃ o v, roomyTrainer.train firstPlaces () list = .ok o ∧
    o.tree.tree.leafCount = 2 ∧ o.tree.nodeAt? [true] = some v ∧ v.isLeaf = true ∧
    ∀ q ∈ step.pool.members, ¬ step.Accepts roomyTrainer.scorer v.info.size v.info.score
      (o.passing list [true]) q.item := by
  have hcount : (roomyTrainer.train firstPlaces () list).toOption.map
      (fun o => (o.tree.tree.leafCount, (o.tree.nodeAt? [true]).map Node.isLeaf)) =
        some (2, some true) := by
    decide +kernel
  cases h : roomyTrainer.train firstPlaces () list with
  | error e =>
    rw [h] at hcount
    cases hcount
  | ok o =>
    rw [h] at hcount
    obtain ⟨hleaves, hnode⟩ := Prod.mk.inj (Option.some.inj hcount)
    obtain ⟨v, hv, hleaf⟩ := Option.map_eq_some_iff.1 hnode
    have hbudget : o.tree.tree.leafCount < roomyTrainer.plan.maxLeaves := by
      have hthree : roomyTrainer.plan.maxLeaves = 3 := rfl
      omega
    have hsteps : roomyTrainer.plan.steps = [] ++ step :: [] := rfl
    exact ⟨o, v, rfl, hleaves, hv, hleaf, saturated_of_train h hsteps rfl
      (fun _ hs => absurd hs List.not_mem_nil) rfl hbudget hv hleaf⟩

end Trainer

end QuestionTree
