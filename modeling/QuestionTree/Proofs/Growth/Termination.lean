import QuestionTree.Proofs.Growth.Budget
import QuestionTree.Proofs.Growth.Range

/-!
# The end of a run

A commit takes one split from the queue and may put in two, so neither the queue nor the budget
bounds the length of a run: what bounds it are the examples. Both sides of a split have some mass
and hence an example, so once the first leaf is split every leaf has one, and there are never more
leaves than examples. `Stage.remaining` counts the transitions that may still come by the steps to
come, the leaves that wait and the leaves that may still be made, and every transition lessens it,
whatever the scorer reports and the source draws.
-/

namespace QuestionTree

variable {ν γ : Type} [Arithmetic ν]

namespace Growth

variable {scorer : Scorer ν} {examples : List (Handle (Example ν))} {steps : List (Step ν)}
  {current : Option (Step ν)} {waiting : List (Leaf ν)} {g : Growth ν γ}

theorem Sound.exists_target_zero (h : g.Sound scorer examples steps current waiting)
    (hcommits : g.commits ≠ []) : ∃ c ∈ g.commits, c.target = 0 := by
  have hroot : g.root.index = 0 := by
    rw [h.root_eq]
    rfl
  have hrooted := h.ledger.tree_rooted
  have hperm := h.ledger.tree_splits
  cases htree : GrownTree.replay g.root g.commits with
  | leaf l =>
    rw [htree] at hperm
    exact absurd hperm.nil_eq.symm hcommits
  | split c yes no =>
    rw [htree] at hperm hrooted
    refine ⟨c, hperm.mem_iff.1 (List.mem_cons_self ..), ?_⟩
    rw [Commit.target, Leaf.index_of_bare_eq hrooted.1, hroot]

/-- There are no more leaves than examples, apart from the first leaf. -/
theorem Sound.length_commits_lt (h : g.Sound scorer examples steps current waiting)
    (hzero : (0 : ν) ≤ 0) : g.commits.length + 1 ≤ max 1 examples.length := by
  by_cases hcommits : g.commits = []
  · rw [hcommits]
    exact Nat.le_max_left ..
  · obtain ⟨c, hc, htarget⟩ := h.exists_target_zero hcommits
    have hmembers : ∀ l ∈ g.leaves + waiting, l.members ≠ [] := by
      intro l hl
      have hindex := (h.ledger.mem_indices_iff.1 (Multiset.mem_map_of_mem Leaf.index hl)).2 c hc
      rw [htarget] at hindex
      obtain ⟨n, hn, hbare⟩ := h.ledger.node_at_index hl
      rw [← Leaf.members_of_bare_eq hbare]
      refine h.members_ne_nil hzero (List.mem_of_getElem? hn) ?_
      rw [Leaf.index_of_bare_eq hbare]
      exact hindex.symm
    have hcard := Leaf.card_le_card_members hmembers
    rw [h.ledger.card_unsplit, h.ledger.shared, Multiset.coe_card] at hcard
    exact hcard.trans (Nat.le_max_right ..)

end Growth

namespace Stage

/-- The moment that some transitions lead to. -/
def after? (scorer : Scorer ν) (source : DrawSource γ) (maxLeaves : Nat) :
    Nat → Stage ν γ → Option (Stage ν γ)
  | 0, s => some s
  | n + 1, s => (after? scorer source maxLeaves n s).bind (next? scorer source maxLeaves)

/-- How many transitions may still come if there is room for a number of leaves. -/
def remaining (room : Nat) : Stage ν γ → Nat
  | between todo g => todo.length * (room + 3) + (room - g.commits.length)
  | opening _ _ _ todo waiting g =>
    todo.length * (room + 3) + (room - g.commits.length) + waiting.length + 2
  | splitting _ _ todo g => todo.length * (room + 3) + (room - g.commits.length) + 1
  | ended _ => 0

variable {scorer : Scorer ν} {source : DrawSource γ} {maxLeaves : Nat}
  {examples : List (Handle (Example ν))} {steps : List (Step ν)} {draws : γ} {s s' : Stage ν γ}

theorem remaining_next (hzero : (0 : ν) ≤ 0) (h : s.Sound scorer examples steps)
    (hnext : s.next? scorer source maxLeaves = some s') :
    s'.remaining (max 1 examples.length) < s.remaining (max 1 examples.length) := by
  have hroom := h.growing.length_commits_lt hzero
  have hroom' := (sound_next h hnext).growing.length_commits_lt hzero
  have hleaves := h.growing.ledger.card_unsplit
  rw [Multiset.card_add, Growth.card_leaves, Growth.leafCount] at hleaves
  generalize max 1 examples.length = room at hroom hroom'
  cases transition_of_next? hnext with
  | finish g =>
    rw [growth] at hroom
    simp only [remaining, List.length_nil]
    omega
  | stop step todo g _ =>
    rw [growth] at hroom
    simp only [remaining]
    omega
  | skip step todo g tag _ _ =>
    have hcommits : ((g.note (.stepEntered step)).note (.actionSkipped step tag)).commits =
        g.commits := rfl
    rw [remaining, remaining, List.length_cons, Nat.succ_mul, hcommits]
    omega
  | enter step todo g _ _ =>
    -- the leaves that are to be offered are all leaves, for which there is room
    have hcommits : ((g.note (.stepEntered step)).takeOpen step).commits = g.commits := rfl
    rw [growth] at hroom hleaves
    rw [remaining, remaining, List.length_cons, Nat.succ_mul, hcommits]
    omega
  | offer step entries before todo l waiting g =>
    rw [remaining, remaining, Growth.commits_offer, List.length_cons]
    omega
  | begin step entries before todo g =>
    rw [remaining, remaining]
    omega
  | commit step before todo g g' _ hcommit =>
    have hlength := Growth.length_commits_of_commit? hcommit
    rw [growth] at hroom'
    rw [remaining, remaining]
    omega
  | leave step before todo g _ =>
    have hcommits : (g.leave before step).commits = g.commits := rfl
    rw [remaining, remaining, hcommits]
    omega

theorem exists_after?_of_reaches (hzero : (0 : ν) ≤ 0)
    (h : Reaches scorer source maxLeaves (between steps (Growth.start scorer draws examples)) s) :
    ∃ n, (between steps (Growth.start scorer draws examples)).after? scorer source maxLeaves n =
        some s ∧
      n + s.remaining (max 1 examples.length) ≤
        steps.length * (max 1 examples.length + 3) + max 1 examples.length := by
  induction h with
  | refl =>
    refine ⟨0, rfl, ?_⟩
    rw [remaining]
    omega
  | tail hreaches hnext ih =>
    obtain ⟨n, hafter, hle⟩ := ih
    have hlt := remaining_next hzero (sound_of_reaches hreaches) hnext
    refine ⟨n + 1, ?_, by omega⟩
    rw [after?, hafter]
    exact hnext

end Stage

/-- A run ends after a number of transitions that only depends on the steps and the examples. -/
theorem Growth.exists_after?_eq_run (hzero : (0 : ν) ≤ 0) (scorer : Scorer ν)
    (source : DrawSource γ) (draws : γ) (plan : TrainingPlan ν)
    (examples : List (Handle (Example ν))) :
    ∃ n ≤ plan.steps.length * (max 1 examples.length + 3) + max 1 examples.length,
      (Stage.between plan.steps (start scorer draws examples)).after? scorer source plan.maxLeaves
        n = some (.ended (run scorer source draws plan examples)) := by
  obtain ⟨n, hafter, hle⟩ := Stage.exists_after?_of_reaches hzero
    (Stage.reaches_runSteps plan.steps (start scorer draws examples))
  exact ⟨n, by omega, hafter⟩

end QuestionTree
