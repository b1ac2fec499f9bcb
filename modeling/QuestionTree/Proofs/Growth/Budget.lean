import QuestionTree.Proofs.Growth.Conversion

/-!
# The budget of leaves

A run starts with one leaf, every commit makes one leaf more, and a commit is made only while there
are fewer leaves than the budget allows. So there are never more leaves than the budget allows,
except that a budget of no leaves leaves the first one. As the questions that were used are told
apart by commits, there are no more of them than commits.
-/

namespace QuestionTree

variable {ν γ : Type} [Arithmetic ν] {scorer : Scorer ν} {source : DrawSource γ} {maxLeaves : Nat}
  {examples : List (Handle (Example ν))} {steps : List (Step ν)}

namespace Growth

theorem commits_offer (step : Step ν) (g : Growth ν γ) (l : Leaf ν) :
    (g.offer scorer source step l).commits = g.commits := by
  rcases offer_cases scorer source step g l with
    ⟨draws, events, heq⟩ | ⟨draws, events, c, _, _, heq⟩
  · rw [heq]
  · rw [heq]

theorem length_commits_of_commit? {step : Step ν} {g g' : Growth ν γ}
    (h : g.commit? scorer source step = some g') :
    g'.commits.length = g.commits.length + 1 := by
  obtain ⟨c, queue, _, rfl⟩ := commit?_eq_some_iff.1 h
  rw [commits_offer, commits_offer]
  exact List.length_append

theorem Sound.length_used_le {current : Option (Step ν)} {waiting : List (Leaf ν)}
    {g : Growth ν γ} (h : g.Sound scorer examples steps current waiting) :
    g.used.length ≤ g.commits.length := by
  have hsublist : (g.used.map Entry.id).Sublist (g.offered.map Entry.id) :=
    List.filter_sublist.map Entry.id
  have hnodup : (g.used.map Entry.id).Nodup := by
    refine hsublist.nodup ?_
    rw [h.numbered]
    exact List.nodup_range
  have hsubset : g.used.map Entry.id ⊆ g.commits.map (·.candidate.entry.id) := by
    intro id hid
    obtain ⟨e, he, rfl⟩ := List.mem_map.1 hid
    obtain ⟨_, c, hc, hid⟩ := mem_used_iff.1 he
    exact List.mem_map.2 ⟨c, hc, hid⟩
  have hlength := (List.subperm_of_subset hnodup hsubset).length_le
  rwa [List.length_map, List.length_map] at hlength

end Growth

namespace Stage

/-- Whether the number of leaves is within the budget. -/
def WithinBudget (maxLeaves : Nat) (s : Stage ν γ) : Prop :=
  s.growth.commits.length + 1 ≤ max 1 maxLeaves

/-- A transition makes a commit only if the budget allows one leaf more. -/
theorem withinBudget_next {s s' : Stage ν γ} (hsound : s.Sound scorer examples steps)
    (h : s.WithinBudget maxLeaves) (hnext : s.next? scorer source maxLeaves = some s') :
    s'.WithinBudget maxLeaves := by
  cases transition_of_next? hnext with
  | offer step entries before todo l waiting g =>
    rw [WithinBudget, growth, Growth.commits_offer]
    exact h
  | commit step before todo g g' hbudget hcommit =>
    -- no leaf waits to be offered now, so the queue and the open leaves are all leaves
    have hcount : g.leafCount = g.commits.length + 1 := by
      have hcard := hsound.growing.ledger.card_unsplit
      have hwaiting : ((splitting step before todo g).waiting : Multiset (Leaf ν)) = 0 := rfl
      rw [hwaiting, Multiset.add_zero] at hcard
      rw [← Growth.card_leaves]
      exact hcard
    have hlength := Growth.length_commits_of_commit? hcommit
    rw [WithinBudget, growth, hlength]
    omega
  | _ => exact h

theorem withinBudget_of_reaches {draws : γ} {s : Stage ν γ}
    (h : Reaches scorer source maxLeaves (between steps (Growth.start scorer draws examples)) s) :
    s.WithinBudget maxLeaves :=
  invariant_of_reaches h (Nat.le_max_left ..) fun _ _ hsound hs hnext =>
    withinBudget_next hsound hs hnext

end Stage

/-- A run makes no more leaves than the budget allows, or one if it allows none. -/
theorem Growth.length_commits_run_le (scorer : Scorer ν) (source : DrawSource γ) (draws : γ)
    (plan : TrainingPlan ν) (examples : List (Handle (Example ν))) :
    (Growth.run scorer source draws plan examples).commits.length + 1 ≤ max 1 plan.maxLeaves :=
  Stage.withinBudget_of_reaches (Stage.reaches_runSteps plan.steps (start scorer draws examples))

end QuestionTree
