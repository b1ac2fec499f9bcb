import QuestionTree.Proofs.DecisionTree.Pruning
import QuestionTree.Proofs.Growth.Origin
import QuestionTree.Proofs.Growth.Placement

/-!
# Runs with other budgets

The budget only decides when to stop. Two runs that start from the same state do the same until the
smaller budget is reached, draws included; from then on the run of the smaller budget does nothing
but open the leaves of the queue, while the other one goes on. So its commits are a prefix of those
of the other run, even if the other one has more steps to come. With the same steps they are all of
them, or there are as many leaves as the smaller budget allows.
-/

namespace QuestionTree

variable {ν γ : Type}

namespace Growth

/-- Whether a state has all commits of another one and all that was on offer there, before its
own. -/
structure GoesOn (g g' : Growth ν γ) : Prop where
  commits : g.commits <+: g'.commits
  offered : g.offered <+: g'.offered

namespace GoesOn

variable {g g' g'' : Growth ν γ}

theorem refl (g : Growth ν γ) : g.GoesOn g := ⟨List.prefix_refl _, List.prefix_refl _⟩

theorem trans (h : g.GoesOn g') (h' : g'.GoesOn g'') : g.GoesOn g'' :=
  ⟨h.commits.trans h'.commits, h.offered.trans h'.offered⟩

theorem of_eq (hcommits : g'.commits = g.commits) (hoffered : g'.offered = g.offered) :
    g.GoesOn g' :=
  ⟨hcommits ▸ List.prefix_refl _, hoffered ▸ List.prefix_refl _⟩

theorem used_subset (h : g.GoesOn g') : g.used ⊆ g'.used := by
  intro e he
  obtain ⟨hoffered, c, hc, hid⟩ := mem_used_iff.1 he
  exact mem_used_iff.2 ⟨h.offered.subset hoffered, c, h.commits.subset hc, hid⟩

end GoesOn

variable [Arithmetic ν] {scorer : Scorer ν} {source : DrawSource γ}

theorem goesOn_of_next? {s s' : Stage ν γ} {maxLeaves : Nat}
    (hnext : s.next? scorer source maxLeaves = some s') : s.growth.GoesOn s'.growth := by
  cases Stage.transition_of_next? hnext with
  | enter step todo g _ _ => exact ⟨List.prefix_refl _, List.prefix_append _ _⟩
  | offer step entries before todo l waiting g =>
    exact .of_eq (commits_offer ..) (offered_offer ..)
  | commit step before todo g g' _ hcommit =>
    refine ⟨?_, offered_of_commit? hcommit ▸ List.prefix_refl _⟩
    obtain ⟨c, queue, _, rfl⟩ := commit?_eq_some_iff.1 hcommit
    rw [Stage.growth, Stage.growth, commits_offer, commits_offer]
    exact List.prefix_append _ _
  | _ => exact .of_eq rfl rfl

theorem goesOn_of_reaches {s s' : Stage ν γ} {maxLeaves : Nat}
    (h : Stage.Reaches scorer source maxLeaves s s') : s.growth.GoesOn s'.growth := by
  induction h with
  | refl => exact .refl _
  | tail _ hnext ih => exact ih.trans (goesOn_of_next? hnext)

theorem goesOn_runSteps (maxLeaves : Nat) (todo : List (Step ν)) (g : Growth ν γ) :
    g.GoesOn (runSteps scorer source maxLeaves todo g) :=
  goesOn_of_reaches (Stage.reaches_runSteps todo g)

theorem goesOn_splitAll (maxLeaves : Nat) (step : Step ν) (g : Growth ν γ) :
    g.GoesOn (g.splitAll scorer source step maxLeaves) :=
  have hleave : g.GoesOn ((g.splitAll scorer source step maxLeaves).leave g step) :=
    goesOn_of_reaches (Stage.reaches_leave step g [] g)
  ⟨hleave.commits, hleave.offered⟩

theorem length_opened_leave (g before : Growth ν γ) (step : Step ν) :
    (g.leave before step).opened.length = g.leafCount := by
  have hage : g.queue.byAge.length = g.queue.size := by
    rw [g.queue.byAge_perm.length_eq, ← Queue.card_items]
    rfl
  have hopened : (g.leave before step).opened = g.opened ++ g.queue.byAge.map Candidate.leaf := rfl
  rw [hopened, List.length_append, List.length_map, hage, leafCount]

variable {m m' : Nat}

/-! ### One step -/

/-- A greater budget makes no difference to a step, or the smaller one is reached in it. -/
theorem splitAll_nested (hle : m ≤ m') (step : Step ν) (g : Growth ν γ) :
    g.splitAll scorer source step m = g.splitAll scorer source step m' ∨
      m ≤ (g.splitAll scorer source step m).leafCount ∧
        (g.splitAll scorer source step m).GoesOn (g.splitAll scorer source step m') := by
  induction g using splitAll.induct scorer source step m with
  | case1 g hbudget g' hcommit ih =>
    rw [splitAll, splitAll.eq_1 _ _ _ m', if_pos hbudget, if_pos (hbudget.trans_le hle), hcommit]
    exact ih
  | case2 g hbudget hcommit =>
    rw [splitAll, splitAll.eq_1 _ _ _ m', if_pos hbudget, if_pos (hbudget.trans_le hle), hcommit]
    exact .inl rfl
  | case3 g hbudget =>
    rw [splitAll, if_neg hbudget]
    exact .inr ⟨Nat.le_of_not_lt hbudget, goesOn_splitAll m' step g⟩

theorem runSplit_nested (scorer : Scorer ν) (source : DrawSource γ) (hle : m ≤ m')
    (step : Step ν) (g : Growth ν γ) :
    g.runSplit scorer source m step = g.runSplit scorer source m' step ∨
      m ≤ (g.runSplit scorer source m step).opened.length ∧
        (g.runSplit scorer source m step).GoesOn (g.runSplit scorer source m' step) := by
  let entered := { g with events := g.events ++ stepWarnings step g.root.mass }.enter scorer source
    step
  have hsplit : ∀ n, g.runSplit scorer source n step =
      (entered.splitAll scorer source step n).leave g step := fun _ => rfl
  rw [hsplit, hsplit]
  rcases splitAll_nested hle step entered with heq | ⟨hreached, hgoes⟩
  · exact .inl (congrArg (·.leave g step) heq)
  · rw [length_opened_leave]
    exact .inr ⟨hreached, hgoes.commits, hgoes.offered⟩

/-! ### Whole runs -/

theorem runSteps_reached (todo : List (Step ν)) {g g' : Growth ν γ} (h : m ≤ g.opened.length)
    (hgoes : g.GoesOn g') :
    (runSteps scorer source m todo g).GoesOn g' ∧
      m ≤ (runSteps scorer source m todo g).opened.length := by
  cases todo with
  | nil => exact ⟨hgoes, h⟩
  | cons step todo =>
    rw [runSteps, if_pos h]
    exact ⟨⟨hgoes.commits, hgoes.offered⟩, h⟩

/-- A run with a greater budget and perhaps more steps goes on from where the other one ends. -/
theorem runSteps_nested (scorer : Scorer ν) (source : DrawSource γ) (hle : m ≤ m')
    (todo more : List (Step ν)) (g : Growth ν γ) :
    (runSteps scorer source m todo g).GoesOn (runSteps scorer source m' (todo ++ more) g) ∧
      (more = [] → (runSteps scorer source m todo g).commits =
          (runSteps scorer source m' (todo ++ more) g).commits ∨
        m ≤ (runSteps scorer source m todo g).opened.length) := by
  induction todo generalizing g with
  | nil =>
    refine ⟨goesOn_runSteps m' more g, ?_⟩
    rintro rfl
    exact .inl rfl
  | cons step todo ih =>
    by_cases hbudget : m ≤ g.opened.length
    · obtain ⟨hgoes, hreached⟩ := runSteps_reached (step :: todo) hbudget
        (goesOn_runSteps m' (step :: todo ++ more) g)
      exact ⟨hgoes, fun _ => .inr hreached⟩
    · have hbudget' : ¬ m' ≤ g.opened.length := fun h => hbudget (hle.trans h)
      rw [List.cons_append, runSteps, runSteps, if_neg hbudget, if_neg hbudget']
      cases step.action with
      | reserved tag => exact ih _
      | split =>
        rcases runSplit_nested scorer source hle step (g.note (.stepEntered step)) with
          heq | ⟨hreached, hgoes⟩
        · dsimp only
          rw [heq]
          exact ih _
        · obtain ⟨hend, hreached⟩ := runSteps_reached todo hreached
            (hgoes.trans (goesOn_runSteps m' (todo ++ more) _))
          exact ⟨hend, fun _ => .inr hreached⟩

theorem run_nested (scorer : Scorer ν) (source : DrawSource γ) (draws : γ)
    (examples : List (Handle (Example ν))) {plan plan' : TrainingPlan ν}
    (hsteps : plan.steps <+: plan'.steps) (hbudget : plan.maxLeaves ≤ plan'.maxLeaves) :
    (run scorer source draws plan examples).GoesOn (run scorer source draws plan' examples) ∧
      (plan.steps = plan'.steps → (run scorer source draws plan examples).commits.length =
        min (run scorer source draws plan' examples).commits.length
          (max plan.maxLeaves 1 - 1)) := by
  obtain ⟨more, hmore⟩ := hsteps
  obtain ⟨hgoes, hend⟩ := runSteps_nested scorer source hbudget plan.steps more
    (start scorer draws examples)
  have hwithin := length_commits_run_le scorer source draws plan examples
  have hcard := (sound_run scorer source draws plan examples).ledger.card_unsplit
  rw [Multiset.coe_nil, Multiset.add_zero, card_leaves, leafCount] at hcard
  rw [hmore] at hgoes hend
  refine ⟨hgoes, fun hsame => ?_⟩
  have hlength := hgoes.commits.length_le
  rw [run] at hwithin hcard
  rw [run, run]
  rcases hend (List.append_right_eq_self.1 (hmore.trans hsame.symm)) with heq | hreached
  · rw [heq] at hwithin ⊢
    omega
  · omega

end Growth

/-! ### Trees of nested runs -/

namespace GrownTree

/-- Whether a tree has the same splits as another one, but may stop earlier. -/
def Prunes : GrownTree ν → GrownTree ν → Prop
  | leaf _, _ => True
  | split c yes no, split c' yes' no' => c = c' ∧ yes.Prunes yes' ∧ no.Prunes no'
  | split _ _ _, leaf _ => False

theorem prunes_refl (t : GrownTree ν) : t.Prunes t := by
  induction t with
  | leaf l => trivial
  | split c yes no ihYes ihNo => exact ⟨rfl, ihYes, ihNo⟩

theorem prunes_apply {t t' : GrownTree ν} (h : t.Prunes t') (c : Commit ν) :
    t.Prunes (t'.apply c) := by
  induction t generalizing t' with
  | leaf l => trivial
  | split d yes no ihYes ihNo =>
    cases t' with
    | leaf l => cases h
    | split d' yes' no' => exact ⟨h.1, ihYes h.2.1, ihNo h.2.2⟩

/-- More commits make a tree from which the tree is pruned. -/
theorem prunes_replay (root : Leaf ν) {commits commits' : List (Commit ν)}
    (h : commits <+: commits') : (replay root commits).Prunes (replay root commits') := by
  obtain ⟨more, rfl⟩ := h
  induction more using List.reverseRecOn with
  | nil =>
    rw [List.append_nil]
    exact prunes_refl _
  | append_singleton more c ih =>
    rw [← List.append_assoc, replay_append]
    exact prunes_apply ih c

/-- The decision tree of a pruned tree is pruned. -/
theorem prunedFrom_of_prunes {pool pool' : QuestionPool} {t t' : GrownTree ν} {m : Leaf ν}
    {n n' : Node (NodeInfo ν)} (h : t.Prunes t') (hshows : t.Shows pool n)
    (hshows' : t'.Shows pool' n') (hrooted : t.Rooted m) (hrooted' : t'.Rooted m) :
    n.PrunedFrom pool pool' n' := by
  induction t generalizing t' m n n' with
  | leaf l =>
    cases n with
    | leaf id info =>
      exact (info_of_shows hshows' hrooted').trans (info_of_shows hshows hrooted).symm
    | internal id info yes no => cases hshows
  | split c yes no ihYes ihNo =>
    cases t' with
    | leaf l => cases h
    | split c' yes' no' =>
      cases n with
      | leaf id info => cases hshows
      | internal id info yesNode noNode =>
        cases n' with
        | leaf id' info' => cases hshows'
        | internal id' info' yesNode' noNode' =>
          obtain ⟨rfl, hyes, hno⟩ := h
          obtain ⟨hinfo, hquestion, hyesShows, hnoShows⟩ := hshows
          obtain ⟨hinfo', hquestion', hyesShows', hnoShows'⟩ := hshows'
          exact ⟨hinfo'.trans hinfo.symm, ⟨_, hquestion, hquestion'⟩,
            ihYes hyes hyesShows hyesShows' hrooted.2.1 hrooted'.2.1,
            ihNo hno hnoShows hnoShows' hrooted.2.2 hrooted'.2.2⟩

end GrownTree

end QuestionTree
