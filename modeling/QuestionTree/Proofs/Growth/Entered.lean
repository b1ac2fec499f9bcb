import QuestionTree.Proofs.Growth.Origin

/-!
# The steps that a run enters

Steps are entered in the order of the plan until there are as many leaves as the budget allows. The
steps that a run reports to have entered are a first part of the plan, and what is on offer at the
end are their questions, one step after the other. Every one of these steps was entered with fewer
leaves than the budget; and if steps are left over, the budget is reached.
-/

namespace QuestionTree

variable {ν γ : Type}

/-- The step that an event reports to be entered. -/
def Event.entered? : Event ν → Option (Step ν)
  | .stepEntered step => some step
  | _ => none

namespace Growth

/-- The steps that were entered, in the order of time. -/
def entered (g : Growth ν γ) : List (Step ν) := g.events.filterMap Event.entered?

theorem entered_note (g : Growth ν γ) (e : Event ν) :
    (g.note e).entered = g.entered ++ e.entered?.toList := by
  rw [entered, entered, note, List.filterMap_append]
  cases e <;> rfl

variable [Arithmetic ν] {scorer : Scorer ν} {source : DrawSource γ} {step : Step ν}
  {maxLeaves : Nat}

theorem entered_offer (g : Growth ν γ) (l : Leaf ν) :
    (g.offer scorer source step l).entered = g.entered := by
  have hlosses : ∀ gains : List ν, (gains.map Event.loss).filterMap Event.entered? = [] := by
    intro gains
    rw [List.filterMap_map]
    exact List.filterMap_eq_nil_iff.2 fun _ _ => rfl
  have hevents : ∀ gains : List ν, (g.events ++ gains.map Event.loss).filterMap Event.entered? =
      g.events.filterMap Event.entered? := by
    intro gains
    rw [List.filterMap_append, hlosses, List.append_nil]
  unfold offer
  split
  · rfl
  · dsimp only
    split
    · exact hevents _
    · exact hevents _

theorem entered_of_commit? {g g' : Growth ν γ} (h : g.commit? scorer source step = some g') :
    g'.entered = g.entered := by
  obtain ⟨c, queue, _, rfl⟩ := commit?_eq_some_iff.1 h
  rw [entered_offer, entered_offer, carryOut, entered_note]
  exact List.append_nil _

theorem splitAll_keeps {α : Type} (value : Growth ν γ → α)
    (hcommit : ∀ g g' : Growth ν γ, g.commit? scorer source step = some g' → value g' = value g)
    (g : Growth ν γ) : value (g.splitAll scorer source step maxLeaves) = value g := by
  induction g using splitAll.induct scorer source step maxLeaves with
  | case1 g hbudget g' hsome ih =>
    rw [splitAll, if_pos hbudget, hsome]
    exact ih.trans (hcommit g g' hsome)
  | case2 g hbudget hnone => rw [splitAll, if_pos hbudget, hnone]
  | case3 g hbudget => rw [splitAll, if_neg hbudget]

/-- What no offer changes is the same after all open leaves have been offered. -/
theorem foldl_offer_keeps {α : Type} (value : Growth ν γ → α)
    (hoffer : ∀ (g : Growth ν γ) (l : Leaf ν), value (g.offer scorer source step l) = value g)
    (entries : List Entry) (ls : List (Leaf ν)) (g : Growth ν γ) :
    value (ls.foldl (fun g l => g.offer scorer source step { l with entries := entries }) g) =
      value g := by
  induction ls generalizing g with
  | nil => rfl
  | cons l ls ih => exact (ih _).trans (hoffer g _)

/-- A step that splits puts its questions on offer and enters no other step. -/
theorem entered_offered_runSplit (scorer : Scorer ν) (source : DrawSource γ) (maxLeaves : Nat)
    (step : Step ν) (g : Growth ν γ) :
    (g.runSplit scorer source maxLeaves step).entered = g.entered ∧
      (g.runSplit scorer source maxLeaves step).offered = g.offered ++ g.entriesOf step := by
  let taken := g.opened.foldl (fun g' l => g'.offer scorer source step
    { l with entries := g.entriesOf step }) (g.takeOpen step)
  have hrun : g.runSplit scorer source maxLeaves step =
      (taken.splitAll scorer source step maxLeaves).leave g step := rfl
  have hwarnings : (g.takeOpen step).entered = g.entered := by
    have hnone : (stepWarnings step g.root.mass).filterMap Event.entered? = [] := by
      rw [stepWarnings, List.filterMap_append]
      split <;> split <;> rfl
    rw [entered, entered, takeOpen, List.filterMap_append, hnone, List.append_nil]
  refine ⟨?_, ?_⟩
  · rw [hrun, leave, entered_note]
    refine (List.append_nil _).trans ?_
    refine (splitAll_keeps entered (fun _ _ h => entered_of_commit? h) taken).trans ?_
    exact (foldl_offer_keeps entered entered_offer _ _ _).trans hwarnings
  · rw [hrun]
    refine (splitAll_keeps offered (fun _ _ h => offered_of_commit? h) taken).trans ?_
    exact foldl_offer_keeps offered (offered_offer scorer source step) _ _ _

omit [Arithmetic ν] in
theorem questions_entriesOf (g : Growth ν γ) (step : Step ν) :
    (g.entriesOf step).map Entry.question = step.pool.members := by
  rw [entriesOf, List.map_map]
  exact List.zipIdx_map_fst _ _

/-- What a run of some steps enters and puts on offer. -/
structure Enters (scorer : Scorer ν) (source : DrawSource γ) (maxLeaves : Nat)
    (todo : List (Step ν)) (g : Growth ν γ) (done : List (Step ν)) : Prop where
  entered_eq : (runSteps scorer source maxLeaves todo g).entered = g.entered ++ done
  offered_eq : (runSteps scorer source maxLeaves todo g).offered.map Entry.question =
    g.offered.map Entry.question ++ done.flatMap Step.offers
  first : done <+: todo
  /-- All steps are entered unless the budget is reached. -/
  complete : done = todo ∨
    maxLeaves ≤ (runSteps scorer source maxLeaves todo g).opened.length
  /-- A step is entered with fewer leaves than the budget. -/
  below : ∀ before step, before ++ [step] <+: done →
    (runSteps scorer source maxLeaves before g).opened.length < maxLeaves

theorem Enters.cons {todo done : List (Step ν)} {g g' : Growth ν γ}
    (hstep : ∀ rest, runSteps scorer source maxLeaves (step :: rest) g =
      runSteps scorer source maxLeaves rest g')
    (hbudget : g.opened.length < maxLeaves) (hentered : g'.entered = g.entered ++ [step])
    (hoffered : g'.offered.map Entry.question = g.offered.map Entry.question ++ step.offers)
    (h : Enters scorer source maxLeaves todo g' done) :
    Enters scorer source maxLeaves (step :: todo) g (step :: done) where
  entered_eq := by
    rw [hstep, h.entered_eq, hentered, List.append_assoc]
    rfl
  offered_eq := by
    rw [hstep, h.offered_eq, hoffered, List.flatMap_cons, List.append_assoc]
  first := (List.prefix_cons_inj step).2 h.first
  complete := by
    rw [hstep]
    exact h.complete.imp_left (congrArg (step :: ·))
  below before other hprefix := by
    cases before with
    | nil => exact hbudget
    | cons first before =>
      obtain ⟨rfl, hrest⟩ := List.cons_prefix_cons.1 hprefix
      rw [hstep]
      exact h.below before other hrest

theorem exists_enters (scorer : Scorer ν) (source : DrawSource γ) (maxLeaves : Nat)
    (todo : List (Step ν)) (g : Growth ν γ) :
    ∃ done, Enters scorer source maxLeaves todo g done := by
  have hnone : ∀ (before : List (Step ν)) (step : Step ν), ¬ before ++ [step] <+: [] := by
    intro before step hprefix
    exact List.concat_ne_nil step before (List.prefix_nil.1 hprefix)
  induction todo generalizing g with
  | nil =>
    exact ⟨[], (List.append_nil _).symm, (List.append_nil _).symm, List.prefix_refl _, .inl rfl,
      fun before step hprefix => absurd hprefix (hnone before step)⟩
  | cons step todo ih =>
    by_cases hbudget : maxLeaves ≤ g.opened.length
    · have hstop : runSteps scorer source maxLeaves (step :: todo) g =
          g.note (.budgetReached maxLeaves) := by
        rw [runSteps, if_pos hbudget]
      refine ⟨[], ?_, ?_, List.nil_prefix, ?_,
        fun before step hprefix => absurd hprefix (hnone before step)⟩
      · rw [hstop, entered_note]
        rfl
      · rw [hstop]
        exact (List.append_nil _).symm
      · rw [hstop]
        exact .inr hbudget
    · have hnoted : (g.note (.stepEntered step)).entered = g.entered ++ [step] :=
        entered_note g (.stepEntered step)
      cases haction : step.action with
      | reserved tag =>
        have hoffers : step.offers = [] := by rw [Step.offers, haction]
        obtain ⟨done, hdone⟩ := ih ((g.note (.stepEntered step)).note (.actionSkipped step tag))
        refine ⟨step :: done, hdone.cons (fun rest => ?_) (Nat.lt_of_not_le hbudget) ?_ ?_⟩
        · rw [runSteps, if_neg hbudget, haction]
        · rw [entered_note, hnoted]
          exact List.append_nil _
        · rw [hoffers]
          exact (List.append_nil _).symm
      | split =>
        have hoffers : step.offers = step.pool.members := by rw [Step.offers, haction]
        obtain ⟨done, hdone⟩ :=
          ih ((g.note (.stepEntered step)).runSplit scorer source maxLeaves step)
        obtain ⟨hentered, hoffered⟩ := entered_offered_runSplit scorer source maxLeaves step
          (g.note (.stepEntered step))
        refine ⟨step :: done, hdone.cons (fun rest => ?_) (Nat.lt_of_not_le hbudget) ?_ ?_⟩
        · rw [runSteps, if_neg hbudget, haction]
        · rw [hentered, hnoted]
        · rw [hoffered, List.map_append, questions_entriesOf, hoffers]
          rfl

/-- At the end of a run every leaf is open, one more than there are commits. -/
theorem length_opened_run (scorer : Scorer ν) (source : DrawSource γ) (draws : γ)
    (plan : TrainingPlan ν) (examples : List (Handle (Example ν))) :
    (run scorer source draws plan examples).opened.length =
      (run scorer source draws plan examples).commits.length + 1 := by
  have hempty : (run scorer source draws plan examples).queue = .empty :=
    Stage.queue_eq_empty_of_sound (Stage.sound_of_reaches (Stage.reaches_runSteps ..)) rfl
  have hcard := (sound_run scorer source draws plan examples).ledger.card_unsplit
  rw [Multiset.coe_nil, Multiset.add_zero, card_leaves, leafCount, hempty] at hcard
  exact hcard

end Growth

end QuestionTree
