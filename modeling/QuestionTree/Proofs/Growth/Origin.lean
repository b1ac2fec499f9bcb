import QuestionTree.Proofs.Growth.Account
import QuestionTree.Proofs.Growth.Budget

/-!
# Which step a split comes from

The catalogue of some steps lists the questions that they put on offer, each with its step. A
question on offer has the place of its number in the catalogue of the plan, as steps are run in
order and those that are left out put nothing on offer. The leaves that a step has offered hold
questions of this step only, and so a split is admitted by the step that its question stands beside
in the catalogue, however much later it is carried out.
-/

namespace QuestionTree

variable {ν γ : Type}

/-- The questions that a step puts on offer when it is run. -/
def Step.offers (step : Step ν) : List (Handle Question) :=
  match step.action with
  | .split => step.pool.members
  | .reserved _ => []

/-- The questions that steps put on offer, each with its step, in the order of the steps. -/
def catalogue (steps : List (Step ν)) : List (Step ν × Handle Question) :=
  steps.flatMap fun step => step.offers.map fun q => (step, q)

/-- Whether a question on offer is one that a step put there. -/
def Entry.From (steps : List (Step ν)) (step : Step ν) (e : Entry) : Prop :=
  (catalogue steps)[e.id]? = some (step, e.question)

theorem catalogue_append (steps more : List (Step ν)) :
    catalogue (steps ++ more) = catalogue steps ++ catalogue more :=
  List.flatMap_append

theorem catalogue_singleton (step : Step ν) :
    catalogue [step] = step.offers.map fun q => (step, q) :=
  List.flatMap_singleton _ step

namespace Growth

/-- What is known of the steps that the questions of a growing tree come from. -/
structure Sourced [Arithmetic ν] (scorer : Scorer ν) (steps : List (Step ν))
    (current : Option (Step ν)) (g : Growth ν γ) : Prop where
  /-- The leaves that were offered hold questions of the step under way. -/
  leaf_entries : ∀ step ∈ current, ∀ l ∈ g.leaves, ∀ e ∈ l.entries, e.From steps step
  /-- A split was admitted by the step that its question comes from. -/
  committed : ∀ c ∈ g.commits, ∃ step, c.candidate.entry.From steps step ∧
    c.candidate.Admitted scorer step

variable [Arithmetic ν] {scorer : Scorer ν} {source : DrawSource γ} {steps : List (Step ν)}
  {current : Option (Step ν)} {step : Step ν} {g : Growth ν γ}

theorem offered_offer (scorer : Scorer ν) (source : DrawSource γ) (step : Step ν)
    (g : Growth ν γ) (l : Leaf ν) : (g.offer scorer source step l).offered = g.offered := by
  rcases offer_cases scorer source step g l with
    ⟨draws, events, heq⟩ | ⟨draws, events, c, _, _, heq⟩
  · rw [heq]
  · rw [heq]

theorem offered_of_commit? {g' : Growth ν γ} (h : g.commit? scorer source step = some g') :
    g'.offered = g.offered := by
  obtain ⟨c, queue, _, rfl⟩ := commit?_eq_some_iff.1 h
  rw [offered_offer, offered_offer]
  rfl

omit [Arithmetic ν] in
theorem from_of_mem_entriesOf {before after : List (Step ν)} {e : Entry}
    (hsteps : steps = before ++ step :: after) (haction : step.action = .split)
    (hoffered : g.offered.length = (catalogue before).length) (he : e ∈ g.entriesOf step) :
    e.From steps step := by
  obtain ⟨⟨q, id⟩, hmem, rfl⟩ := List.mem_map.1 he
  obtain ⟨hle, hq⟩ := List.mk_mem_zipIdx_iff_le_and_getElem?_sub.1 hmem
  have hoffers : step.offers = step.pool.members := by rw [Step.offers, haction]
  have hplace : (step.offers.map fun q => (step, q))[id - g.offered.length]? = some (step, q) := by
    rw [hoffers, List.getElem?_map, hq]
    rfl
  obtain ⟨hlt, _⟩ := List.getElem?_eq_some_iff.1 hplace
  rw [hoffered] at hle hplace hlt
  rw [Entry.From, hsteps, List.append_cons, catalogue_append, catalogue_append,
    catalogue_singleton, List.append_assoc, List.getElem?_append_right hle,
    List.getElem?_append_left hlt]
  exact hplace

namespace Sourced

theorem note (h : g.Sourced scorer steps current) (e : Event ν) :
    (g.note e).Sourced scorer steps current :=
  ⟨h.leaf_entries, h.committed⟩

theorem takeOpen (h : g.Sourced scorer steps none) (hqueue : g.queue = .empty) :
    (g.takeOpen step).Sourced scorer steps (some step) where
  leaf_entries _ _ l hl := by
    rw [leaves, Growth.takeOpen, hqueue, Queue.items_empty] at hl
    exact absurd hl (Multiset.notMem_zero l)
  committed := h.committed

theorem offer (h : g.Sourced scorer steps (some step)) (source : DrawSource γ) {l : Leaf ν}
    (hentries : ∀ e ∈ l.entries, e.From steps step) :
    (g.offer scorer source step l).Sourced scorer steps (some step) where
  leaf_entries step' hstep' k hk e he := by
    cases hstep'
    rw [leaves_offer, Multiset.mem_cons] at hk
    rcases hk with rfl | hk
    · exact hentries e he
    · exact h.leaf_entries step rfl k hk e he
  committed c hc := by
    rw [commits_offer] at hc
    exact h.committed c hc

theorem carryOut {c : Candidate ν} {queue : Queue (Candidate ν)}
    (h : g.Sourced scorer steps (some step)) (hnext : g.queue.next? = some (c, queue))
    (hadmitted : c.Admitted scorer step) :
    (g.carryOut c queue).Sourced scorer steps (some step) ∧
      ∀ e ∈ c.leaf.entries, e.From steps step := by
  have hleaves := leaves_of_next? hnext
  have hentries : ∀ e ∈ c.leaf.entries, e.From steps step :=
    h.leaf_entries step rfl c.leaf (hleaves ▸ Multiset.mem_cons_self ..)
  refine ⟨⟨?_, ?_⟩, hentries⟩
  · intro step' hstep' l hl
    exact h.leaf_entries step' hstep' l (hleaves ▸ Multiset.mem_cons_of_mem hl)
  · intro d hd
    rcases List.mem_append.1 hd with hd | hd
    · exact h.committed d hd
    · rw [List.mem_singleton.1 hd]
      exact ⟨step, hentries _ (List.mem_of_getElem? hadmitted.entry_at_slot), hadmitted⟩

theorem commit? {g' : Growth ν γ} (h : g.Sourced scorer steps (some step))
    (hqueued : ∀ c ∈ g.queue.items, c.Admitted scorer step)
    (hcommit : g.commit? scorer source step = some g') : g'.Sourced scorer steps (some step) := by
  obtain ⟨c, queue, hnext, rfl⟩ := commit?_eq_some_iff.1 hcommit
  have hitems := Queue.items_of_next? hnext
  obtain ⟨hout, hentries⟩ := h.carryOut hnext (hqueued c (hitems ▸ Multiset.mem_cons_self ..))
  have hyes := hout.offer source (l := (commitOf g.commits.length c).yes) fun e he =>
    hentries e (Sound.mem_swapRemove he)
  exact hyes.offer source fun e he => hentries e (Sound.mem_swapRemove he)

theorem leave (h : g.Sourced scorer steps current) (before : Growth ν γ) :
    (g.leave before step).Sourced scorer steps none where
  leaf_entries _ hnone := by cases hnone
  committed := h.committed

end Sourced

end Growth

namespace Stage

/-- What is known at a moment of a run of the steps that its questions come from. -/
structure Sourced [Arithmetic ν] (scorer : Scorer ν) (steps : List (Step ν)) (s : Stage ν γ) :
    Prop where
  growing : s.growth.Sourced scorer steps s.step?
  /-- The questions to be offered with come from the step under way. -/
  entries_from : ∀ step ∈ s.step?, ∀ e ∈ s.entries, e.From steps step
  /-- The steps are run in order, and the questions on offer are those of the steps so far. -/
  upcoming : ∃ done, done ++ s.step?.toList ++ s.todo <+: steps ∧
    s.growth.offered.map Entry.question =
      (catalogue (done ++ s.step?.toList)).map Prod.snd

variable [Arithmetic ν] {scorer : Scorer ν} {source : DrawSource γ} {maxLeaves : Nat}
  {examples : List (Handle (Example ν))} {steps : List (Step ν)}

theorem sourced_start (scorer : Scorer ν) (draws : γ) (examples : List (Handle (Example ν)))
    (steps : List (Step ν)) :
    (between steps (Growth.start scorer draws examples)).Sourced scorer steps where
  growing := ⟨fun _ hnone => (by cases hnone), fun c hc => (by cases hc)⟩
  entries_from _ hnone := by cases hnone
  upcoming := ⟨[], List.prefix_refl steps, rfl⟩

theorem sourced_next {s s' : Stage ν γ} (hsound : s.Sound scorer examples steps)
    (h : s.Sourced scorer steps) (hnext : s.next? scorer source maxLeaves = some s') :
    s'.Sourced scorer steps := by
  obtain ⟨hgrowing, hentries, done, hprefix, hoffered⟩ := h
  cases transition_of_next? hnext with
  | finish g => exact ⟨hgrowing, hentries, done, hprefix, hoffered⟩
  | stop step todo g _ =>
    have hdone : done ++ [] ++ [] <+: done ++ [] ++ (step :: todo) :=
      List.prefix_append_right_inj _ |>.2 List.nil_prefix
    exact ⟨hgrowing.note _, hentries, done, hdone.trans hprefix, hoffered⟩
  | skip step todo g tag _ haction =>
    have hoffers : step.offers = [] := by rw [Step.offers, haction]
    rw [step?, Option.toList_none, List.append_nil, Stage.todo] at hprefix
    rw [step?, Option.toList_none, List.append_nil, growth] at hoffered
    refine ⟨(hgrowing.note _).note _, hentries, done ++ [step], ?_, ?_⟩
    · rw [step?, Option.toList_none, List.append_nil, Stage.todo, List.append_assoc]
      exact hprefix
    · rw [step?, Option.toList_none, List.append_nil, catalogue_append, catalogue_singleton,
        hoffers, List.map_nil, List.append_nil]
      exact hoffered
  | enter step todo g _ haction =>
    have hoffers : step.offers = step.pool.members := by rw [Step.offers, haction]
    rw [step?, Option.toList_none, List.append_nil, Stage.todo] at hprefix
    rw [step?, Option.toList_none, List.append_nil, growth] at hoffered
    obtain ⟨after, hsteps⟩ := hprefix
    have hlength : g.offered.length = (catalogue done).length := by
      rw [← List.length_map Entry.question, hoffered, List.length_map]
    refine ⟨(hgrowing.note _).takeOpen (queue_eq_empty_of_sound hsound rfl), ?_, done, ?_, ?_⟩
    · intro step' hstep' e he
      cases hstep'
      rw [List.append_assoc] at hsteps
      exact Growth.from_of_mem_entriesOf hsteps.symm haction hlength he
    · rw [step?, Option.toList_some, Stage.todo, List.append_assoc]
      exact ⟨after, hsteps⟩
    · rw [step?, Option.toList_some, catalogue_append, catalogue_singleton, hoffers,
        List.map_append, ← hoffered, List.map_map, growth, Growth.takeOpen, List.map_append,
        Growth.entriesOf, List.map_map]
      refine congrArg (g.offered.map Entry.question ++ ·) ?_
      exact (List.zipIdx_map_fst g.offered.length step.pool.members).trans (List.map_id _).symm
  | offer step entries before todo l waiting g =>
    refine ⟨hgrowing.offer source (hentries step rfl), hentries, done, hprefix, ?_⟩
    rw [growth, Growth.offered_offer]
    exact hoffered
  | begin step entries before todo g =>
    exact ⟨hgrowing, fun _ _ _ he => absurd he List.not_mem_nil, done, hprefix, hoffered⟩
  | commit step before todo g g' _ hcommit =>
    have hqueued : ∀ c ∈ g.queue.items, c.Admitted scorer step := by
      intro c hc
      obtain ⟨step', hstep', hadmitted⟩ := hsound.growing.queued c hc
      cases hstep'
      exact hadmitted
    refine ⟨hgrowing.commit? hqueued hcommit, hentries, done, hprefix, ?_⟩
    rw [growth, Growth.offered_of_commit? hcommit]
    exact hoffered
  | leave step before todo g _ =>
    refine ⟨hgrowing.leave before, fun _ hnone => (by cases hnone), done ++ [step], ?_, ?_⟩
    · rw [step?, Option.toList_none, List.append_nil]
      exact hprefix
    · rw [step?, Option.toList_none, List.append_nil]
      exact hoffered

theorem sourced_of_reaches {draws : γ} {s : Stage ν γ}
    (h : Reaches scorer source maxLeaves (between steps (Growth.start scorer draws examples)) s) :
    s.Sourced scorer steps :=
  invariant_of_reaches h (sourced_start scorer draws examples steps) fun _ _ hsound hs hnext =>
    sourced_next hsound hs hnext

end Stage

/-- Every split of a run was admitted by the step that its question comes from. -/
theorem Growth.exists_step_of_run [Arithmetic ν] {scorer : Scorer ν} {source : DrawSource γ}
    {draws : γ} {plan : TrainingPlan ν} {examples : List (Handle (Example ν))} {c : Commit ν}
    (hc : c ∈ (Growth.run scorer source draws plan examples).commits) :
    ∃ step, c.candidate.entry.From plan.steps step ∧ c.candidate.Admitted scorer step :=
  (Stage.sourced_of_reaches
    (Stage.reaches_runSteps plan.steps (start scorer draws examples))).growing.committed c hc

end QuestionTree
