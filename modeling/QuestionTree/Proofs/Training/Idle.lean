import QuestionTree.Proofs.Growth.Single
import QuestionTree.Proofs.Growth.Twin
import QuestionTree.Proofs.Training.Covering

/-!
# Steps that do nothing

A step is idle if its action is reserved or if it has no questions. An idle step with the action of
splitting still takes all open leaves, offers them and opens them again, without a question left to
any. The next step finds the same leaves in the same order, the same draws and the same number of
questions on offer, so idle steps can be put anywhere into a plan.
-/

namespace QuestionTree

variable {ν γ : Type}

/-- Whether a draw from nothing takes nothing from the source. -/
def DrawSource.SparesEmpty (source : DrawSource γ) : Prop :=
  ∀ size state, (source.draw size [] state).2 = state

theorem Generator.sparesEmpty_source : source.SparesEmpty := by
  intro size state
  cases size <;> rfl

/-- Whether a step has a reserved action or no questions. -/
def Step.Idle (step : Step ν) : Prop :=
  (∃ tag, step.action = .reserved tag) ∨ step.pool.members = []

/-- Whether a list of steps is another one with idle steps put in. -/
inductive Step.Padded : List (Step ν) → List (Step ν) → Prop
  | nil : Padded [] []
  | keep (step : Step ν) {steps padded : List (Step ν)} (h : Padded steps padded) :
    Padded (step :: steps) (step :: padded)
  | idle (step : Step ν) (hidle : step.Idle) {steps padded : List (Step ν)}
    (h : Padded steps padded) : Padded steps (step :: padded)

variable [Arithmetic ν] {scorer : Scorer ν} {source : DrawSource γ} {step : Step ν}

theorem Leaf.mirrors_eq (scorer : Scorer ν) : Leaf.Mirrors scorer Eq where
  face_eq := by
    rintro l _ rfl
    rfl
  relabel := by
    rintro l _ rfl es
    rfl
  attempt := by
    rintro l _ rfl step slot entry
    cases (l.attempt scorer step slot entry).candidate? with
    | none => exact .none
    | some c => exact .some ⟨rfl, rfl, fun _ => rfl, fun _ => rfl⟩

namespace Growth

variable {g g' : Growth ν γ}

theorem sample_nil (hspares : source.SparesEmpty) (size : Nat) (state : γ) :
    (source.sample size [] state).2 = state := by
  rw [DrawSource.sample]
  split
  · exact hspares size state
  · rfl

theorem foldl_offer_of_no_questions (hspares : source.SparesEmpty) (ls : List (Leaf ν)) :
    ls.foldl (fun g l => g.offer scorer source step { l with entries := [] }) g =
      { g with opened := g.opened ++ ls.map Leaf.bare } := by
  induction ls generalizing g with
  | nil => rw [List.foldl_nil, List.map_nil, List.append_nil]
  | cons l ls ih =>
    have hoffer : g.offer scorer source step { l with entries := [] } =
        { g with opened := g.opened ++ [l.bare] } :=
      offer_of_no_questions rfl (sample_nil hspares _ _)
    rw [List.foldl_cons, hoffer, ih, List.map_cons, List.append_assoc, List.singleton_append]

theorem runSplit_of_no_questions (hspares : source.SparesEmpty) (hpool : step.pool.members = [])
    (hempty : g.queue = .empty) (maxLeaves : Nat) :
    ∃ events, g.runSplit scorer source maxLeaves step =
      { g with opened := g.opened.map Leaf.bare, events := events } := by
  have hentries : g.entriesOf step = [] := by
    rw [entriesOf, hpool]
    rfl
  have hrun : g.runSplit scorer source maxLeaves step =
      ((g.opened.foldl (fun g' l => g'.offer scorer source step
        { l with entries := g.entriesOf step }) (g.takeOpen step)).splitAll scorer source step
          maxLeaves).leave g step := rfl
  let entered : Growth ν γ :=
    { g with
      opened := g.opened.map Leaf.bare
      events := g.events ++ stepWarnings step g.root.mass }
  have htaken : g.takeOpen step =
      { g with opened := [], events := g.events ++ stepWarnings step g.root.mass } := by
    rw [takeOpen, hentries, List.append_nil]
  have hentered : g.opened.foldl (fun g' l => g'.offer scorer source step
      { l with entries := [] }) (g.takeOpen step) = entered := by
    rw [foldl_offer_of_no_questions hspares, htaken, List.nil_append]
  have hqueue : entered.queue = .empty := hempty
  obtain ⟨e, hleave⟩ := leave_of_empty hqueue g step
  rw [hrun, hentries, hentered, splitAll_of_empty hqueue, hleave]
  exact ⟨_, rfl⟩

theorem Rests.right_idle (h : g.Rests Eq g') (hspares : source.SparesEmpty)
    (hpool : step.pool.members = []) (maxLeaves : Nat) :
    g.Rests Eq (g'.runSplit scorer source maxLeaves step) := by
  obtain ⟨events, hrun⟩ := runSplit_of_no_questions hspares hpool h.right_empty maxLeaves
  rw [hrun]
  refine ⟨⟨h.root_eq, h.offered_eq, h.commits_eq⟩, h.draws_eq, ?_, h.left_empty, h.right_empty⟩
  rw [List.forall₂_map_right_iff]
  exact h.opened

theorem Rests.left_full (h : g.Rests Eq g') {maxLeaves : Nat} (hfull : maxLeaves ≤ g.opened.length)
    (todo : List (Step ν)) : (Growth.runSteps scorer source maxLeaves todo g).Rests Eq g' := by
  cases todo with
  | nil => exact h
  | cons step todo =>
    rw [Growth.runSteps, if_pos hfull]
    exact h.withEvents _ g'.events

/-- Idle steps between the steps of a plan leave the run alone. -/
theorem Rests.runSteps_padded (hspares : source.SparesEmpty) {steps padded : List (Step ν)}
    (hpadded : Step.Padded steps padded) (h : g.Rests Eq g') (maxLeaves : Nat) :
    (Growth.runSteps scorer source maxLeaves steps g).Rests Eq
      (Growth.runSteps scorer source maxLeaves padded g') := by
  induction hpadded generalizing g g' with
  | nil => exact h
  | keep step _ ih =>
    rw [Growth.runSteps, Growth.runSteps, h.opened.length_eq]
    split
    · exact h.note _ _
    · split
      · exact ih ((h.note _ _).note _ _)
      · exact ih ((h.note _ _).runSplit (Leaf.mirrors_eq scorer) maxLeaves)
  | @idle step hidle steps padded _ ih =>
    by_cases hfull : maxLeaves ≤ g.opened.length
    · rw [Growth.runSteps, if_pos (h.opened.length_eq ▸ hfull)]
      exact (h.withEvents g.events _).left_full hfull steps
    · rw [Growth.runSteps, if_neg (h.opened.length_eq ▸ hfull)]
      split
      · exact ih (h.withEvents g.events _)
      · rename_i haction
        rcases hidle with ⟨tag, htag⟩ | hpool
        · rw [haction] at htag
          cases htag
        · exact ih ((h.withEvents g.events _).right_idle hspares hpool maxLeaves)

end Growth

/-! ### Trainers with other steps -/

namespace Trainer

/-- The trainer with other steps. -/
def withSteps (t : Trainer ν) (steps : List (Step ν)) : Trainer ν :=
  { t with plan := { t.plan with steps := steps } }

/-- Idle steps that are put into a plan leave the tree, the clusters and the totals as they are, or
the reason for which training fails. -/
theorem train_of_padded (hspares : source.SparesEmpty) (t : Trainer ν) {padded : List (Step ν)}
    (hpadded : Step.Padded t.plan.steps padded) (draws : γ) (examples : ExampleList ν) :
    (t.withSteps padded).train source draws examples = t.train source draws examples := by
  have hstart : (Growth.start t.scorer draws examples.members).Rests Eq
      (Growth.start t.scorer draws examples.members) :=
    ⟨⟨rfl, rfl, rfl⟩, rfl, List.forall₂_same.2 fun _ _ _ => rfl, rfl, rfl⟩
  have hgrow : (t.grow source draws examples).Rests Eq
      ((t.withSteps padded).grow source draws examples) :=
    hstart.runSteps_padded hspares hpadded t.plan.maxLeaves
  rw [train, train, finish_of_sameFace hgrow.toSameFace]
  rfl

end Trainer

namespace Sample

/-- A step that draws two of no questions. -/
def drawsNone : Step Float := ⟨"none", .split, 1, 0, 2, ⟨[]⟩⟩

def reserved : Step Float := ⟨"later", .reserved "prune", 3, 1, 1, ⟨[askBlue]⟩⟩

end Sample

namespace Trainer

open Sample in
/-- Seeded training with idle steps before, between and after the steps that split. -/
theorem train_drawing_padded : Generator.source.SparesEmpty ∧
    (drawingTrainer.withSteps (reserved :: drawsNone :: drawingTrainer.plan.steps ++
      [drawsNone])).train Generator.source (.ofSeed 5) shadedList =
      drawingTrainer.train Generator.source (.ofSeed 5) shadedList := by
  have hreserved : reserved.Idle := .inl ⟨_, rfl⟩
  have hnone : drawsNone.Idle := .inr rfl
  refine ⟨Generator.sparesEmpty_source, ?_⟩
  refine train_of_padded Generator.sparesEmpty_source drawingTrainer ?_ _ _
  exact .idle _ hreserved (.idle _ hnone (.keep _ (.keep _ (.idle _ hnone .nil))))

end Trainer

end QuestionTree
