import QuestionTree.Growth.Run
import Mathlib.Logic.Relation

/-!
# The stages of a run

A run is taken apart into moments: between two steps of the plan, between two offers of the leaves
that a step finds open, and between two commits. `Stage.next?` is the transition from one moment to
the next by the operations of growth, and `Stage.Transition` tells the kinds of transitions apart.
`reaches_runSteps` says that these moments are those of `Growth.runSteps`: from its first state the
transitions lead to the state that it returns. What every transition keeps therefore holds
throughout every run.
-/

namespace QuestionTree

variable {ν γ : Type}

/-- A moment of a run. -/
inductive Stage (ν γ : Type) where
  /-- No step is under way, and some are to come. -/
  | between (todo : List (Step ν)) (g : Growth ν γ)
  /-- A step that was entered in the state `before` offers the leaves that wait, each with the
  questions `entries`. -/
  | opening (step : Step ν) (entries : List Entry) (before : Growth ν γ) (todo : List (Step ν))
    (waiting : List (Leaf ν)) (g : Growth ν γ)
  /-- A step that was entered in the state `before` carries out the best splits. -/
  | splitting (step : Step ν) (before : Growth ν γ) (todo : List (Step ν)) (g : Growth ν γ)
  | ended (g : Growth ν γ)

namespace Growth

/-- The questions that a step puts on offer. -/
def entriesOf (g : Growth ν γ) (step : Step ν) : List Entry :=
  (step.pool.members.zipIdx g.offered.length).map fun (q, id) => ⟨id, q⟩

variable [Arithmetic ν]

/-- The growth that a step finds when it takes the open leaves to offer them. -/
def takeOpen (g : Growth ν γ) (step : Step ν) : Growth ν γ :=
  { g with
    events := g.events ++ stepWarnings step g.root.mass
    opened := []
    offered := g.offered ++ g.entriesOf step }

/-- The growth when a step that was entered in the state `before` is left. -/
def leave (g before : Growth ν γ) (step : Step ν) : Growth ν γ :=
  g.close.note
    (.stepLeft step (g.close.commits.length - before.commits.length)
      (g.close.totalGain - before.totalGain) g.close.finalScore g.close.opened.length)

end Growth

namespace Stage

/-- The growing tree. -/
def growth : Stage ν γ → Growth ν γ
  | between _ g => g
  | opening _ _ _ _ _ g => g
  | splitting _ _ _ g => g
  | ended g => g

/-- The leaves that wait to be offered. -/
def waiting : Stage ν γ → List (Leaf ν)
  | opening _ _ _ _ waiting _ => waiting
  | _ => []

variable [Arithmetic ν] (scorer : Scorer ν) (source : DrawSource γ) (maxLeaves : Nat)

/-- The moment that comes next. -/
def next? : Stage ν γ → Option (Stage ν γ)
  | between [] g => some (ended g)
  | between (step :: todo) g =>
    if maxLeaves ≤ g.opened.length then some (ended (g.note (.budgetReached maxLeaves)))
    else
      let g := g.note (.stepEntered step)
      match step.action with
      | .reserved tag => some (between todo (g.note (.actionSkipped step tag)))
      | .split => some (opening step (g.entriesOf step) g todo g.opened (g.takeOpen step))
  | opening step _ before todo [] g => some (splitting step before todo g)
  | opening step entries before todo (l :: waiting) g =>
    some (opening step entries before todo waiting
      (g.offer scorer source step { l with entries := entries }))
  | splitting step before todo g =>
    if g.leafCount < maxLeaves then
      match g.commit? scorer source step with
      | some g' => some (splitting step before todo g')
      | none => some (between todo (g.leave before step))
    else some (between todo (g.leave before step))
  | ended _ => none

/-- The kinds of transitions, with what is known when they are made. -/
inductive Transition : Stage ν γ → Stage ν γ → Prop where
  | finish (g : Growth ν γ) : Transition (between [] g) (ended g)
  | stop (step : Step ν) (todo : List (Step ν)) (g : Growth ν γ)
    (hbudget : maxLeaves ≤ g.opened.length) :
    Transition (between (step :: todo) g) (ended (g.note (.budgetReached maxLeaves)))
  | skip (step : Step ν) (todo : List (Step ν)) (g : Growth ν γ) (tag : String)
    (hbudget : ¬ maxLeaves ≤ g.opened.length) (haction : step.action = .reserved tag) :
    Transition (between (step :: todo) g)
      (between todo ((g.note (.stepEntered step)).note (.actionSkipped step tag)))
  | enter (step : Step ν) (todo : List (Step ν)) (g : Growth ν γ)
    (hbudget : ¬ maxLeaves ≤ g.opened.length) (haction : step.action = .split) :
    Transition (between (step :: todo) g)
      (opening step ((g.note (.stepEntered step)).entriesOf step) (g.note (.stepEntered step)) todo
        g.opened ((g.note (.stepEntered step)).takeOpen step))
  | offer (step : Step ν) (entries : List Entry) (before : Growth ν γ) (todo : List (Step ν))
    (l : Leaf ν) (waiting : List (Leaf ν)) (g : Growth ν γ) :
    Transition (opening step entries before todo (l :: waiting) g)
      (opening step entries before todo waiting
        (g.offer scorer source step { l with entries := entries }))
  | begin (step : Step ν) (entries : List Entry) (before : Growth ν γ) (todo : List (Step ν))
    (g : Growth ν γ) :
    Transition (opening step entries before todo [] g) (splitting step before todo g)
  | commit (step : Step ν) (before : Growth ν γ) (todo : List (Step ν)) (g g' : Growth ν γ)
    (hbudget : g.leafCount < maxLeaves) (hcommit : g.commit? scorer source step = some g') :
    Transition (splitting step before todo g) (splitting step before todo g')
  | leave (step : Step ν) (before : Growth ν γ) (todo : List (Step ν)) (g : Growth ν γ)
    (hend : g.leafCount < maxLeaves → g.commit? scorer source step = none) :
    Transition (splitting step before todo g) (between todo (g.leave before step))

/-- Whether transitions lead from one moment to another. -/
def Reaches : Stage ν γ → Stage ν γ → Prop :=
  Relation.ReflTransGen fun s s' => s.next? scorer source maxLeaves = some s'

variable {scorer source maxLeaves}

theorem transition_of_next? {s s' : Stage ν γ} (h : s.next? scorer source maxLeaves = some s') :
    Transition scorer source maxLeaves s s' := by
  cases s with
  | between todo g =>
    cases todo with
    | nil =>
      cases h
      exact .finish g
    | cons step todo =>
      rw [next?] at h
      split at h
      · rename_i hbudget
        cases h
        exact .stop step todo g hbudget
      · rename_i hbudget
        split at h
        · rename_i tag haction
          cases h
          exact .skip step todo g tag hbudget haction
        · rename_i haction
          cases h
          exact .enter step todo g hbudget haction
  | opening step entries before todo waiting g =>
    cases waiting with
    | nil =>
      cases h
      exact .begin step entries before todo g
    | cons l waiting =>
      cases h
      exact .offer step entries before todo l waiting g
  | splitting step before todo g =>
    rw [next?] at h
    split at h
    · rename_i hbudget
      split at h
      · rename_i g' hcommit
        cases h
        exact .commit step before todo g g' hbudget hcommit
      · rename_i hcommit
        cases h
        exact .leave step before todo g fun _ => hcommit
    · rename_i hbudget
      cases h
      exact .leave step before todo g fun hlt => absurd hlt hbudget
  | ended g => cases h

theorem Reaches.of_next {s s' s'' : Stage ν γ} (h : s.next? scorer source maxLeaves = some s')
    (h' : Reaches scorer source maxLeaves s' s'') : Reaches scorer source maxLeaves s s'' :=
  Relation.ReflTransGen.head h h'

/-- What the first moment has and every transition keeps, every moment of a run has. -/
theorem Reaches.invariant {P : Stage ν γ → Prop} {s s' : Stage ν γ}
    (h : Reaches scorer source maxLeaves s s')
    (hstep : ∀ a b, P a → a.next? scorer source maxLeaves = some b → P b) (hs : P s) : P s' := by
  induction h with
  | refl => exact hs
  | tail _ hnext ih => exact hstep _ _ ih hnext

theorem reaches_splitting (step : Step ν) (entries : List Entry) (before : Growth ν γ)
    (todo : List (Step ν)) (waiting : List (Leaf ν)) (g : Growth ν γ) :
    Reaches scorer source maxLeaves (opening step entries before todo waiting g)
      (splitting step before todo (waiting.foldl
        (fun g l => g.offer scorer source step { l with entries := entries }) g)) := by
  induction waiting generalizing g with
  | nil => exact Reaches.of_next rfl Relation.ReflTransGen.refl
  | cons l waiting ih => exact Reaches.of_next rfl (ih _)

theorem reaches_leave (step : Step ν) (before : Growth ν γ) (todo : List (Step ν))
    (g : Growth ν γ) :
    Reaches scorer source maxLeaves (splitting step before todo g)
      (between todo ((g.splitAll scorer source step maxLeaves).leave before step)) := by
  induction g using Growth.splitAll.induct scorer source step maxLeaves with
  | case1 g hbudget g' hcommit ih =>
    rw [Growth.splitAll, if_pos hbudget, hcommit]
    refine Reaches.of_next ?_ ih
    rw [next?, if_pos hbudget, hcommit]
  | case2 g hbudget hcommit =>
    rw [Growth.splitAll, if_pos hbudget, hcommit]
    refine Reaches.of_next ?_ Relation.ReflTransGen.refl
    rw [next?, if_pos hbudget, hcommit]
  | case3 g hbudget =>
    rw [Growth.splitAll, if_neg hbudget]
    refine Reaches.of_next ?_ Relation.ReflTransGen.refl
    rw [next?, if_neg hbudget]

theorem reaches_runSplit {step : Step ν} (todo : List (Step ν)) {g : Growth ν γ}
    (hbudget : ¬ maxLeaves ≤ g.opened.length) (haction : step.action = .split) :
    Reaches scorer source maxLeaves (between (step :: todo) g)
      (between todo ((g.note (.stepEntered step)).runSplit scorer source maxLeaves step)) := by
  let noted := g.note (.stepEntered step)
  have hopen : Reaches scorer source maxLeaves (between (step :: todo) g)
      (opening step (noted.entriesOf step) noted todo noted.opened (noted.takeOpen step)) := by
    refine Reaches.of_next ?_ Relation.ReflTransGen.refl
    rw [next?, if_neg hbudget, haction]
  exact hopen.trans ((reaches_splitting ..).trans (reaches_leave ..))

/-- The moments of a run lead to the growth that the run returns. -/
theorem reaches_runSteps (todo : List (Step ν)) (g : Growth ν γ) :
    Reaches scorer source maxLeaves (between todo g)
      (ended (Growth.runSteps scorer source maxLeaves todo g)) := by
  induction todo generalizing g with
  | nil => exact Reaches.of_next rfl Relation.ReflTransGen.refl
  | cons step todo ih =>
    by_cases hbudget : maxLeaves ≤ g.opened.length
    · rw [Growth.runSteps, if_pos hbudget]
      refine Reaches.of_next ?_ Relation.ReflTransGen.refl
      rw [next?, if_pos hbudget]
    · rw [Growth.runSteps, if_neg hbudget]
      cases haction : step.action with
      | reserved tag =>
        refine Reaches.of_next ?_ (ih _)
        rw [next?, if_neg hbudget, haction]
      | split => exact (reaches_runSplit todo hbudget haction).trans (ih _)

end Stage

end QuestionTree
