import QuestionTree.Proofs.Training.Balance
import QuestionTree.Proofs.Growth.Single

/-!
# Leaves that are not searched

A leaf whose mass does not reach twice the least mass of a step is not searched. The mass is the one
that the leaf was made with, which is the mass of its examples at every moment of a run: a split has
added it up for both sides, and a leaf keeps it in the queue and beyond. Where additions do not
round, the sides of a split share out the mass of the leaf, so one of them misses the least mass
whenever the leaf does not reach twice of it. Each question would be refused, and nothing is lost by
trying none.
-/

namespace QuestionTree

variable {ν γ : Type}

/-! ### The mass of a leaf -/

section Masses

variable [Arithmetic ν]

/-- Whether a leaf has the mass of its examples. -/
def Leaf.Weighed (l : Leaf ν) : Prop := l.mass = Example.totalMass (l.members.map Handle.item)

theorem Leaf.Weighed.of_bare_eq {l m : Leaf ν} (h : m.Weighed) (hbare : l.bare = m.bare) :
    l.Weighed := by
  rw [Weighed, members_of_bare_eq hbare, mass_of_bare_eq hbare]
  exact h

/-- Whether a side of a split has the mass of its examples. -/
def Side.Weighed (s : Side ν) : Prop := s.mass = Example.totalMass (s.members.map Handle.item)

namespace Stage

/-- Whether all nodes and all splits that wait have the mass of their examples. -/
structure Weighed (s : Stage ν γ) : Prop where
  /-- The nodes made so far, whether they were split or not. -/
  nodes : ∀ l ∈ s.nodes, l.Weighed
  /-- The leaves, wherever they are. -/
  unsplit : ∀ l ∈ s.unsplit, l.Weighed
  queued : ∀ c ∈ s.growth.queue.toList, c.leaf.Weighed ∧ c.yes.Weighed ∧ c.no.Weighed
  /-- What a commit has split, and the sides of the split. -/
  committed : ∀ c ∈ s.growth.commits,
    c.candidate.leaf.Weighed ∧ c.candidate.yes.Weighed ∧ c.candidate.no.Weighed

variable {scorer : Scorer ν} {source : DrawSource γ} {maxLeaves : Nat}
  {examples : List (Handle (Example ν))} {steps : List (Step ν)} {s : Stage ν γ}

theorem weighed_nodes (h : s.Sound scorer examples steps) : ∀ l ∈ s.nodes, l.Weighed := by
  refine List.forall_mem_cons.2 ⟨?_, fun l hl => ?_⟩
  · rw [h.growing.root_eq]
    rfl
  obtain ⟨c, hc, hside⟩ := List.mem_flatMap.1 hl
  obtain ⟨step, -, hadmitted⟩ := h.growing.committed c hc
  obtain ⟨i, hi⟩ := List.mem_iff_getElem?.1 hc
  rw [h.growing.ledger.numbered i c hi] at hside
  rcases List.mem_pair.1 hside with rfl | rfl
  · exact hadmitted.yes_mass
  · exact hadmitted.no_mass

theorem weighed_of_bare_mem (h : s.Sound scorer examples steps) {l : Leaf ν}
    (hl : l.bare ∈ s.nodes.map Leaf.bare) : l.Weighed := by
  obtain ⟨n, hn, hbare⟩ := List.mem_map.1 hl
  exact (weighed_nodes h n hn).of_bare_eq hbare.symm

theorem weighed_of_sound (h : s.Sound scorer examples steps) : s.Weighed := by
  have hunsplit : ∀ l ∈ s.unsplit, l.Weighed := by
    intro l hl
    rw [← Multiset.mem_coe, coe_unsplit] at hl
    exact weighed_of_bare_mem h (h.growing.ledger.leaf_known l hl)
  refine
    { nodes := weighed_nodes h
      unsplit := hunsplit
      queued := fun c hc => ?_
      committed := fun c hc => ?_ }
  · obtain ⟨step, -, hadmitted⟩ := h.growing.queued c (Multiset.mem_coe.2 hc)
    exact ⟨hunsplit c.leaf (mem_unsplit_of_queued hc), hadmitted.yes_mass, hadmitted.no_mass⟩
  · obtain ⟨step, -, hadmitted⟩ := h.growing.committed c hc
    exact ⟨weighed_of_bare_mem h (h.growing.ledger.split_known c hc), hadmitted.yes_mass,
      hadmitted.no_mass⟩

end Stage

/-! ### The search of a leaf -/

namespace Leaf

variable (scorer : Scorer ν) (source : DrawSource γ) (step : Step ν) (l : Leaf ν) (draws : γ)

/-- What comes of the questions that are drawn for a leaf, and the source after the draw. -/
def search : List (Trial ν) × γ :=
  let (slots, draws) := source.sample step.drawSize (List.range l.entries.length) draws
  (l.trials scorer step slots, draws)

/-- The best split of a leaf that has the mass for two sides. -/
def bestSplit? : Option (Candidate ν) :=
  if l.mass < step.minObs + step.minObs then none else best (l.search scorer source step draws).1

theorem best_of_refused {trials : List (Trial ν)} (h : ∀ trial ∈ trials, trial = .refused) :
    best trials = none := by
  have hnone : trials.filterMap Trial.candidate? = [] :=
    List.filterMap_eq_nil_iff.2 fun trial htrial => by rw [h trial htrial]; rfl
  rw [best, hnone]
  rfl

end Leaf

namespace Growth

variable {scorer : Scorer ν} {source : DrawSource γ} {step : Step ν}

/-- The growth after a leaf was searched, with what was found. -/
def searched (g : Growth ν γ) (l : Leaf ν) (found : List (Trial ν) × γ) : Growth ν γ :=
  let g := { g with
    draws := found.2
    events := g.events ++ (found.1.filterMap Trial.loss?).map Event.loss }
  match Leaf.best found.1 with
  | some c => { g with queue := g.queue.insert c }
  | none => { g with opened := g.opened ++ [l] }

/-- Offering a leaf searches it, if it has the mass for two sides. -/
theorem offer_eq_searched (g : Growth ν γ) (l : Leaf ν) : g.offer scorer source step l =
    if l.mass < step.minObs + step.minObs then { g with opened := g.opened ++ [l] }
    else g.searched l (l.search scorer source step g.draws) := rfl

theorem searched_of_refused (g : Growth ν γ) (l : Leaf ν) {trials : List (Trial ν)}
    (h : ∀ trial ∈ trials, trial = .refused) :
    g.searched l (trials, g.draws) = { g with opened := g.opened ++ [l] } := by
  have hloss : trials.filterMap Trial.loss? = [] :=
    List.filterMap_eq_nil_iff.2 fun trial htrial => by rw [h trial htrial]; rfl
  rw [searched, hloss, Leaf.best_of_refused h, List.map_nil, List.append_nil]

end Growth

end Masses

/-! ### Exact masses -/

section Exact

variable [ExactArithmetic ν] {scorer : Scorer ν} {source : DrawSource γ} {step : Step ν}
  {l : Leaf ν}

theorem Leaf.Weighed.attempt_eq (h : l.Weighed) (hlight : l.mass < step.minObs + step.minObs)
    (slot : Nat) (entry : Entry) : l.attempt scorer step slot entry = .refused := by
  have hshared := ExactArithmetic.totalMass_filter_add l.members entry.question.item.affirms
  rw [← h] at hshared
  rw [Leaf.attempt, Leaf.divide_eq]
  dsimp only
  rw [if_pos]
  by_contra hreach
  obtain ⟨hyes, hno⟩ := not_or.1 hreach
  have hheavy := add_le_add (not_lt.1 hyes) (not_lt.1 hno)
  rw [hshared] at hheavy
  exact absurd hlight (not_lt.2 hheavy)

theorem Leaf.Weighed.search_refused (h : l.Weighed)
    (hlight : l.mass < step.minObs + step.minObs) (draws : γ) :
    ∀ trial ∈ (l.search scorer source step draws).1, trial = .refused := by
  intro trial htrial
  obtain ⟨slot, -, entry, -, rfl⟩ := Leaf.mem_trials htrial
  exact h.attempt_eq hlight slot entry

/-- Whether a leaf of a growing tree is treated as it would be if its mass were not looked at. -/
structure Growth.Spares (scorer : Scorer ν) (source : DrawSource γ) (step : Step ν)
    (g : Growth ν γ) (l : Leaf ν) : Prop where
  /-- The best split is that of all questions that are drawn. -/
  best_eq : ∀ draws, l.bestSplit? scorer source step draws =
    Leaf.best (l.search scorer source step draws).1
  /-- The same is queued or open, the same is drawn and the same is reported. -/
  offer_eq : g.offer scorer source step l = g.searched l (l.search scorer source step g.draws)

theorem Leaf.Weighed.spares (h : l.Weighed) (hall : ¬ 1 < step.drawSize) (g : Growth ν γ) :
    g.Spares scorer source step l := by
  by_cases hlight : l.mass < step.minObs + step.minObs
  · have hrefused : ∀ draws, ∀ trial ∈ (l.search scorer source step draws).1, trial = .refused :=
      h.search_refused hlight
    have hsearch : l.search scorer source step g.draws =
        ((l.search scorer source step g.draws).1, g.draws) := by
      rw [search, source.sample_of_not_lt hall]
    refine ⟨fun draws => ?_, ?_⟩
    · rw [bestSplit?, if_pos hlight, best_of_refused (hrefused draws)]
    · rw [g.offer_eq_searched, if_pos hlight, hsearch, g.searched_of_refused l (hrefused g.draws)]
  · exact ⟨fun draws => if_neg hlight, by rw [g.offer_eq_searched, if_neg hlight]⟩

/-- Where masses are exact, they are those of the examples at every moment of a run, and no step
that asks all questions would find more splits if it looked for them in all leaves, whatever else
has been queued or opened when a leaf is offered. -/
theorem Stage.spares_of_reaches {maxLeaves : Nat} {examples : List (Handle (Example ν))}
    {steps : List (Step ν)} {draws : γ} {s : Stage ν γ}
    (h : Reaches scorer source maxLeaves (between steps (Growth.start scorer draws examples)) s) :
    s.Weighed ∧ ∀ step : Step ν, ¬ 1 < step.drawSize → ∀ l ∈ s.unsplit, ∀ entries,
      ∀ g : Growth ν γ, g.Spares scorer source step { l with entries } := by
  have hweighed := weighed_of_sound (sound_of_reaches h)
  refine ⟨hweighed, fun step hall l hl entries => ?_⟩
  have hl : ({ l with entries } : Leaf ν).Weighed := (hweighed.unsplit l hl).of_bare_eq rfl
  exact hl.spares hall

end Exact

/-! ### Two things with fractions -/

section Fractions

attribute [local instance] fractions

open Sample

/-- The red thing, once it is apart from the blue thing, has not the mass for two sides. -/
theorem Stage.spares_red_from_blue : ∃ s : Stage ℚ Unit,
    Reaches exactTrainer.scorer firstPlaces exactTrainer.plan.maxLeaves
      (between exactTrainer.plan.steps
        (Growth.start exactTrainer.scorer () exactList.members)) s ∧
    s.unsplit.map Leaf.mass = [1, 3] ∧ s.Weighed ∧
    ∀ step ∈ exactTrainer.plan.steps, step.minObs = 1 ∧ ∀ l ∈ s.unsplit, ∀ entries,
      ∀ g : Growth ℚ Unit, g.Spares exactTrainer.scorer firstPlaces step { l with entries } := by
  have hreaches : Reaches exactTrainer.scorer firstPlaces exactTrainer.plan.maxLeaves _ _ :=
    reaches_runSteps exactTrainer.plan.steps (Growth.start exactTrainer.scorer () exactList.members)
  obtain ⟨hweighed, hspares⟩ := spares_of_reaches hreaches
  refine ⟨_, hreaches, by decide +kernel, hweighed, fun step hstep => ?_⟩
  obtain rfl := List.mem_singleton.1 hstep
  exact ⟨rfl, hspares _ (by decide)⟩

end Fractions

end QuestionTree
