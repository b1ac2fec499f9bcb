import QuestionTree.Proofs.Scorer.Deviation
import QuestionTree.Proofs.Training.Balance

/-!
# Trainings without a loss

A split whose gain is negative is reported as a loss and not carried out. Every leaf of a run has
the score of its examples, so a scorer for which no question loses anything at such a leaf reports
no loss at any moment of a run. Squared deviations are such a scorer, if the masses are not negative
and the arithmetic does not round: what is reported as a loss is the work of rounding alone.
-/

namespace QuestionTree

variable {ν γ : Type}

/-! ### Losses of a run -/

/-- What an event reports to be lost. -/
def Event.loss? : Event ν → Option ν
  | .loss gain => some gain
  | _ => none

namespace Growth

/-- The losses that were reported, in the order of time. -/
def losses (g : Growth ν γ) : List ν := g.events.filterMap Event.loss?

theorem losses_note (g : Growth ν γ) {e : Event ν} (h : e.loss? = none) :
    (g.note e).losses = g.losses := by
  have hnone : [e].filterMap Event.loss? = [] :=
    List.filterMap_cons_none h
  rw [losses, losses, note, List.filterMap_append, hnone, List.append_nil]

variable [Arithmetic ν] {scorer : Scorer ν} {source : DrawSource γ} {step : Step ν}

theorem losses_takeOpen (g : Growth ν γ) (step : Step ν) : (g.takeOpen step).losses = g.losses := by
  have hnone : (stepWarnings step g.root.mass).filterMap Event.loss? = [] := by
    rw [stepWarnings, List.filterMap_append]
    split <;> split <;> rfl
  rw [losses, losses, takeOpen, List.filterMap_append, hnone, List.append_nil]

theorem losses_leave (g before : Growth ν γ) (step : Step ν) :
    (g.leave before step).losses = g.losses :=
  losses_note _ rfl

theorem losses_carryOut (g : Growth ν γ) (c : Candidate ν) (queue : Queue (Candidate ν)) :
    (g.carryOut c queue).losses = g.losses :=
  losses_note _ rfl

theorem losses_offer {g : Growth ν γ} {l : Leaf ν}
    (h : ∀ slot entry gain, l.attempt scorer step slot entry ≠ .loss gain) :
    (g.offer scorer source step l).losses = g.losses := by
  have htrials : ∀ slots, (l.trials scorer step slots).filterMap Trial.loss? = [] := by
    refine fun slots => List.filterMap_eq_nil_iff.2 fun trial htrial => ?_
    obtain ⟨slot, _, entry, _, rfl⟩ := Leaf.mem_trials htrial
    cases hattempt : l.attempt scorer step slot entry with
    | refused => rfl
    | loss gain => exact absurd hattempt (h slot entry gain)
    | accepted c => rfl
  rw [offer]
  split
  · rfl
  · dsimp only
    rw [htrials, List.map_nil, List.append_nil]
    split <;> rfl

end Growth

/-- Whether no question loses anything at a leaf that holds some of the examples. -/
def Scorer.SparesLosses [Arithmetic ν] (scorer : Scorer ν)
    (examples : List (Handle (Example ν))) : Prop :=
  ∀ l : Leaf ν, l.Rated scorer → l.members ⊆ examples →
    ∀ step slot entry gain, l.attempt scorer step slot entry ≠ .loss gain

section Runs

variable [Arithmetic ν] {scorer : Scorer ν} {source : DrawSource γ} {maxLeaves : Nat}
  {examples : List (Handle (Example ν))} {steps : List (Step ν)}

namespace Growth.Sound

variable {current : Option (Step ν)} {waiting : List (Leaf ν)} {g : Growth ν γ} {l : Leaf ν}

theorem rated (h : g.Sound scorer examples steps current waiting) (hfaithful : scorer.Faithful)
    (hl : l ∈ g.leaves + waiting) : l.Rated scorer := by
  obtain ⟨n, hn, hbare⟩ := List.mem_map.1 (h.ledger.leaf_known l hl)
  refine Leaf.Rated.of_bare_eq ?_ hbare.symm
  rcases List.mem_cons.1 hn with rfl | hn
  · rw [h.root_eq]
    exact ⟨rfl, rfl⟩
  · obtain ⟨c, hc, hside⟩ := List.mem_flatMap.1 hn
    have hhands := h.handsOn hfaithful hc
    rcases List.mem_pair.1 hside with rfl | rfl
    · exact hhands.yes_rated
    · exact hhands.no_rated

theorem members_subset (h : g.Sound scorer examples steps current waiting)
    (hl : l ∈ g.leaves + waiting) : l.members ⊆ examples := by
  intro e he
  rw [← Multiset.mem_coe, ← h.ledger.shared, Multiset.mem_bind]
  exact ⟨l, hl, he⟩

theorem losses_offer (h : g.Sound scorer examples steps current waiting)
    (hfaithful : scorer.Faithful) (hspares : scorer.SparesLosses examples)
    (hl : l ∈ g.leaves + waiting) {g' : Growth ν γ} {step : Step ν} {m : Leaf ν}
    (hbare : m.bare = l.bare) : (g'.offer scorer source step m).losses = g'.losses := by
  have hmembers : m.members ⊆ examples := by
    rw [Leaf.members_of_bare_eq hbare]
    exact h.members_subset hl
  exact Growth.losses_offer fun slot entry gain =>
    hspares m (Leaf.Rated.of_bare_eq (h.rated hfaithful hl) hbare) hmembers step slot entry gain

theorem losses_commit? {step : Step ν} {g' : Growth ν γ}
    (h : g.Sound scorer examples steps (some step) waiting) (hfaithful : scorer.Faithful)
    (hspares : scorer.SparesLosses examples) (hcommit : g.commit? scorer source step = some g') :
    g'.losses = g.losses := by
  obtain ⟨c, queue, hnext, rfl⟩ := commit?_eq_some_iff.1 hcommit
  have hout := h.carryOut hnext
  have hyes : (commitOf g.commits.length c).yes ∈ (g.carryOut c queue).leaves +
      ((commitOf g.commits.length c).yes :: (commitOf g.commits.length c).no :: waiting :
        List (Leaf ν)) :=
    Multiset.mem_add.2 (.inr (List.mem_cons_self ..))
  have hno : (commitOf g.commits.length c).no ∈ (g.carryOut c queue).leaves +
      ((commitOf g.commits.length c).yes :: (commitOf g.commits.length c).no :: waiting :
        List (Leaf ν)) :=
    Multiset.mem_add.2 (.inr (List.mem_cons_of_mem _ (List.mem_cons_self ..)))
  rw [hout.losses_offer hfaithful hspares hno rfl, hout.losses_offer hfaithful hspares hyes rfl,
    losses_carryOut]

end Growth.Sound

namespace Stage

theorem losses_next {s s' : Stage ν γ} (h : s.Sound scorer examples steps)
    (hfaithful : scorer.Faithful) (hspares : scorer.SparesLosses examples)
    (hnext : s.next? scorer source maxLeaves = some s') :
    s'.growth.losses = s.growth.losses := by
  cases transition_of_next? hnext with
  | finish g => rfl
  | stop step todo g _ => exact Growth.losses_note g rfl
  | skip step todo g tag _ _ =>
    exact (Growth.losses_note _ rfl).trans (Growth.losses_note g rfl)
  | enter step todo g _ _ =>
    exact (Growth.losses_takeOpen _ step).trans (Growth.losses_note g rfl)
  | offer step entries before todo l waiting g =>
    have hwaits : l ∈ g.leaves + ((l :: waiting : List (Leaf ν)) : Multiset (Leaf ν)) :=
      Multiset.mem_add.2 (.inr (List.mem_cons_self ..))
    exact h.growing.losses_offer hfaithful hspares hwaits rfl
  | begin step entries before todo g => rfl
  | commit step before todo g g' _ hcommit =>
    exact h.growing.losses_commit? hfaithful hspares hcommit
  | leave step before todo g _ => exact Growth.losses_leave g before step

theorem losses_of_reaches {draws : γ} {s : Stage ν γ} (hfaithful : scorer.Faithful)
    (hspares : scorer.SparesLosses examples)
    (h : Reaches scorer source maxLeaves (between steps (Growth.start scorer draws examples)) s) :
    s.growth.losses = [] :=
  invariant_of_reaches (P := fun s => s.growth.losses = []) h rfl fun _ _ hsound hnone hnext =>
    (losses_next hsound hfaithful hspares hnext).trans hnone

end Stage

end Runs

/-- A leaf where no way to share out the examples has a negative gain loses nothing. -/
theorem Leaf.attempt_ne_loss [ExactArithmetic ν] {scorer : Scorer ν} {l : Leaf ν}
    (hgain : ∀ left right, (l.members.map Handle.item).Perm (left ++ right) →
      0 ≤ (scorer.split left right l.score).gain) (step : Step ν) (slot : Nat) (entry : Entry)
    (gain : ν) : l.attempt scorer step slot entry ≠ .loss gain := by
  have hshared : (l.members.map Handle.item).Perm
      ((l.members.filter entry.question.item.affirms).map Handle.item ++
        (l.members.filter fun e => !entry.question.item.affirms e).map Handle.item) := by
    rw [← List.map_append]
    exact ((List.filter_append_perm _ l.members).map Handle.item).symm
  intro hloss
  rw [Leaf.attempt, Leaf.divide_eq] at hloss
  dsimp only at hloss
  rw [if_neg (not_lt.2 (hgain _ _ hshared))] at hloss
  repeat' split at hloss
  all_goals cases hloss

/-! ### Squared deviations -/

namespace Variance

variable [ExactArithmetic ν]

theorem attempt_ne_loss {l : Leaf ν} (hmass : ∀ e ∈ l.members, 0 ≤ e.item.mass)
    (hscore : l.score = scorer.score (l.members.map Handle.item)) (step : Step ν) (slot : Nat)
    (entry : Entry) (gain : ν) : l.attempt scorer step slot entry ≠ .loss gain := by
  refine Leaf.attempt_ne_loss (fun left right hshared => ?_) step slot entry gain
  rw [hscore]
  exact gain_nonneg hshared (List.forall_mem_map.2 hmass)

theorem sparesLosses {examples : List (Handle (Example ν))}
    (hmass : ∀ e ∈ examples, 0 ≤ e.item.mass) : scorer.SparesLosses examples :=
  fun _ hrated hmembers =>
    attempt_ne_loss (fun e he => hmass e (hmembers he)) hrated.score_eq

/-- What the score by squared deviations says of some examples, and of a split of more of them. -/
structure Measures (left right : List (Example ν)) : Prop where
  score_eq : sumOfSquares left = deviation left
  massless : massOf left = 0 → sumOfSquares left = 0
  perm_eq : ∀ others, left.Perm others → sumOfSquares others = sumOfSquares left
  /-- The score is what is computed before it is kept from falling below zero. -/
  unclamped : 0 < (moments left).mass → sumOfSquares left = (moments left).squares -
    Arithmetic.total ((moments left).sums.map fun s => s * s) / (moments left).mass
  superadditive : sumOfSquares left + sumOfSquares right ≤ sumOfSquares (left ++ right)
  gain_nonneg : 0 ≤ (scorer.split left right (scorer.score (left ++ right))).gain

theorem measures {left right : List (Example ν)} (hleft : ∀ e ∈ left, 0 ≤ e.mass)
    (hright : ∀ e ∈ right, 0 ≤ e.mass) : Measures left right where
  score_eq := sumOfSquares_eq hleft
  massless hzero := (sumOfSquares_eq hleft).trans (weighted_eq_zero hleft hzero)
  perm_eq _ hperm := sumOfSquares_perm hperm hleft
  unclamped hpos := by
    rw [mass_moments] at hpos
    rw [squares_sub_between hpos.ne', sumOfSquares_eq hleft]
  superadditive := sumOfSquares_add_le hleft hright
  gain_nonneg := gain_nonneg (List.Perm.refl _) (List.forall_mem_append.2 ⟨hleft, hright⟩)

/-- In exact arithmetic the score is the squared deviation from the mean, no split has a negative
gain, and no training reports a loss. -/
theorem measures_and_spares_losses :
    (∀ left right : List (Example ν), (∀ e ∈ left, 0 ≤ e.mass) → (∀ e ∈ right, 0 ≤ e.mass) →
      Measures left right) ∧
    (∀ l : Leaf ν, (∀ e ∈ l.members, 0 ≤ e.item.mass) →
      l.score = scorer.score (l.members.map Handle.item) →
      ∀ step slot entry gain, l.attempt scorer step slot entry ≠ .loss gain) ∧
    ∀ (t : Trainer ν) (source : DrawSource γ) (draws : γ) (examples : ExampleList ν),
      t.scorer = scorer → (∀ e ∈ examples.members, 0 ≤ e.item.mass) →
      (∀ s, Stage.Reaches t.scorer source t.plan.maxLeaves
          (.between t.plan.steps (Growth.start t.scorer draws examples.members)) s →
        s.growth.losses = []) ∧
      (t.grow source draws examples).losses = [] := by
  refine ⟨fun left right hleft hright => measures hleft hright,
    fun l hmass hscore => attempt_ne_loss hmass hscore, ?_⟩
  intro t source draws examples hscorer hmass
  have hfaithful : t.scorer.Faithful := hscorer ▸ ScorerKind.variance.faithful
  have hspares : t.scorer.SparesLosses examples.members := hscorer ▸ sparesLosses hmass
  have hreached : ∀ s, Stage.Reaches t.scorer source t.plan.maxLeaves
      (.between t.plan.steps (Growth.start t.scorer draws examples.members)) s →
      s.growth.losses = [] :=
    fun s hreaches => Stage.losses_of_reaches hfaithful hspares hreaches
  exact ⟨hreached, hreached _ (Stage.reaches_runSteps t.plan.steps _)⟩

end Variance

/-! ### Three things with fractions -/

section Fractions

attribute [local instance] fractions

namespace Sample

/-- A red thing with two values and another one without mass that has none. -/
def redThings : List (Example ℚ) :=
  [⟨⟨schema, [some 0]⟩, Box.vector [1, 2], 2⟩, ⟨⟨schema, [some 0]⟩, Box.vector [], 0⟩]

/-- A blue thing with three values. -/
def blueThings : List (Example ℚ) := [⟨⟨schema, [some 1]⟩, Box.vector [1, 0, 3], 1⟩]

/-- The red things and the blue thing. -/
def unevenList : ExampleList ℚ := ⟨schema, Handle.ofList 0 (redThings ++ blueThings)⟩

end Sample

namespace Variance

open Sample

/-- The score of the red things and the blue thing, which is all gained by the split. -/
theorem measures_red_from_blue : Measures redThings blueThings ∧
    sumOfSquares (redThings ++ blueThings) = 26 / 3 ∧
    sumOfSquares redThings + sumOfSquares blueThings = 0 ∧
    (∀ step slot entry gain, (Growth.rootLeaf scorer unevenList.members).attempt scorer step slot
      entry ≠ .loss gain) ∧
    (exactTrainer.grow firstPlaces () unevenList).commits.length = 1 ∧
    (exactTrainer.grow firstPlaces () unevenList).losses = [] := by
  obtain ⟨hmeasures, hattempt, hrun⟩ := measures_and_spares_losses (ν := ℚ) (γ := Unit)
  have hmass : ∀ e ∈ unevenList.members, 0 ≤ e.item.mass := by decide +kernel
  refine ⟨hmeasures redThings blueThings (by decide +kernel) (by decide +kernel), ?_, ?_,
    hattempt _ hmass rfl, ?_, (hrun exactTrainer firstPlaces () unevenList rfl hmass).2⟩
  · decide +kernel
  · decide +kernel
  · decide +kernel

end Variance

end Fractions

end QuestionTree
