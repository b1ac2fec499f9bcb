import QuestionTree.Proofs.Scorer.Shares
import QuestionTree.Proofs.Training.Gains
import QuestionTree.Proofs.Training.MeanEntropy

/-!
# Trainings by entropy report no loss

The entropy of a whole is at least the mean of the entropies of its sides, so a leaf that has the
entropy of its examples for a score has no question with a negative gain. Every leaf of a training
by entropy is such a leaf, in whatever step it is searched: in arithmetic that does not round, a
training by entropy never reports a loss.
-/

namespace QuestionTree

variable {γ : Type}

namespace Id3

theorem attempt_ne_loss {l : Leaf ℝ} (hmass : ∀ e ∈ l.members, 0 ≤ e.item.mass)
    (hfilled : ∀ e ∈ l.members, e.item.box.Filled)
    (hscore : l.score = scorer.score (l.members.map Handle.item)) (step : Step ℝ) (slot : Nat)
    (entry : Entry) (gain : ℝ) : l.attempt scorer step slot entry ≠ .loss gain := by
  refine Leaf.attempt_ne_loss (fun left right hshared => ?_) step slot entry gain
  rw [hscore]
  exact gain_nonneg hshared (List.forall_mem_map.2 hmass) (List.forall_mem_map.2 hfilled)

theorem sparesLosses {examples : List (Handle (Example ℝ))}
    (hmass : ∀ e ∈ examples, 0 ≤ e.item.mass) (hfilled : ∀ e ∈ examples, e.item.box.Filled) :
    scorer.SparesLosses examples :=
  fun _ hrated hmembers => attempt_ne_loss (fun e he => hmass e (hmembers he))
    (fun e he => hfilled e (hmembers he)) hrated.score_eq

/-- In exact arithmetic no split by entropy has a negative gain, sides with the same shares gain
nothing, and no training reports a loss. -/
theorem mixes_and_spares_losses :
    (∀ left right : List (Example ℝ), (∀ e ∈ left ++ right, 0 ≤ e.mass) →
      (∀ e ∈ left ++ right, e.box.Filled) → Mixes left right) ∧
    (∀ l : Leaf ℝ, (∀ e ∈ l.members, 0 ≤ e.item.mass) → (∀ e ∈ l.members, e.item.box.Filled) →
      l.score = scorer.score (l.members.map Handle.item) →
      ∀ step slot entry gain, l.attempt scorer step slot entry ≠ .loss gain) ∧
    ∀ (t : Trainer ℝ) (source : DrawSource γ) (draws : γ) (examples : ExampleList ℝ),
      t.scorer = scorer → (∀ e ∈ examples.members, 0 ≤ e.item.mass) →
      (∀ e ∈ examples.members, e.item.box.Filled) →
      (∀ s, Stage.Reaches t.scorer source t.plan.maxLeaves
          (.between t.plan.steps (Growth.start t.scorer draws examples.members)) s →
        s.growth.losses = []) ∧
      (t.grow source draws examples).losses = [] := by
  refine ⟨fun left right hmass hfilled => mixes hmass hfilled,
    fun l hmass hfilled hscore => attempt_ne_loss hmass hfilled hscore, ?_⟩
  intro t source draws examples hscorer hmass hfilled
  have hfaithful : t.scorer.Faithful := hscorer ▸ ScorerKind.id3.faithful
  have hspares : t.scorer.SparesLosses examples.members := hscorer ▸ sparesLosses hmass hfilled
  have hreached : ∀ s, Stage.Reaches t.scorer source t.plan.maxLeaves
      (.between t.plan.steps (Growth.start t.scorer draws examples.members)) s →
      s.growth.losses = [] :=
    fun s hreaches => Stage.losses_of_reaches hfaithful hspares hreaches
  exact ⟨hreached, hreached _ (Stage.reaches_runSteps t.plan.steps _)⟩

end Id3

/-! ### Two kinds in equal shares -/

namespace Sample

/-- Things of two kinds, one of which occurs once more without mass. -/
noncomputable def pairedThings : List (Example ℝ) :=
  [⟨⟨colors, [some 0]⟩, Box.single 0, 1⟩, ⟨⟨colors, [some 0]⟩, Box.single 1, 1⟩,
   ⟨⟨colors, [some 0]⟩, Box.single 0, 0⟩]

/-- Things of the same kinds in the same shares, with more mass and in another order. -/
noncomputable def doubledThings : List (Example ℝ) :=
  [⟨⟨colors, [some 1]⟩, Box.single 1, 1⟩, ⟨⟨colors, [some 1]⟩, Box.single 0, 1⟩,
   ⟨⟨colors, [some 2]⟩, Box.single 0, 1⟩, ⟨⟨colors, [some 2]⟩, Box.single 1, 1⟩]

theorem totalMass_pairedThings : Example.totalMass pairedThings = 2 := by
  rw [ExactArithmetic.totalMass_eq]
  norm_num [pairedThings]

theorem totalMass_doubledThings : Example.totalMass doubledThings = 4 := by
  rw [ExactArithmetic.totalMass_eq]
  norm_num [doubledThings]

theorem share_pairedThings :
    ∀ e ∈ pairedThings ++ doubledThings,
      Id3.share e.box pairedThings = Id3.share e.box doubledThings := by
  have hkinds : ∀ e ∈ pairedThings ++ doubledThings,
      e.box = Box.single 0 ∨ e.box = Box.single 1 := by
    simp [pairedThings, doubledThings]
  intro e he
  rw [Id3.share, Id3.share, totalMass_pairedThings, totalMass_doubledThings]
  rcases hkinds e he with hbox | hbox
  · norm_num [hbox, Id3.massAt, pairedThings, doubledThings, Box.same_single]
  · norm_num [hbox, Id3.massAt, pairedThings, doubledThings, Box.same_single]

end Sample

namespace Id3

open Sample

/-- Sides with the same shares gain nothing, and the training that splits off the red things and
then the green ones reports no loss. -/
theorem mixes_paired_and_doubled : Mixes pairedThings doubledThings ∧
    (scorer.split pairedThings doubledThings
      (scorer.score (pairedThings ++ doubledThings))).gain = 0 ∧
    (∀ step slot entry gain, (Growth.rootLeaf scorer colored.members).attempt scorer step slot
      entry ≠ .loss gain) ∧
    (colorTrainer.grow firstPlaces () colored).commits.length = 2 ∧
    (colorTrainer.grow firstPlaces () colored).losses = [] := by
  obtain ⟨hmixes, hattempt, hrun⟩ := mixes_and_spares_losses (γ := Unit)
  have hmass : ∀ e ∈ pairedThings ++ doubledThings, 0 ≤ e.mass := by
    simp [pairedThings, doubledThings]
  have hfilled : ∀ e ∈ pairedThings ++ doubledThings, e.box.Filled := by
    simp [pairedThings, doubledThings, Box.filled_single]
  have hmasses : ∀ e ∈ colored.members, 0 ≤ e.item.mass := by
    simp [colored, Handle.ofList]
  have hboxes : ∀ e ∈ colored.members, e.item.box.Filled := by
    simp [colored, Handle.ofList, Box.filled_single]
  have hpair := hmixes pairedThings doubledThings hmass hfilled
  refine ⟨hpair, ?_, hattempt _ hmasses hboxes rfl, ?_,
    (hrun colorTrainer firstPlaces () colored rfl hmasses hboxes).2⟩
  · refine (hpair.gain_eq_zero_iff ?_ ?_).2 share_pairedThings
    · rw [totalMass_pairedThings]
      exact two_pos
    · rw [totalMass_doubledThings]
      exact four_pos
  · rw [commits_colored]
    rfl

end Id3

end QuestionTree
