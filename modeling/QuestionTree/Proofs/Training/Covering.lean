import QuestionTree.Proofs.Growth.Covering
import QuestionTree.Proofs.Training.Paths

/-!
# Training with draws that take everything

A plan whose steps try a single draw of one question or at least as many questions as they have is
trained as if nothing was drawn. Whether training succeeds, and what it makes, is then the same for
every seed, and the same as for the plan that tries all questions of every step.
-/

namespace QuestionTree

variable {ν γ δ : Type}

/-- The plan that tries all questions of every step. -/
def TrainingPlan.asksAll (p : TrainingPlan ν) : TrainingPlan ν :=
  { p with steps := p.steps.map Step.asksAll }

/-- Whether the steps that split draw nothing or all of their questions. -/
def TrainingPlan.DrawsAll (p : TrainingPlan ν) : Prop :=
  ∀ step ∈ p.steps, step.action = .split → step.drawSize = 1 ∨ step.pool.size ≤ step.drawSize

namespace Trainer

/-- The trainer with another seed. -/
def withSeed (t : Trainer ν) (seed : Nat) : Trainer ν := { t with seed := seed }

/-- The trainer that tries all questions of every step. -/
def asksAll (t : Trainer ν) : Trainer ν := { t with plan := t.plan.asksAll }

variable [Arithmetic ν] {t : Trainer ν} {source : DrawSource γ} {examples : ExampleList ν}

theorem finish_of_alike {g : Growth ν γ} {g' : Growth ν δ} (h : g.Alike g') (t : Trainer ν)
    (examples : ExampleList ν) : t.finish g examples = t.finish g' examples := by
  obtain ⟨root, draws, opened, queue, offered, commits, events⟩ := g
  obtain ⟨root', draws', opened', queue', offered', commits', events'⟩ := g'
  obtain ⟨rfl, rfl, rfl, rfl, rfl⟩ := h
  rfl

theorem alike_grow (hcovers : source.Covers) (hplan : t.plan.DrawsAll) (draws : γ)
    (examples : ExampleList ν) (source' : DrawSource δ) (draws' : δ) :
    (t.grow source draws examples).Alike (t.asksAll.grow source' draws' examples) := by
  have hstart : (Growth.start t.scorer draws examples.members).Alike
      (Growth.start t.scorer draws' examples.members) := ⟨rfl, rfl, rfl, rfl, rfl⟩
  refine hstart.runSteps hcovers t.plan.maxLeaves (fun step hstep haction => ?_) rfl
  exact (hplan step hstep haction).imp_left Nat.le_of_eq

/-- Training with draws that take everything is training without draws, whatever the seed is. -/
theorem train_of_drawsAll (hcovers : source.Covers) (hplan : t.plan.DrawsAll) (draws : γ)
    (examples : ExampleList ν) :
    (∀ seed draws', (t.withSeed seed).train source draws' examples =
      t.train source draws examples) ∧
    ∀ {δ : Type} (source' : DrawSource δ) (draws' : δ),
      t.train source draws examples = t.asksAll.train source' draws' examples := by
  have hplain : ∀ (draws : γ) {δ : Type} (source' : DrawSource δ) (draws' : δ),
      t.train source draws examples = t.asksAll.train source' draws' examples := by
    intro draws δ source' draws'
    have hgrow := alike_grow hcovers hplan draws examples source' draws'
    rw [train, train, finish_of_alike hgrow]
    rfl
  refine ⟨fun seed draws' => ?_, hplain draws⟩
  calc (t.withSeed seed).train source draws' examples
      = t.train source draws' examples := rfl
    _ = t.asksAll.train source draws examples := hplain draws' source draws
    _ = t.train source draws examples := (hplain draws source draws).symm

end Trainer

/-! ### Draws of two questions of two -/

namespace Sample

/-- Draws two questions for each thing of three colors, of which there are two. -/
def drawingTrainer : Trainer Float :=
  ⟨⟨shades, 4, [⟨"drawn", .split, 1, 0, 2, ⟨[askBlue, askRed]⟩⟩, .ofPool "red" ⟨[askRed]⟩]⟩,
    ScorerKind.variance.scorer, 5⟩

theorem drawsAll_drawingTrainer : drawingTrainer.plan.DrawsAll := by
  intro step hstep _
  rcases List.mem_cons.1 hstep with rfl | hstep
  · exact .inr (Nat.le_refl 2)
  · rw [List.mem_singleton.1 hstep]
    exact .inl rfl

end Sample

namespace Trainer

open Sample in
/-- Seeded training with draws of two questions of two, with the seeds five and nine. -/
theorem train_drawing_of_seeds : Generator.source.Covers ∧ drawingTrainer.plan.DrawsAll ∧
    (drawingTrainer.withSeed 9).train Generator.source (.ofSeed 9) shadedList =
      drawingTrainer.train Generator.source (.ofSeed 5) shadedList ∧
    drawingTrainer.train Generator.source (.ofSeed 5) shadedList =
      drawingTrainer.asksAll.train firstPlaces () shadedList := by
  obtain ⟨hseed, hplain⟩ := train_of_drawsAll Generator.covers_source drawsAll_drawingTrainer
    (.ofSeed 5) shadedList
  exact ⟨Generator.covers_source, drawsAll_drawingTrainer, hseed 9 (.ofSeed 9),
    hplain firstPlaces ()⟩

end Trainer

end QuestionTree
