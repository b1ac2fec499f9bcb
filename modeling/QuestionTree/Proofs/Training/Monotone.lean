import QuestionTree.Proofs.Growth.Balance
import QuestionTree.Proofs.Growth.Saturation
import QuestionTree.Proofs.Growth.Single
import QuestionTree.Proofs.Scorer.Entropy

/-!
# Steps never make the leaves worth more

A step that splits never raises the sum of what the leaves are worth: with squared deviations the
sum of their scores, by entropy the sum of their scores counted with their masses. The plain sum of
entropies may well rise. Two halves of four things, of which each mixes two kinds, have an entropy
of one bit each, while that of the whole is one bit and a half.
-/

namespace QuestionTree

variable {ν γ : Type}

namespace Stage

theorem unsplit_between [Arithmetic ν] {scorer : Scorer ν} {examples : List (Handle (Example ν))}
    {steps todo : List (Step ν)} {g : Growth ν γ}
    (h : (between todo g).Sound scorer examples steps) : (between todo g).unsplit = g.opened := by
  have hempty : g.queue = .empty := queue_eq_empty_of_sound h rfl
  rw [unsplit, growth, hempty]
  exact (List.append_nil _).trans (List.append_nil _)

/-- The leaves that a step which splits leaves behind are worth no more than those it found. -/
theorem worth_le_of_step [ExactArithmetic ν] {kind : ScorerKind} {source : DrawSource γ}
    {maxLeaves : Nat} {examples : List (Handle (Example ν))} {steps todo : List (Step ν)}
    {step : Step ν} {draws : γ} {g : Growth ν γ}
    (h : Reaches kind.scorer source maxLeaves
      (between steps (Growth.start kind.scorer draws examples)) (between (step :: todo) g))
    (hbudget : ¬ maxLeaves ≤ g.opened.length) (haction : step.action = .split) :
    let after := (g.note (.stepEntered step)).runSplit kind.scorer source maxLeaves step
    Reaches kind.scorer source maxLeaves (between (step :: todo) g) (between todo after) ∧
      (after.opened.map (Leaf.worth kind)).sum ≤ (g.opened.map (Leaf.worth kind)).sum := by
  have hsplit : Reaches kind.scorer source maxLeaves (between (step :: todo) g) (between todo
      ((g.note (.stepEntered step)).runSplit kind.scorer source maxLeaves step)) :=
    reaches_runSplit todo hbudget haction
  have hsound := sound_of_reaches h
  have hafter := sound_of_reaches (h.trans hsplit)
  have hworth := worth_le_of_reaches hsound hsplit
  rw [worth, worth, unsplit_between hsound, unsplit_between hafter] at hworth
  exact ⟨hsplit, hworth⟩

end Stage

/-! ### Halves that are mixed -/

namespace Sample

def letters : Schema := ⟨[⟨"letter", ⟨["a", "b", "c", "d"]⟩⟩]⟩

/-- Four things of three kinds, the two in the middle of the same kind. -/
noncomputable def lettered : List (Handle (Example ℝ)) :=
  Handle.ofList 0
    [⟨⟨letters, [some 0]⟩, Box.single 0, 1⟩, ⟨⟨letters, [some 1]⟩, Box.single 1, 1⟩,
     ⟨⟨letters, [some 2]⟩, Box.single 1, 1⟩, ⟨⟨letters, [some 3]⟩, Box.single (-1), 1⟩]

/-- Asks whether a thing is one of the first two. -/
noncomputable def halves : Step ℝ :=
  ⟨"letters", .split, 1, 0, 1, QuestionPool.ofQuestions 0 [⟨0, .set [0, 1], ""⟩]⟩

end Sample

open Sample

/-- The step that splits the four things into halves. -/
theorem Stage.worth_le_halves :
    let before := Growth.start Id3.scorer () lettered
    let after := (before.note (.stepEntered halves)).runSplit Id3.scorer firstPlaces 4 halves
    Reaches Id3.scorer firstPlaces 4 (between [halves] before) (between [] after) ∧
      (after.opened.map (Leaf.worth .id3)).sum ≤ (before.opened.map (Leaf.worth .id3)).sum := by
  intro before after
  have hreaches : Reaches ScorerKind.id3.scorer firstPlaces 4
      (between [halves] (Growth.start ScorerKind.id3.scorer () lettered))
      (between [halves] before) := Relation.ReflTransGen.refl
  have hworth := worth_le_of_step hreaches (by decide) rfl
  exact hworth

namespace Sample

theorem entropy_lettered : Id3.entropy (lettered.map Handle.item) = 3 / 2 := by
  have hsum : ((lettered.map Handle.item).map Example.mass).sum = 4 := by
    have hmasses : (lettered.map Handle.item).map Example.mass = [1, 1, 1, 1] := rfl
    rw [hmasses]
    norm_num
  have hcounts : Id3.counts (lettered.map Handle.item) =
      [(Box.single 0, 1), (Box.single 1, 2), (Box.single (-1), 1)] := by
    simp [Id3.counts, Id3.count, lettered, Handle.ofList, Box.same_single]
    norm_num
  rw [Id3.entropy_eq (by rw [hsum]; norm_num), hsum, hcounts]
  simp only [List.map_cons, List.map_nil, List.sum_cons, List.sum_nil]
  rw [Id3.entropyTerm_of_halved 2 one_pos (by norm_num),
    Id3.entropyTerm_of_halved 1 two_pos (by norm_num)]
  norm_num

theorem totalMass_pair {d e : Example ℝ} (hd : d.mass = 1) (he : e.mass = 1) :
    Example.totalMass [d, e] = 2 := by
  rw [ExactArithmetic.totalMass_eq, List.map_cons, List.map_singleton, List.sum_pair, hd, he]
  exact one_add_one_eq_two

theorem totalMass_take : Example.totalMass ((lettered.take 2).map Handle.item) = 2 :=
  totalMass_pair rfl rfl

theorem totalMass_drop : Example.totalMass ((lettered.drop 2).map Handle.item) = 2 :=
  totalMass_pair rfl rfl

theorem entropy_take : Id3.entropy ((lettered.take 2).map Handle.item) = 1 := by
  refine Id3.entropy_pair ?_ rfl one_pos
  rw [Box.same_single]
  norm_num

theorem entropy_drop : Id3.entropy ((lettered.drop 2).map Handle.item) = 1 := by
  refine Id3.entropy_pair ?_ rfl one_pos
  rw [Box.same_single]
  norm_num

/-- The split of the four things into halves. -/
noncomputable def halved : Candidate ℝ :=
  .ofSlot Id3.scorer
    { Growth.rootLeaf Id3.scorer lettered with entries := [⟨0, ⟨0, ⟨0, .set [0, 1], ""⟩⟩⟩] } 0
    ⟨0, ⟨0, ⟨0, .set [0, 1], ""⟩⟩⟩

theorem split_halved : Id3.scorer.split (halved.yes.members.map Handle.item)
    (halved.no.members.map Handle.item) halved.leaf.score = ⟨1 / 2, 1, 1⟩ := by
  have hscore : halved.leaf.score = 3 / 2 := entropy_lettered
  rw [hscore]
  refine (Id3.split_eq _ totalMass_take totalMass_drop two_pos two_pos).trans ?_
  rw [entropy_take, entropy_drop]
  norm_num

theorem admitted_halved : halved.Admitted Id3.scorer halves := by
  have hyes : halved.yes.mass = 2 := totalMass_take
  have hno : halved.no.mass = 2 := totalMass_drop
  have hhalf : halved.gain = 1 / 2 := congrArg SplitScore.gain split_halved
  have hgain : 0 < halved.gain := hhalf ▸ half_pos one_pos
  exact Candidate.admitted_ofSlot rfl rfl one_pos (hyes ▸ one_le_two) (hno ▸ one_le_two) hgain hgain

end Sample

/-- The plain sum of entropies rises from a bit and a half to two bits. -/
theorem Stage.sum_score_halves :
    let before := Growth.start Id3.scorer () lettered
    let after := (before.note (.stepEntered halves)).runSplit Id3.scorer firstPlaces 4 halves
    Reaches Id3.scorer firstPlaces 4 (between [halves] before) (between [] after) ∧
      (before.opened.map Leaf.score).sum = 3 / 2 ∧ (after.opened.map Leaf.score).sum = 2 := by
  intro before after
  have hbudget : ¬ 4 ≤ before.opened.length := by decide
  refine ⟨reaches_runSplit [] hbudget rfl, ?_, ?_⟩
  · exact List.sum_singleton.trans entropy_lettered
  · let entered := before.note (.stepEntered halves)
    have hall : ¬ 1 < halves.drawSize := by decide
    have hempty : entered.queue = .empty := rfl
    have hopened : entered.opened = [] ++ Growth.rootLeaf Id3.scorer lettered :: [] := rfl
    have hroom : entered.opened.length < 4 := by decide
    obtain ⟨_, _, hleaves, _⟩ := Growth.runSplit_of_single hall firstPlaces rfl hempty hopened hroom
      admitted_halved rfl rfl fun _ hk => absurd hk List.not_mem_nil
    have hyes : halved.yes.score = 1 := congrArg SplitScore.left split_halved
    have hno : halved.no.score = 1 := congrArg SplitScore.right split_halved
    have hscores : after.opened.map Leaf.score = [halved.yes.score, halved.no.score] := by
      rw [hleaves]
      rfl
    rw [hscores, hyes, hno]
    norm_num

end QuestionTree
