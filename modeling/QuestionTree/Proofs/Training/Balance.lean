import QuestionTree.Proofs.Growth.Balance
import QuestionTree.Proofs.Growth.BestFirst
import QuestionTree.Proofs.Training.Partition

/-!
# Totals and leaves of a training

The total of the gains is kept while the tree grows, the scores are noted down in its leaves. With
squared deviations the two agree in arithmetic that does not round: at every moment of a run the
scores of the unsplit leaves add up to the initial score less the gains so far, every commit lessens
them by its own gain, and at the end the final score of the totals is the sum of the scores in the
leaves of the tree.
-/

namespace QuestionTree

variable {ν γ : Type}

theorem GrownTree.map_info_leaves {pool : QuestionPool} {t : GrownTree ν} {n : Node (NodeInfo ν)}
    (h : t.Shows pool n) : n.leaves.map Node.info = t.leaves.map infoOf := by
  induction t generalizing n with
  | leaf l =>
    cases n with
    | internal id info yes no => cases h
    | leaf id info =>
      rw [Node.leaves_leaf]
      exact congrArg (fun info => [info]) h
  | split c yes no ihYes ihNo =>
    cases n with
    | leaf id info => cases h
    | internal id info yesNode noNode =>
      obtain ⟨_, _, hyes, hno⟩ := h
      rw [Node.leaves_internal, leaves, List.map_append, List.map_append, ihYes hyes, ihNo hno]

theorem Trainer.Made.exists_rated [Arithmetic ν] {t : Trainer ν} {examples : ExampleList ν}
    {o : Outcome ν} {g : Growth ν γ} {root v : Node (NodeInfo ν)} (h : t.Made examples g root o)
    (hfaithful : t.scorer.Faithful) (hv : v ∈ root.leaves) :
    ∃ members ⊆ examples.members,
      v.info.size = Example.totalMass (members.map Handle.item) ∧
      v.info.score = t.scorer.score (members.map Handle.item) := by
  have hroot : g.root.Rated t.scorer := by
    rw [h.sound.root_eq]
    exact ⟨rfl, rfl⟩
  have hmembers : g.root.members = examples.members := by
    rw [h.sound.root_eq]
    rfl
  obtain ⟨place, hplace⟩ := (Node.mem_leaves_iff.1 hv).2
  obtain ⟨l, hinfo, ⟨hmass, hscore⟩, hfilter⟩ := GrownTree.exists_leaf_at h.shows
    h.sound.ledger.tree_rooted hroot
    (fun c hc => h.sound.handsOn hfaithful (h.sound.ledger.tree_splits.mem_iff.1 hc)) hplace
  rw [hmembers] at hfilter
  rw [hinfo]
  exact ⟨l.members, hfilter ▸ List.filter_sublist.subset, hmass, hscore⟩

variable [ExactArithmetic ν]

theorem Variance.sumOfSquares_nonneg (examples : List (Example ν)) : 0 ≤ sumOfSquares examples := by
  rw [sumOfSquares]
  dsimp only
  split
  · exact le_refl 0
  · exact ExactArithmetic.clampAtZero_nonneg _

namespace Trainer

variable {t : Trainer ν} {examples : ExampleList ν} {o : Outcome ν} {g : Growth ν γ}
  {root : Node (NodeInfo ν)}

/-- The leaves of the tree and the weighted gains of the run make up what all examples are worth. -/
theorem Made.sum_worth {kind : ScorerKind} (h : t.Made examples g root o)
    (hscorer : t.scorer = kind.scorer) :
    (root.leaves.map fun v => v.info.worth kind).sum +
        (g.commits.map (Commit.weightedGain kind)).sum =
      kind.weight o.summary.mass * o.summary.initialScore := by
  have hsound := h.sound
  rw [hscorer] at hsound
  have hleaves : root.leaves.map (fun v => v.info.worth kind) =
      g.tree.leaves.map (Leaf.worth kind) := by
    have hinfo := congrArg (List.map (NodeInfo.worth kind)) (GrownTree.map_info_leaves h.shows)
    rw [List.map_map, List.map_map] at hinfo
    exact hinfo
  have hroot : kind.weight o.summary.mass * o.summary.initialScore = g.root.worth kind := by
    rw [h.summary_eq]
    rfl
  have hgains := (hsound.ledger.tree_splits.map (Commit.loss (Leaf.worth kind))).sum_eq
  rw [hleaves, hroot, ← hsound.map_loss_worth, ← hgains]
  exact GrownTree.sum_leaves (Leaf.worth_of_bare_eq kind) hsound.ledger.tree_rooted

end Trainer

/-! ### Squared deviations -/

theorem Leaf.worth_variance (l : Leaf ν) : l.worth .variance = l.score := one_mul _

theorem Commit.weightedGain_variance (c : Commit ν) :
    c.weightedGain .variance = c.candidate.gain := one_mul _

namespace Stage

/-- Whether the scores of the unsplit leaves are what the gains have left of the first score, and
every commit lessens them by its gain, which is more than the step under way asks for. -/
structure Telescopes (scorer : Scorer ν) (source : DrawSource γ) (maxLeaves : Nat)
    (s : Stage ν γ) : Prop where
  remaining : (s.unsplit.map Leaf.score).sum = s.growth.root.score - s.growth.totalGain
  next : ∀ s', s.next? scorer source maxLeaves = some s' →
    (s'.growth.commits = s.growth.commits ∧
      (s'.unsplit.map Leaf.score).sum = (s.unsplit.map Leaf.score).sum) ∨
    ∃ step c, s.step? = some step ∧ s'.growth.commits = s.growth.commits ++ [c] ∧
      (s'.unsplit.map Leaf.score).sum = (s.unsplit.map Leaf.score).sum - c.candidate.gain ∧
      step.minGain < c.candidate.gain

variable {source : DrawSource γ} {maxLeaves : Nat} {examples : List (Handle (Example ν))}
  {steps : List (Step ν)} {s : Stage ν γ}

theorem worth_variance (s : Stage ν γ) : s.worth .variance = (s.unsplit.map Leaf.score).sum :=
  congrArg List.sum (List.map_congr_left fun l _ => l.worth_variance)

theorem telescopes_of_sound (h : s.Sound ScorerKind.variance.scorer examples steps) :
    s.Telescopes Variance.scorer source maxLeaves := by
  have hgains : ∀ commits : List (Commit ν), commits.map (Commit.weightedGain .variance) =
      commits.map fun c => c.candidate.gain :=
    fun commits => List.map_congr_left fun c _ => c.weightedGain_variance
  refine ⟨?_, fun s' hnext => ?_⟩
  · have hworth := worth_eq h
    rw [worth_variance, Leaf.worth_variance, hgains, ← Growth.totalGain_eq] at hworth
    exact hworth
  · have hsingle : Reaches ScorerKind.variance.scorer source maxLeaves s s' :=
      Reaches.of_next hnext Relation.ReflTransGen.refl
    obtain ⟨commits, hcommits, hworth⟩ := exists_commits_of_reaches h hsingle
    rw [worth_variance, worth_variance, hgains] at hworth
    rcases commits_next hnext with heq | ⟨step, before, todo, g, c, queue, rfl, hqueue, heq⟩
    · have hnone : commits = [] := List.self_eq_append_right.1 (heq.symm.trans hcommits)
      rw [hnone, List.map_nil, List.sum_nil, sub_zero] at hworth
      exact .inl ⟨heq, hworth⟩
    · have hone : commits = [Growth.commitOf g.commits.length c] :=
        List.append_cancel_left (hcommits.symm.trans heq)
      obtain ⟨step', hstep', hadmitted⟩ := h.growing.queued c
        (Queue.items_of_next? hqueue ▸ Multiset.mem_cons_self c _)
      cases hstep'
      rw [hone, List.map_singleton, List.sum_singleton] at hworth
      exact .inr ⟨step, _, rfl, heq, hworth, hadmitted.gains.1⟩

end Stage

namespace Trainer

/-- With squared deviations the gains telescope at every moment of a run, and the final score is the
sum of the scores in the leaves. -/
theorem telescopes_of_train (t : Trainer ν) (hscorer : t.scorer = Variance.scorer)
    (source : DrawSource γ) (draws : γ) (examples : ExampleList ν) :
    (∀ s, Stage.Reaches t.scorer source t.plan.maxLeaves
        (.between t.plan.steps (Growth.start t.scorer draws examples.members)) s →
      s.Telescopes t.scorer source t.plan.maxLeaves) ∧
    ∀ o, t.train source draws examples = .ok o → ∃ root, o.tree.root? = some root ∧
      o.summary.finalScore = (root.leaves.map fun v => v.info.score).sum ∧
      0 ≤ o.summary.finalScore := by
  refine ⟨fun s hreaches => ?_, fun o ho => ?_⟩
  · rw [hscorer] at hreaches ⊢
    exact Stage.telescopes_of_sound (Stage.sound_of_reaches hreaches)
  · obtain ⟨root, hmade⟩ := exists_made_of_train ho
    have hkind : t.scorer = ScorerKind.variance.scorer := hscorer
    have hworth := hmade.sum_worth hkind
    have htotal : o.summary.totalGain =
        ((t.grow source draws examples).commits.map (Commit.weightedGain .variance)).sum := by
      rw [hmade.summary_eq]
      refine (Growth.totalGain_eq _).trans (congrArg List.sum ?_)
      exact List.map_congr_left fun c _ => c.weightedGain_variance.symm
    have hleaf : ∀ v : Node (NodeInfo ν), v.info.worth .variance = v.info.score :=
      fun _ => one_mul _
    have hinitial : ScorerKind.variance.weight o.summary.mass * o.summary.initialScore =
        o.summary.initialScore := one_mul _
    rw [List.map_congr_left fun v _ => hleaf v, hinitial, ← htotal] at hworth
    have hfinal : o.summary.finalScore = (root.leaves.map fun v => v.info.score).sum :=
      (eq_sub_of_add_eq hworth).symm
    refine ⟨root, hmade.root?_eq, hfinal, ?_⟩
    rw [hfinal]
    refine List.sum_nonneg fun score hmem => ?_
    obtain ⟨v, hv, rfl⟩ := List.mem_map.1 hmem
    obtain ⟨members, _, _, hscore⟩ :=
      hmade.exists_rated (hscorer ▸ ScorerKind.variance.faithful) hv
    rw [hscore, hscorer]
    exact Variance.sumOfSquares_nonneg _

end Trainer

/-! ### Two things with fractions -/

section Fractions

/-- Fractions, with the whole part of the logarithm. -/
local instance fractions : ExactArithmetic ℚ where
  log2 a := Int.log 2 a

namespace Sample

/-- The red thing and the blue thing with exact values. -/
def exactList : ExampleList ℚ :=
  ⟨schema, Handle.ofList 0
    [⟨⟨schema, [some 0]⟩, Box.single 0, 1⟩, ⟨⟨schema, [some 1]⟩, Box.single 1, 3⟩]⟩

/-- Splits the things by their color in exact arithmetic. -/
def exactTrainer : Trainer ℚ :=
  ⟨⟨schema, 2, [⟨"colors", .split, 1, 0, 1, step.pool⟩]⟩, Variance.scorer, 0⟩

end Sample

namespace Trainer

open Sample

/-- The split of the red thing from the blue thing takes away all of the initial score. -/
theorem telescopes_red_from_blue : ∃ o root, exactTrainer.train firstPlaces () exactList = .ok o ∧
    o.summary.splitCount = 1 ∧ o.summary.initialScore = 3 / 4 ∧ o.tree.root? = some root ∧
    o.summary.finalScore = (root.leaves.map fun v => v.info.score).sum ∧
    0 ≤ o.summary.finalScore := by
  have hvalues : (exactTrainer.train firstPlaces () exactList).toOption.map
      (fun o => (o.summary.splitCount, o.summary.initialScore)) = some (1, 3 / 4) := by
    decide +kernel
  cases h : exactTrainer.train firstPlaces () exactList with
  | error e =>
    rw [h] at hvalues
    cases hvalues
  | ok o =>
    rw [h] at hvalues
    obtain ⟨hsplits, hinitial⟩ := Prod.mk.inj (Option.some.inj hvalues)
    obtain ⟨root, hroot, hfinal, hnonneg⟩ :=
      (telescopes_of_train exactTrainer rfl firstPlaces () exactList).2 o h
    exact ⟨o, root, rfl, hsplits, hinitial, hroot, hfinal, hnonneg⟩

end Trainer

end Fractions

end QuestionTree
