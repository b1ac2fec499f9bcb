import QuestionTree.Proofs.Training.Balance
import QuestionTree.Proofs.Training.Monotone

/-!
# The final score and the mean entropy

A training by entropy adds up gains that are each measured at the leaf that was split, whatever its
share of the mass is. The mean of the entropies in the leaves of the tree, each weighted by the
share of its mass, is the initial score less the gains weighted by the shares of the leaves that
were split. It is never negative, and the final score of the totals is at most this mean: they are
the same as long as only the first leaf was split, while every further split counts for more in the
totals than it lessens the mean, so that the final score may fall below zero.
-/

namespace QuestionTree

variable {ν γ : Type} [ExactArithmetic ν]

/-! ### The masses of the leaves that were split -/

namespace GrownTree

theorem mass_of_splits {t : GrownTree ν} {m : Leaf ν} (hrooted : t.Rooted m)
    (hsplits : ∀ c ∈ t.splits,
      c.yes.mass + c.no.mass = c.candidate.leaf.mass ∧ 0 < c.yes.mass ∧ 0 < c.no.mass)
    {first : Commit ν} {rest : List (Commit ν)} (heq : t.splits = first :: rest) :
    first.candidate.leaf.mass = m.mass ∧ ∀ d ∈ rest, d.candidate.leaf.mass < m.mass := by
  induction t generalizing m first rest with
  | leaf l => cases heq
  | split c yes no ihYes ihNo =>
    cases heq
    obtain ⟨hleaf, hyes, hno⟩ := hrooted
    obtain ⟨⟨hwhole, hyesPos, hnoPos⟩, hbelow⟩ := List.forall_mem_cons.1 hsplits
    obtain ⟨hyesBelow, hnoBelow⟩ := List.forall_mem_append.1 hbelow
    rw [← Leaf.mass_of_bare_eq hleaf, ← hwhole]
    refine ⟨rfl, List.forall_mem_append.2 ⟨fun d hd => ?_, fun d hd => ?_⟩⟩
    · obtain ⟨first, rest, hfirst⟩ := List.exists_cons_of_ne_nil (List.ne_nil_of_mem hd)
      obtain ⟨hsame, hless⟩ := ihYes hyes hyesBelow hfirst
      rw [hfirst] at hd
      rcases List.mem_cons.1 hd with rfl | hd
      · rw [hsame]
        exact lt_add_of_pos_right _ hnoPos
      · exact (hless d hd).trans (lt_add_of_pos_right _ hnoPos)
    · obtain ⟨first, rest, hfirst⟩ := List.exists_cons_of_ne_nil (List.ne_nil_of_mem hd)
      obtain ⟨hsame, hless⟩ := ihNo hno hnoBelow hfirst
      rw [hfirst] at hd
      rcases List.mem_cons.1 hd with rfl | hd
      · rw [hsame]
        exact lt_add_of_pos_left _ hyesPos
      · exact (hless d hd).trans (lt_add_of_pos_left _ hyesPos)

end GrownTree

/-- What a commit counts for in the totals beyond what it takes away from the mean. -/
def Commit.excess (total : ν) (c : Commit ν) : ν :=
  c.candidate.gain - c.candidate.leaf.mass / total * c.candidate.gain

/-- The totals count for as much as the mean only as long as there is at most one commit. -/
theorem Growth.Sound.sum_excess {kind : ScorerKind} {examples : List (Handle (Example ν))}
    {steps : List (Step ν)} {current : Option (Step ν)} {waiting : List (Leaf ν)}
    {g : Growth ν γ} (h : g.Sound kind.scorer examples steps current waiting)
    (hmass : 0 < g.root.mass) :
    0 ≤ (g.commits.map (Commit.excess g.root.mass)).sum ∧
      ((g.commits.map (Commit.excess g.root.mass)).sum = 0 ↔ g.commits.length ≤ 1) := by
  have hperm : g.tree.splits.Perm g.commits := h.ledger.tree_splits
  have hmem : ∀ c ∈ g.tree.splits, c ∈ g.commits := fun c hc => hperm.mem_iff.1 hc
  rw [← (hperm.map (Commit.excess g.root.mass)).sum_eq, ← hperm.length_eq]
  cases hsplits : g.tree.splits with
  | nil => exact ⟨le_refl 0, iff_of_true rfl (Nat.zero_le 1)⟩
  | cons first rest =>
    obtain ⟨hfirst, hless⟩ := GrownTree.mass_of_splits h.ledger.tree_rooted
      (fun c hc => h.mass_split (hmem c hc)) hsplits
    have hnone : first.excess g.root.mass = 0 := by
      rw [Commit.excess, hfirst, div_self hmass.ne', one_mul, sub_self]
    have hpos : ∀ x ∈ rest.map (Commit.excess g.root.mass), 0 < x := by
      intro x hx
      obtain ⟨d, hd, rfl⟩ := List.mem_map.1 hx
      obtain ⟨step, _, hadmitted⟩ := h.committed d
        (hmem d (hsplits ▸ List.mem_cons_of_mem first hd))
      have hshare : d.candidate.leaf.mass / g.root.mass < 1 := (div_lt_one hmass).2 (hless d hd)
      exact sub_pos.2 (mul_lt_of_lt_one_left hadmitted.gains.2 hshare)
    rw [List.map_cons, List.sum_cons, hnone, zero_add, List.length_cons]
    cases rest with
    | nil => exact ⟨le_refl 0, iff_of_true rfl (Nat.le_refl 1)⟩
    | cons second rest =>
      have hsum := List.sum_pos _ hpos (List.cons_ne_nil _ _)
      refine ⟨hsum.le, iff_of_false hsum.ne' ?_⟩
      rw [List.length_cons]
      omega

/-! ### The mean of the leaves -/

/-- The mean of the scores in the leaves below a node, weighted by their shares of a mass. -/
def Node.meanScore (total : ν) (n : Node (NodeInfo ν)) : ν :=
  (n.leaves.map fun v => v.info.size / total * v.info.score).sum

namespace Trainer

variable {t : Trainer ν} {source : DrawSource γ} {draws : γ} {examples : ExampleList ν}
  {o : Outcome ν} {g : Growth ν γ} {root : Node (NodeInfo ν)}

namespace Made

variable (h : t.Made examples g root o) (hscorer : t.scorer = Id3.scorer)

include h in
theorem finalScore_eq : o.summary.finalScore =
    o.summary.initialScore - (g.commits.map fun c => c.candidate.gain).sum := by
  rw [Summary.finalScore, ← Growth.totalGain_eq, h.summary_eq]
  rfl

include h hscorer

theorem meanScore_eq (hmass : 0 < o.summary.mass) : root.meanScore o.summary.mass =
    o.summary.initialScore -
      (g.commits.map fun c => c.candidate.leaf.mass / o.summary.mass * c.candidate.gain).sum := by
  have hkind : t.scorer = ScorerKind.id3.scorer := hscorer
  have hshare : ∀ size score : ν, size / o.summary.mass * score =
      o.summary.mass⁻¹ * (size * score) := by
    intro size score
    rw [div_eq_inv_mul, mul_assoc]
  have hmean : root.meanScore o.summary.mass =
      o.summary.mass⁻¹ * (root.leaves.map fun v => v.info.worth .id3).sum := by
    rw [Node.meanScore, ← List.sum_map_mul_left]
    exact congrArg List.sum (List.map_congr_left fun v _ => hshare _ _)
  have hgains : (g.commits.map fun c =>
      c.candidate.leaf.mass / o.summary.mass * c.candidate.gain).sum =
      o.summary.mass⁻¹ * (g.commits.map (Commit.weightedGain .id3)).sum := by
    rw [← List.sum_map_mul_left]
    exact congrArg List.sum (List.map_congr_left fun c _ => hshare _ _)
  have hinitial : o.summary.initialScore =
      o.summary.mass⁻¹ * (ScorerKind.id3.weight o.summary.mass * o.summary.initialScore) :=
    (inv_mul_cancel_left₀ hmass.ne' _).symm
  rw [hmean, hgains, hinitial, ← h.sum_worth hkind, mul_add, add_sub_cancel_right]

theorem meanScore_eq_add (hmass : 0 < o.summary.mass) : root.meanScore o.summary.mass =
    o.summary.finalScore + (g.commits.map (Commit.excess o.summary.mass)).sum := by
  have hgains : (g.commits.map fun c => c.candidate.gain).sum =
      (g.commits.map (Commit.excess o.summary.mass)).sum +
        (g.commits.map fun c => c.candidate.leaf.mass / o.summary.mass * c.candidate.gain).sum := by
    rw [← List.sum_map_add]
    exact congrArg List.sum (List.map_congr_left fun c _ => (sub_add_cancel _ _).symm)
  rw [h.meanScore_eq hscorer hmass, h.finalScore_eq, hgains]
  abel

end Made

end Trainer

/-- How the final score of a training by entropy stands to the entropies in the leaves. -/
structure Outcome.Averages (examples : ExampleList ν) (commits : List (Commit ν)) (o : Outcome ν)
    (root : Node (NodeInfo ν)) : Prop where
  root_eq : o.tree.root? = some root
  mass_eq : o.summary.mass = examples.totalMass
  /-- The final score is the initial score less the gains, each measured at its own leaf. -/
  final_eq : o.summary.finalScore =
    o.summary.initialScore - (commits.map fun c => c.candidate.gain).sum
  /-- The mean is the initial score less the gains, weighted by the shares of their leaves. -/
  mean_eq : root.meanScore o.summary.mass =
    o.summary.initialScore -
      (commits.map fun c => c.candidate.leaf.mass / o.summary.mass * c.candidate.gain).sum
  mean_nonneg : 0 ≤ root.meanScore o.summary.mass
  final_le : o.summary.finalScore ≤ root.meanScore o.summary.mass
  /-- The two are the same exactly if at most one split was carried out. -/
  final_eq_iff : o.summary.finalScore = root.meanScore o.summary.mass ↔ o.summary.splitCount ≤ 1

theorem Trainer.Made.meanScore_nonneg {t : Trainer ℝ} {examples : ExampleList ℝ} {g : Growth ℝ γ}
    {root : Node (NodeInfo ℝ)} {o : Outcome ℝ} (h : t.Made examples g root o)
    (hscorer : t.scorer = Id3.scorer) (hmasses : ∀ e ∈ examples.members, 0 ≤ e.item.mass)
    (hpos : 0 < o.summary.mass) : 0 ≤ root.meanScore o.summary.mass := by
  have hkind : t.scorer = ScorerKind.id3.scorer := hscorer
  refine List.sum_nonneg fun x hx => ?_
  obtain ⟨v, hv, rfl⟩ := List.mem_map.1 hx
  obtain ⟨members, hmembers, hsize, hscore⟩ :=
    h.exists_rated (hkind ▸ ScorerKind.id3.faithful) hv
  have hnonneg : ∀ e ∈ members.map Handle.item, 0 ≤ e.mass := by
    intro e he
    obtain ⟨handle, hhandle, rfl⟩ := List.mem_map.1 he
    exact hmasses handle (hmembers hhandle)
  rw [hsize, hscore, hscorer]
  exact mul_nonneg (div_nonneg (ExactArithmetic.totalMass_nonneg hnonneg) hpos.le)
    (Id3.entropy_nonneg hnonneg)

/-- The final score of a training by entropy is at most the mean of the entropies in the leaves. -/
theorem Trainer.averages_of_train {t : Trainer ℝ} {source : DrawSource γ} {draws : γ}
    {examples : ExampleList ℝ} {o : Outcome ℝ} (hscorer : t.scorer = Id3.scorer)
    (hmasses : ∀ e ∈ examples.members, 0 ≤ e.item.mass) (hmass : 0 < examples.totalMass)
    (h : t.train source draws examples = .ok o) :
    ∃ root, o.Averages examples (t.grow source draws examples).commits root := by
  obtain ⟨root, hmade⟩ := exists_made_of_train h
  have hroot : (t.grow source draws examples).root.mass = examples.totalMass := by
    rw [hmade.sound.root_eq]
    rfl
  have hsummary : o.summary.mass = (t.grow source draws examples).root.mass := by
    rw [hmade.summary_eq]
    rfl
  have hpos : 0 < o.summary.mass := by rw [hsummary, hroot]; exact hmass
  have hsound := hmade.sound
  have hkind : t.scorer = ScorerKind.id3.scorer := hscorer
  rw [hkind] at hsound
  obtain ⟨hexcess, hzero⟩ := hsound.sum_excess (hsummary ▸ hpos)
  have hadd := hmade.meanScore_eq_add hscorer hpos
  rw [← hsummary] at hexcess hzero
  have hsplits : o.summary.splitCount = (t.grow source draws examples).commits.length := by
    rw [hmade.summary_eq]
    rfl
  refine ⟨root, hmade.root?_eq, hsummary.trans hroot, hmade.finalScore_eq,
    hmade.meanScore_eq hscorer hpos, ?_, ?_, ?_⟩
  · exact hmade.meanScore_nonneg hscorer hmasses hpos
  · rw [hadd]
    exact le_add_of_nonneg_right hexcess
  · rw [hadd, left_eq_add, hsplits]
    exact hzero

/-! ### Three colors -/

namespace Sample

def colors : Schema := ⟨[⟨"color", ⟨["red", "green", "blue"]⟩⟩]⟩

/-- Things of three colors and kinds, of which the red ones have half of the mass. -/
noncomputable def colored : ExampleList ℝ :=
  ⟨colors, Handle.ofList 0
    [⟨⟨colors, [some 0]⟩, Box.single 0, 1 + 1⟩, ⟨⟨colors, [some 1]⟩, Box.single 1, 1⟩,
     ⟨⟨colors, [some 2]⟩, Box.single (-1), 1⟩]⟩

/-- Asks for one color. -/
noncomputable def askColor (value : Nat) : Step ℝ :=
  ⟨"color", .split, 1, 0, 1, QuestionPool.ofQuestions 0 [⟨0, .single value, ""⟩]⟩

/-- Asks for the red things first and then for the green ones. -/
noncomputable def colorTrainer : Trainer ℝ :=
  ⟨⟨colors, 3, [askColor 0, askColor 1]⟩, Id3.scorer, 0⟩

theorem totalMass_colored : colored.totalMass = 4 := by
  have hmasses : (colored.members.map Handle.item).map Example.mass = [1 + 1, 1, 1] := rfl
  rw [ExampleList.totalMass, ExampleList.examples, ExactArithmetic.totalMass_eq, hmasses]
  norm_num

theorem exists_train_colored : ∃ o, colorTrainer.train firstPlaces () colored = .ok o := by
  have hvalid : ∀ value < 3, ∀ q ∈ (askColor value).pool.members,
      q.item.validate colors = .ok () := by
    intro value hvalue q hq
    rw [List.mem_singleton.1 hq]
    interval_cases value <;> rfl
  refine Trainer.exists_train_of_validate rfl rfl (fun step hstep => ?_) firstPlaces ()
  rcases List.mem_cons.1 hstep with rfl | hstep
  · exact hvalid 0 (by decide)
  · rw [List.mem_singleton.1 hstep]
    exact hvalid 1 (by decide)

end Sample

open Sample

/-- The training that splits off the red things and then the green ones. -/
theorem Trainer.averages_colored : ∃ o root,
    colorTrainer.train firstPlaces () colored = .ok o ∧
      o.Averages colored (colorTrainer.grow firstPlaces () colored).commits root := by
  obtain ⟨o, ho⟩ := exists_train_colored
  have hmasses : ∀ e ∈ colored.members, 0 ≤ e.item.mass := by
    simp [colored, Handle.ofList]
  have hmass : 0 < colored.totalMass := by
    rw [totalMass_colored]
    norm_num
  obtain ⟨root, haverages⟩ := averages_of_train rfl hmasses hmass ho
  exact ⟨o, root, ho, haverages⟩

namespace Sample

theorem entropy_colored : Id3.entropy colored.examples = 3 / 2 := by
  have hsum : (colored.examples.map Example.mass).sum = 4 := by
    have hmasses : colored.examples.map Example.mass = [1 + 1, 1, 1] := rfl
    rw [hmasses]
    norm_num
  have hcounts : Id3.counts colored.examples =
      [(Box.single 0, 2), (Box.single 1, 1), (Box.single (-1), 1)] := by
    simp [Id3.counts, Id3.count, colored, ExampleList.examples, Handle.ofList, Box.same_single]
    norm_num
  rw [Id3.entropy_eq (by rw [hsum]; norm_num), hsum, hcounts]
  simp only [List.map_cons, List.map_nil, List.sum_cons, List.sum_nil]
  rw [Id3.entropyTerm_of_halved 1 two_pos (by norm_num),
    Id3.entropyTerm_of_halved 2 one_pos (by norm_num)]
  norm_num

theorem totalMass_red : Example.totalMass ((colored.members.take 1).map Handle.item) = 2 := by
  rw [ExactArithmetic.totalMass_eq]
  exact List.sum_singleton.trans one_add_one_eq_two

theorem totalMass_rest : Example.totalMass ((colored.members.drop 1).map Handle.item) = 2 :=
  totalMass_pair rfl rfl

theorem totalMass_green :
    Example.totalMass (((colored.members.drop 1).take 1).map Handle.item) = 1 := by
  rw [ExactArithmetic.totalMass_eq]
  exact List.sum_singleton

theorem totalMass_blue : Example.totalMass ((colored.members.drop 2).map Handle.item) = 1 := by
  rw [ExactArithmetic.totalMass_eq]
  exact List.sum_singleton

theorem entropy_rest : Id3.entropy ((colored.members.drop 1).map Handle.item) = 1 := by
  refine Id3.entropy_pair ?_ rfl one_pos
  rw [Box.same_single]
  norm_num

/-- The split of the red things from the others. -/
noncomputable def redSplit : Candidate ℝ :=
  .ofSlot Id3.scorer
    { Growth.rootLeaf Id3.scorer colored.members with entries := [⟨0, ⟨0, ⟨0, .single 0, ""⟩⟩⟩] } 0
    ⟨0, ⟨0, ⟨0, .single 0, ""⟩⟩⟩

/-- The split of the green things from the blue ones. -/
noncomputable def greenSplit : Candidate ℝ :=
  .ofSlot Id3.scorer
    { (Growth.commitOf 0 redSplit).no with entries := [⟨1, ⟨0, ⟨0, .single 1, ""⟩⟩⟩] } 0
    ⟨1, ⟨0, ⟨0, .single 1, ""⟩⟩⟩

theorem split_red : Id3.scorer.split (redSplit.yes.members.map Handle.item)
    (redSplit.no.members.map Handle.item) redSplit.leaf.score = ⟨1, 0, 1⟩ := by
  have hscore : redSplit.leaf.score = 3 / 2 := entropy_colored
  have hred : Id3.entropy ((colored.members.take 1).map Handle.item) = 0 :=
    Id3.entropy_singleton _
  rw [hscore]
  refine (Id3.split_eq _ totalMass_red totalMass_rest two_pos two_pos).trans ?_
  rw [hred, entropy_rest]
  norm_num

theorem split_green : Id3.scorer.split (greenSplit.yes.members.map Handle.item)
    (greenSplit.no.members.map Handle.item) greenSplit.leaf.score = ⟨1, 0, 0⟩ := by
  have hscore : greenSplit.leaf.score = 1 := congrArg SplitScore.right split_red
  have hgreen : Id3.entropy (((colored.members.drop 1).take 1).map Handle.item) = 0 :=
    Id3.entropy_singleton _
  have hblue : Id3.entropy ((colored.members.drop 2).map Handle.item) = 0 :=
    Id3.entropy_singleton _
  rw [hscore]
  refine (Id3.split_eq _ totalMass_green totalMass_blue one_pos one_pos).trans ?_
  rw [hgreen, hblue]
  norm_num

theorem gain_red : redSplit.gain = 1 := congrArg SplitScore.gain split_red

theorem gain_green : greenSplit.gain = 1 := congrArg SplitScore.gain split_green

theorem admitted_redSplit : redSplit.Admitted Id3.scorer (askColor 0) := by
  have hyes : redSplit.yes.mass = 2 := totalMass_red
  have hno : redSplit.no.mass = 2 := totalMass_rest
  have hgain : 0 < redSplit.gain := gain_red ▸ one_pos
  exact Candidate.admitted_ofSlot rfl rfl one_pos (hyes ▸ one_le_two) (hno ▸ one_le_two) hgain hgain

theorem admitted_greenSplit : greenSplit.Admitted Id3.scorer (askColor 1) := by
  have hyes : greenSplit.yes.mass = 1 := totalMass_green
  have hno : greenSplit.no.mass = 1 := totalMass_blue
  have hgain : 0 < greenSplit.gain := gain_green ▸ one_pos
  exact Candidate.admitted_ofSlot rfl rfl one_pos hyes.ge hno.ge hgain hgain

theorem attempt_red : ({ (Growth.commitOf 0 redSplit).yes with
    entries := [⟨1, ⟨0, ⟨0, .single 1, ""⟩⟩⟩] } : Leaf ℝ).attempt Id3.scorer (askColor 1) 0
      ⟨1, ⟨0, ⟨0, .single 1, ""⟩⟩⟩ = .refused := by
  have hnone : Example.totalMass ([] : List (Example ℝ)) < (askColor 1).minObs := by
    rw [ExactArithmetic.totalMass_eq]
    exact one_pos
  exact if_pos (.inl hnone)

theorem commits_colored : (colorTrainer.grow firstPlaces () colored).commits =
    [Growth.commitOf 0 redSplit, Growth.commitOf 1 greenSplit] := by
  have hall : ∀ value, ¬ 1 < (askColor value).drawSize := fun _ => Nat.lt_irrefl 1
  let start := Growth.start Id3.scorer () colored.members
  let one := start.note (.stepEntered (askColor 0))
  have hopened : one.opened = [] ++ Growth.rootLeaf Id3.scorer colored.members :: [] := rfl
  have hroom : one.opened.length < 3 := by decide
  have hempty : one.queue = .empty := rfl
  obtain ⟨_, hcommits, hleaves, hqueue, hoffered⟩ := Growth.runSplit_of_single (hall 0) firstPlaces
    rfl hempty hopened hroom admitted_redSplit rfl rfl fun _ hk => absurd hk List.not_mem_nil
  let two := (one.runSplit Id3.scorer firstPlaces 3 (askColor 0)).note (.stepEntered (askColor 1))
  have hlength : two.opened.length = 2 := congrArg List.length hleaves
  have hentry : greenSplit.entry = ⟨two.offered.length, ⟨0, ⟨0, .single 1, ""⟩⟩⟩ := by
    have hnumber : two.offered.length = 1 := congrArg List.length hoffered
    rw [hnumber]
    rfl
  have hroom' : two.opened.length < 3 := hlength.trans_lt (by decide)
  have hempty' : two.queue = .empty := hqueue
  have hopened' : two.opened = [(Growth.commitOf 0 redSplit).yes] ++
    (Growth.commitOf 0 redSplit).no :: [] := hleaves
  obtain ⟨_, hcommits', _⟩ := Growth.runSplit_of_single (hall 1) firstPlaces rfl hempty' hopened'
    hroom' admitted_greenSplit rfl hentry fun k hk => by
      rw [List.mem_singleton.1 hk]
      exact attempt_red
  have hrun : colorTrainer.grow firstPlaces () colored =
      two.runSplit Id3.scorer firstPlaces 3 (askColor 1) := by
    have hbudget : ¬ 3 ≤ start.opened.length := by decide
    have hbudget' : ¬ 3 ≤ (one.runSplit Id3.scorer firstPlaces 3 (askColor 0)).opened.length :=
      Nat.not_le.2 hroom'
    exact (Growth.runSteps_of_split [askColor 1] hbudget rfl).trans
      (Growth.runSteps_of_split [] hbudget' rfl)
  have hbefore : two.commits = [Growth.commitOf 0 redSplit] := hcommits
  rw [hrun, hcommits', hbefore]
  rfl

end Sample

/-- The final score falls below zero while no entropy is left in the leaves. -/
theorem Trainer.finalScore_colored : ∃ o root,
    colorTrainer.train firstPlaces () colored = .ok o ∧ o.tree.root? = some root ∧
      0 < colored.totalMass ∧ o.summary.mass = colored.totalMass ∧
      o.summary.finalScore = -(1 / 2) ∧ root.meanScore o.summary.mass = 0 := by
  obtain ⟨o, ho⟩ := exists_train_colored
  obtain ⟨root, hmade⟩ := exists_made_of_train ho
  have hmass : o.summary.mass = 4 := by
    rw [hmade.summary_eq, ← totalMass_colored]
    exact congrArg Leaf.mass hmade.sound.root_eq
  have hinitial : o.summary.initialScore = 3 / 2 := by
    rw [hmade.summary_eq, ← entropy_colored]
    exact congrArg Leaf.score hmade.sound.root_eq
  have hpos : 0 < o.summary.mass := by
    rw [hmass]
    norm_num
  have hfinal := hmade.finalScore_eq
  have hmean := hmade.meanScore_eq rfl hpos
  rw [commits_colored, hinitial] at hfinal hmean
  rw [hmass] at hmean
  refine ⟨o, root, ho, hmade.root?_eq, ?_, ?_, ?_, ?_⟩
  · rw [totalMass_colored]
    norm_num
  · rw [hmass, totalMass_colored]
  · rw [hfinal]
    norm_num [Growth.commitOf, gain_red, gain_green]
  · rw [hmass, hmean]
    have hwhole : redSplit.leaf.mass = 4 := totalMass_colored
    have hrest : greenSplit.leaf.mass = 2 := totalMass_rest
    norm_num [Growth.commitOf, hwhole, hrest, gain_red, gain_green]

end QuestionTree
