import QuestionTree.Proofs.Scorer.Balance
import QuestionTree.Proofs.Growth.Account
import QuestionTree.Proofs.Growth.Saturation

/-!
# What the splits of a run take away

A quantity of leaves adds up over a tree: what its leaves have and what each split has taken away
make up what the root has. So wherever a run is, the worth of the unsplit leaves, which is their
score counted with the weight of the scorer, together with the gains of the commits, each counted
with the weight of the leaf that it split, is the worth of the first leaf. As an admitted split has
some mass on both sides and gains something, the worth of the leaves never increases, and every
commit lessens it. Without rounding, a split is admitted as soon as both sides have the mass that
the step asks for and it gains enough.
-/

namespace QuestionTree

variable {ν γ : Type}

section Quantity

variable {κ : Type} [AddCommGroup κ] {quantity : Leaf ν → κ}

/-- What a commit takes away of a quantity. -/
def Commit.loss (quantity : Leaf ν → κ) (c : Commit ν) : κ :=
  quantity c.candidate.leaf - quantity c.yes - quantity c.no

variable (hbare : ∀ l m : Leaf ν, l.bare = m.bare → quantity l = quantity m)

include hbare

theorem GrownTree.sum_leaves {t : GrownTree ν} {m : Leaf ν} (hrooted : t.Rooted m) :
    (t.leaves.map quantity).sum + (t.splits.map (Commit.loss quantity)).sum = quantity m := by
  induction t generalizing m with
  | leaf l =>
    have hsame : quantity l = quantity m := hbare l m hrooted
    rw [leaves, splits, List.map_singleton, List.sum_singleton, List.map_nil, List.sum_nil,
      add_zero, hsame]
  | split c yes no ihYes ihNo =>
    obtain ⟨hleaf, hyes, hno⟩ := hrooted
    have hsame : quantity c.candidate.leaf = quantity m := hbare _ m hleaf
    rw [leaves, splits, List.map_append, List.sum_append, List.map_cons, List.sum_cons,
      List.map_append, List.sum_append, Commit.loss, hsame, ← ihYes hyes, ← ihNo hno]
    abel

/-- What the leaves have and what the commits took away make up what the root has. -/
theorem Ledger.sum_unsplit {examples : List (Handle (Example ν))} {root : Leaf ν}
    {commits : List (Commit ν)} {unsplit : Multiset (Leaf ν)}
    (h : Ledger examples root commits unsplit) :
    (unsplit.map quantity).sum + (commits.map (Commit.loss quantity)).sum = quantity root := by
  have hself : quantity = quantity ∘ Leaf.bare := funext fun l => hbare l l.bare rfl
  have hleaves : (unsplit.map quantity).sum =
      ((GrownTree.replay root commits).leaves.map quantity).sum := by
    rw [hself, ← Multiset.map_map, ← h.tree_leaves, Multiset.map_coe, Multiset.sum_coe,
      List.map_map]
  rw [hleaves, ← (h.tree_splits.map (Commit.loss quantity)).sum_eq]
  exact GrownTree.sum_leaves hbare h.tree_rooted

end Quantity

variable [ExactArithmetic ν]

/-- The score that is noted down, counted with the weight of the scorer. -/
def NodeInfo.worth (kind : ScorerKind) (info : NodeInfo ν) : ν :=
  kind.weight info.size * info.score

def Leaf.worth (kind : ScorerKind) (l : Leaf ν) : ν := (GrownTree.infoOf l).worth kind

/-- The gain of a commit, counted with the weight of the leaf that it split. -/
def Commit.weightedGain (kind : ScorerKind) (c : Commit ν) : ν :=
  kind.weight c.candidate.leaf.mass * c.candidate.gain

theorem Leaf.worth_of_bare_eq (kind : ScorerKind) (l m : Leaf ν) (h : l.bare = m.bare) :
    l.worth kind = m.worth kind :=
  congrArg (NodeInfo.worth kind) (GrownTree.infoOf_of_bare_eq h)

/-- A split that leaves enough mass on both sides and gains enough is admitted. -/
theorem Candidate.admitted_ofSlot {scorer : Scorer ν} {step : Step ν} {l : Leaf ν} {slot : Nat}
    {entry : Entry} (hentry : l.entries[slot]? = some entry)
    (hmass : l.mass = Example.totalMass (l.members.map Handle.item)) (hobs : 0 < step.minObs)
    (hyes : step.minObs ≤ (ofSlot scorer l slot entry).yes.mass)
    (hno : step.minObs ≤ (ofSlot scorer l slot entry).no.mass)
    (hgain : step.minGain < (ofSlot scorer l slot entry).gain)
    (hpos : 0 < (ofSlot scorer l slot entry).gain) :
    (ofSlot scorer l slot entry).Admitted scorer step := by
  have hwhole : step.minObs + step.minObs ≤ l.mass := by
    rw [hmass, ← ExactArithmetic.totalMass_filter_add l.members entry.question.item.affirms]
    exact add_le_add hyes hno
  refine Step.Accepts.admitted (fun _ => not_lt_of_gt) hentry ⟨not_lt.2 hwhole, not_lt.2 hyes,
    not_lt.2 hno, not_le.2 (hobs.trans_le hyes), not_le.2 (hobs.trans_le hno), hgain, hpos⟩

variable {kind : ScorerKind} {source : DrawSource γ} {maxLeaves : Nat}
  {examples : List (Handle (Example ν))} {steps : List (Step ν)} {draws : γ}

namespace Growth

variable {current : Option (Step ν)} {waiting : List (Leaf ν)} {g : Growth ν γ}

theorem totalGain_eq (g : Growth ν γ) :
    g.totalGain = (g.commits.map fun c => c.candidate.gain).sum := by
  rw [totalGain, ← List.foldl_map, ExactArithmetic.foldl_add, zero_add]

namespace Sound

variable {scorer : Scorer ν}

theorem mass_split (h : g.Sound scorer examples steps current waiting) {c : Commit ν}
    (hc : c ∈ g.commits) :
    c.yes.mass + c.no.mass = c.candidate.leaf.mass ∧ 0 < c.yes.mass ∧ 0 < c.no.mass := by
  obtain ⟨step, _, hadmitted⟩ := h.committed c hc
  obtain ⟨⟨hyes, _⟩, hno, _⟩ := h.sides_of_commit hc
  obtain ⟨hyesPos, hnoPos⟩ := not_or.1 hadmitted.massive
  rw [hyes, hno]
  refine ⟨?_, not_le.1 hyesPos, not_le.1 hnoPos⟩
  rw [hadmitted.yes_mass, hadmitted.no_mass, hadmitted.yes_members, hadmitted.no_members,
    ExactArithmetic.totalMass_filter_add, ← h.mass_of_commit hc]

variable (h : g.Sound kind.scorer examples steps current waiting)

include h

theorem loss_worth {c : Commit ν} (hc : c ∈ g.commits) :
    c.loss (Leaf.worth kind) = c.weightedGain kind := by
  obtain ⟨step, _, hadmitted⟩ := h.committed c hc
  obtain ⟨⟨hyesMass, hyesScore, _⟩, hnoMass, hnoScore, _⟩ := h.sides_of_commit hc
  obtain ⟨hwhole, hyesPos, hnoPos⟩ := h.mass_split hc
  rw [hyesMass] at hwhole hyesPos
  rw [hnoMass] at hwhole hnoPos
  rw [hadmitted.yes_mass] at hyesPos
  rw [hadmitted.no_mass] at hnoPos
  have hbalance := kind.split_balance c.candidate.leaf.score hyesPos hnoPos
  rw [hadmitted.rating, ← hadmitted.yes_mass, ← hadmitted.no_mass, hwhole] at hbalance
  have hyes : c.yes.worth kind = kind.weight c.candidate.yes.mass * c.candidate.yes.score := by
    rw [← hyesMass, ← hyesScore]
    rfl
  have hno : c.no.worth kind = kind.weight c.candidate.no.mass * c.candidate.no.score := by
    rw [← hnoMass, ← hnoScore]
    rfl
  rw [Commit.loss, hyes, hno]
  exact hbalance

theorem weightedGain_pos {c : Commit ν} (hc : c ∈ g.commits) : 0 < c.weightedGain kind := by
  obtain ⟨step, _, hadmitted⟩ := h.committed c hc
  obtain ⟨hwhole, hyesPos, hnoPos⟩ := h.mass_split hc
  exact mul_pos (kind.weight_pos (hwhole ▸ add_pos hyesPos hnoPos)) hadmitted.gains.2

theorem map_loss_worth :
    g.commits.map (Commit.loss (Leaf.worth kind)) = g.commits.map (Commit.weightedGain kind) :=
  List.map_congr_left fun _ hc => h.loss_worth hc

/-- The worth of the leaves and the weighted gains make up the worth of the first leaf. -/
theorem sum_worth :
    ((g.leaves + waiting).map (Leaf.worth kind)).sum +
      (g.commits.map (Commit.weightedGain kind)).sum = g.root.worth kind := by
  rw [← h.map_loss_worth]
  exact h.ledger.sum_unsplit (Leaf.worth_of_bare_eq kind)

end Sound

end Growth

namespace Stage

variable {s s' : Stage ν γ}

/-- What the leaves are worth at a moment of a run. -/
def worth (kind : ScorerKind) (s : Stage ν γ) : ν := (s.unsplit.map (Leaf.worth kind)).sum

theorem worth_eq (h : s.Sound kind.scorer examples steps) :
    s.worth kind =
      s.growth.root.worth kind - (s.growth.commits.map (Commit.weightedGain kind)).sum := by
  rw [worth, ← Multiset.sum_coe, ← Multiset.map_coe, coe_unsplit]
  exact eq_sub_of_add_eq h.growing.sum_worth

theorem exists_commits_of_reaches (h : s.Sound kind.scorer examples steps)
    (hreaches : Reaches kind.scorer source maxLeaves s s') :
    ∃ commits, s'.growth.commits = s.growth.commits ++ commits ∧
      s'.worth kind = s.worth kind - (commits.map (Commit.weightedGain kind)).sum := by
  have h' : s'.Sound kind.scorer examples steps :=
    hreaches.invariant (fun _ _ hsound hnext => sound_next hsound hnext) h
  obtain ⟨commits, hcommits⟩ := (Growth.goesOn_of_reaches hreaches).commits
  refine ⟨commits, hcommits.symm, ?_⟩
  rw [worth_eq h, worth_eq h', ← hcommits, List.map_append, List.sum_append, h.growing.root_eq,
    h'.growing.root_eq, sub_sub]

/-- The leaves are never worth more than before. -/
theorem worth_le_of_reaches (h : s.Sound kind.scorer examples steps)
    (hreaches : Reaches kind.scorer source maxLeaves s s') : s'.worth kind ≤ s.worth kind := by
  have h' : s'.Sound kind.scorer examples steps :=
    hreaches.invariant (fun _ _ hsound hnext => sound_next hsound hnext) h
  obtain ⟨commits, hcommits, hworth⟩ := exists_commits_of_reaches h hreaches
  have hgains : 0 ≤ (commits.map (Commit.weightedGain kind)).sum := by
    refine List.sum_nonneg fun gain hgain => ?_
    obtain ⟨c, hc, rfl⟩ := List.mem_map.1 hgain
    exact (h'.growing.weightedGain_pos (hcommits ▸ List.mem_append_right _ hc)).le
  rw [hworth]
  exact sub_le_self _ hgains

end Stage

end QuestionTree
