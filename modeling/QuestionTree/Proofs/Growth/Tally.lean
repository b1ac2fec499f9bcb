import QuestionTree.Proofs.DecisionTree.Classes
import QuestionTree.Proofs.Growth.Placement
import QuestionTree.Proofs.Number.Order
import Mathlib.Algebra.BigOperators.Group.List.Basic

/-!
# Tallies of splits

The use of a question is noted down split by split, in the order of time. What is noted down can be
told from the splits in any order: how many there were, the least and the greatest gain and depth,
and the sum of the depths as a word of sixty-four bits. The depth of a split is that of the leaf,
which a commit knows from the leaf above, and so it is the length of the place of the inner node.
-/

namespace QuestionTree

variable {ν γ : Type}

/-! ### Least and greatest values -/

/-- Whether a value is one of a list that comes before all others. -/
structure Extreme {α : Type} (before : α → α → Prop) (a : α) (as : List α) : Prop where
  mem : a ∈ as
  bound : ∀ b ∈ as, before a b

/-- Whether the values of some kind are ordered and a choice of two is the one that comes first. -/
structure Chooses {α : Type} (kind : α → Prop) (before : α → α → Prop) (choose : α → α → α) :
    Prop where
  refl : ∀ {a}, kind a → before a a
  trans : ∀ {a b c}, kind a → kind b → kind c → before a b → before b c → before a c
  choice : ∀ {a b}, kind a → kind b →
    choose a b = a ∧ before a b ∨ choose a b = b ∧ before b a

namespace Extreme

variable {α : Type} {kind : α → Prop} {before : α → α → Prop} {choose : α → α → α} {a : α}
  {as bs : List α}

theorem of_perm (h : Extreme before a as) (hperm : as.Perm bs) : Extreme before a bs :=
  ⟨hperm.mem_iff.1 h.mem, fun b hb => h.bound b (hperm.mem_iff.2 hb)⟩

theorem singleton (hchooses : Chooses kind before choose) (ha : kind a) :
    Extreme before a [a] := by
  refine ⟨List.mem_singleton_self a, fun b hb => ?_⟩
  rw [List.mem_singleton.1 hb]
  exact hchooses.refl ha

theorem concat (h : Extreme before a as) (hchooses : Chooses kind before choose)
    (has : ∀ b ∈ as, kind b) {b : α} (hb : kind b) :
    Extreme before (choose a b) (as ++ [b]) := by
  have ha := has a h.mem
  rcases hchooses.choice ha hb with ⟨heq, hbefore⟩ | ⟨heq, hbefore⟩
  · rw [heq]
    refine ⟨List.mem_append_left _ h.mem, fun c hc => ?_⟩
    rcases List.mem_append.1 hc with hc | hc
    · exact h.bound c hc
    · exact List.mem_singleton.1 hc ▸ hbefore
  · rw [heq]
    refine ⟨List.mem_append_right _ (List.mem_singleton_self b), fun c hc => ?_⟩
    rcases List.mem_append.1 hc with hc | hc
    · exact hchooses.trans hb ha (has c hc) hbefore (h.bound c hc)
    · rw [List.mem_singleton.1 hc]
      exact hchooses.refl hb

end Extreme

theorem chooses_min : Chooses (fun _ : Nat => True) (· ≤ ·) min where
  refl _ := Nat.le_refl _
  trans _ _ _ hab hbc := Nat.le_trans hab hbc
  choice {a b} _ _ := by omega

theorem chooses_max : Chooses (fun _ : Nat => True) (· ≥ ·) max where
  refl _ := Nat.le_refl _
  trans _ _ _ hab hbc := Nat.le_trans hbc hab
  choice {a b} _ _ := by omega

section PositiveOrder

variable [Arithmetic ν] [PositiveOrder ν]

theorem PositiveOrder.le_refl {a : ν} (ha : 0 < a) : a ≤ a := by
  rw [le_iff ha ha, Std.ReflOrd.compare_self]
  exact nofun

theorem PositiveOrder.le_of_lt {a b : ν} (ha : 0 < a) (hb : 0 < b) (h : a < b) : a ≤ b := by
  rw [le_iff ha hb, (lt_iff ha hb).1 h]
  exact nofun

theorem PositiveOrder.le_of_not_lt {a b : ν} (ha : 0 < a) (hb : 0 < b) (h : ¬ a < b) : b ≤ a := by
  rw [le_iff hb ha, Std.OrientedOrd.eq_swap (a := b), ne_eq, Ordering.swap_eq_gt,
    ← lt_iff ha hb]
  exact h

theorem chooses_least : Chooses (fun a : ν => 0 < a) (· ≤ ·) Arithmetic.least where
  refl ha := PositiveOrder.le_refl ha
  trans ha hb hc hab hbc := PositiveOrder.le_trans ha hb hc hab hbc
  choice {a b} ha hb := by
    by_cases hlt : a < b
    · exact .inl ⟨if_pos hlt, PositiveOrder.le_of_lt ha hb hlt⟩
    · refine .inr ⟨?_, PositiveOrder.le_of_not_lt ha hb hlt⟩
      rw [Arithmetic.least, if_neg hlt, if_pos (PositiveOrder.le_refl hb)]

theorem chooses_greatest : Chooses (fun a : ν => 0 < a) (· ≥ ·) Arithmetic.greatest where
  refl ha := PositiveOrder.le_refl ha
  trans ha hb hc hab hbc := PositiveOrder.le_trans hc hb ha hbc hab
  choice {a b} ha hb := by
    by_cases hlt : b < a
    · exact .inl ⟨if_pos hlt, PositiveOrder.le_of_lt hb ha hlt⟩
    · refine .inr ⟨?_, PositiveOrder.le_of_not_lt hb ha hlt⟩
      rw [Arithmetic.greatest, if_neg hlt, if_pos (PositiveOrder.le_refl hb)]

end PositiveOrder

/-! ### Statistics -/

namespace Statistic

/-- Whether a statistic tells of splits with the given gains and depths. -/
structure Tells [LE ν] (s : Statistic ν) (uses : List (ν × Nat)) : Prop where
  count_eq : s.count = uses.length
  sumDepth_eq : s.sumDepth = (uses.map Prod.snd).sum % UInt64.size
  minDepth : uses ≠ [] → Extreme (· ≤ ·) s.minDepth (uses.map Prod.snd)
  maxDepth : uses ≠ [] → Extreme (· ≥ ·) s.maxDepth (uses.map Prod.snd)
  minGain : uses ≠ [] → Extreme (· ≤ ·) s.minGain (uses.map Prod.fst)
  maxGain : uses ≠ [] → Extreme (· ≥ ·) s.maxGain (uses.map Prod.fst)

/-- The order of the splits is of no account. -/
theorem Tells.of_perm [LE ν] {s : Statistic ν} {uses others : List (ν × Nat)} (h : s.Tells uses)
    (hperm : uses.Perm others) : s.Tells others := by
  have hne : others ≠ [] → uses ≠ [] := by
    rintro hne rfl
    exact hne hperm.symm.eq_nil
  have hgains := hperm.map Prod.fst
  have hdepths := hperm.map Prod.snd
  refine ⟨h.count_eq.trans hperm.length_eq, ?_, ?_, ?_, ?_, ?_⟩
  · rw [h.sumDepth_eq, hdepths.sum_eq]
  · exact fun hothers => (h.minDepth (hne hothers)).of_perm hdepths
  · exact fun hothers => (h.maxDepth (hne hothers)).of_perm hdepths
  · exact fun hothers => (h.minGain (hne hothers)).of_perm hgains
  · exact fun hothers => (h.maxGain (hne hothers)).of_perm hgains

variable [Arithmetic ν]

/-- The statistic of splits with the given gains and depths, in the order of time. -/
def tally (uses : List (ν × Nat)) : Statistic ν :=
  uses.foldl (fun s use => s.record use.1 use.2) blank

theorem tally_concat (uses : List (ν × Nat)) (use : ν × Nat) :
    tally (uses ++ [use]) = (tally uses).record use.1 use.2 := by
  rw [tally, List.foldl_append]
  rfl

theorem count_tally (uses : List (ν × Nat)) : (tally uses).count = uses.length := by
  induction uses using List.reverseRecOn with
  | nil => rfl
  | append_singleton uses use ih =>
    rw [tally_concat, List.length_append, ← ih]
    rfl

theorem sumDepth_tally (uses : List (ν × Nat)) :
    (tally uses).sumDepth = (uses.map Prod.snd).sum % UInt64.size := by
  induction uses using List.reverseRecOn with
  | nil => rfl
  | append_singleton uses use ih =>
    have hrecord : ((tally uses).record use.1 use.2).sumDepth =
        ((tally uses).sumDepth + use.2) % UInt64.size := rfl
    rw [tally_concat, hrecord, ih, Nat.mod_add_mod]
    simp

/-- A value that is chosen anew at every split is the extreme one of all. -/
theorem extreme_tally {α : Type} {kind : α → Prop} {before : α → α → Prop} {choose : α → α → α}
    (hchooses : Chooses kind before choose) (value : ν × Nat → α) (field : Statistic ν → α)
    (hfield : ∀ (s : Statistic ν) (use : ν × Nat), field (s.record use.1 use.2) =
      if s.count = 0 then value use else choose (field s) (value use))
    {uses : List (ν × Nat)} (hkind : ∀ use ∈ uses, kind (value use)) (hne : uses ≠ []) :
    Extreme before (field (tally uses)) (uses.map value) := by
  induction uses using List.reverseRecOn with
  | nil => exact absurd rfl hne
  | append_singleton uses use ih =>
    obtain ⟨huses, huse⟩ := List.forall_mem_append.1 hkind
    have hlast := huse use (List.mem_singleton_self use)
    rw [tally_concat, hfield, count_tally, List.map_append, List.map_singleton]
    by_cases hempty : uses = []
    · rw [hempty]
      exact .singleton hchooses hlast
    · rw [if_neg (mt List.length_eq_zero_iff.1 hempty)]
      refine (ih huses hempty).concat hchooses (fun a ha => ?_) hlast
      obtain ⟨other, hother, rfl⟩ := List.mem_map.1 ha
      exact huses other hother

theorem tells_tally [PositiveOrder ν] {uses : List (ν × Nat)}
    (hpos : ∀ use ∈ uses, 0 < use.1) : (tally uses).Tells uses := by
  have hdepths : ∀ use ∈ uses, True := fun _ _ => trivial
  refine ⟨count_tally uses, sumDepth_tally uses, ?_, ?_, ?_, ?_⟩
  · exact extreme_tally chooses_min Prod.snd minDepth (fun _ _ => rfl) hdepths
  · exact extreme_tally chooses_max Prod.snd maxDepth (fun _ _ => rfl) hdepths
  · exact extreme_tally chooses_least Prod.fst minGain (fun _ _ => rfl) hpos
  · exact extreme_tally chooses_greatest Prod.fst maxGain (fun _ _ => rfl) hpos

end Statistic

/-! ### Depths -/

/-- Whether the children of a commit are one deeper than its leaf. -/
def Commit.Deepens (c : Commit ν) : Prop :=
  c.yes.depth = c.candidate.leaf.depth + 1 ∧ c.no.depth = c.candidate.leaf.depth + 1

theorem GrownTree.forall₂_depth {rank : Entry → Except Error Nat} {t : GrownTree ν} {m : Leaf ν}
    {n : Node (NodeInfo ν)} {next next' : Nat} (h : t.toNode rank next = .ok (n, next'))
    (hrooted : t.Rooted m) (hdeepens : ∀ c ∈ t.splits, c.Deepens) :
    List.Forall₂ (fun s c => c.candidate.leaf.depth = m.depth + s.1.length) n.inner t.splits := by
  induction t generalizing n m next next' with
  | leaf l =>
    cases h
    exact .nil
  | split c yes no ihYes ihNo =>
    obtain ⟨id, yesNode, noNode, middle, hid, hyes, hno, rfl⟩ := toNode_split_eq_ok h
    obtain ⟨hbare, hyesRooted, hnoRooted⟩ := hrooted
    have hdepth := Leaf.depth_of_bare_eq hbare
    obtain ⟨hyesDepth, hnoDepth⟩ := hdeepens c (List.mem_cons_self ..)
    have hyesSplits := ihYes hyes hyesRooted
      fun d hd => hdeepens d (List.mem_cons_of_mem c (List.mem_append_left _ hd))
    have hnoSplits := ihNo hno hnoRooted
      fun d hd => hdeepens d (List.mem_cons_of_mem c (List.mem_append_right _ hd))
    rw [Node.inner, splits]
    refine .cons hdepth (List.rel_append ?_ ?_)
    · refine List.forall₂_map_left_iff.2 (hyesSplits.imp fun s d hd => ?_)
      rw [hd, hyesDepth, hdepth, List.length_cons]
      omega
    · refine List.forall₂_map_left_iff.2 (hnoSplits.imp fun s d hd => ?_)
      rw [hd, hnoDepth, hdepth, List.length_cons]
      omega

/-- The place of an inner node is shorter than there are inner nodes. -/
theorem Node.length_lt_of_mem_inner {ι : Type} {n : Node ι} {s : List Bool × Node ι}
    (hs : s ∈ n.inner) : s.1.length < n.inner.length := by
  induction n generalizing s with
  | leaf id info => exact absurd hs List.not_mem_nil
  | internal id info yes no ihYes ihNo =>
    rw [inner, List.length_cons, List.length_append, List.length_map, List.length_map]
    rw [inner, List.mem_cons, List.mem_append, List.mem_map, List.mem_map] at hs
    rcases hs with rfl | ⟨below, hbelow, rfl⟩ | ⟨below, hbelow, rfl⟩
    · exact Nat.succ_pos _
    · have hlt := ihYes hbelow
      rw [List.length_cons]
      omega
    · have hlt := ihNo hbelow
      rw [List.length_cons]
      omega

/-! ### Statistics of a run -/

namespace Growth

variable [Arithmetic ν]

theorem statisticOf_eq (g : Growth ν γ) (e : Entry) :
    g.statisticOf e = Statistic.tally
      ((g.commitsOf e).map fun c => (c.candidate.gain, c.candidate.leaf.depth)) := by
  rw [statisticOf, Statistic.tally, List.foldl_map]

theorem count_statisticOf (g : Growth ν γ) (e : Entry) :
    (g.statisticOf e).count = (g.commitsOf e).length := by
  rw [statisticOf_eq, Statistic.count_tally, List.length_map]

variable {scorer : Scorer ν} {examples : List (Handle (Example ν))} {steps : List (Step ν)}
  {current : Option (Step ν)} {waiting : List (Leaf ν)} {g : Growth ν γ}

/-- The statistics of all questions on offer count every split once. -/
theorem Sound.sum_counts (h : g.Sound scorer examples steps current waiting) :
    (g.offered.map fun e => (g.statisticOf e).count).sum = g.commits.length := by
  let splitsOf (k : Nat) : List (Commit ν) :=
    g.commits.filter fun c => decide (c.candidate.entry.id = k)
  have hcounts : (g.offered.map fun e => (g.statisticOf e).count) =
      (List.range g.offered.length).map fun k => (splitsOf k).length := by
    rw [← h.numbered, List.map_map]
    exact List.map_congr_left fun e _ => count_statisticOf g e
  have hknown : ∀ c ∈ g.commits, decide (c.candidate.entry.id < g.offered.length) = true := by
    intro c hc
    have hid : c.candidate.entry.id ∈ g.offered.map Entry.id :=
      List.mem_map_of_mem (h.commit_entries c hc)
    rw [h.numbered, List.mem_range] at hid
    exact decide_eq_true hid
  have hperm := flatMap_filter_perm (fun c : Commit ν => c.candidate.entry.id) g.commits
    g.offered.length
  rw [List.filter_eq_self.2 hknown] at hperm
  rw [hcounts, ← hperm.length_eq, List.length_flatMap]

end Growth

end QuestionTree
