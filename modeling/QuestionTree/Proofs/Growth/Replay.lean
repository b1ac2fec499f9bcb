import QuestionTree.Growth.Run
import QuestionTree.Proofs.Growth.Candidate

/-!
# Replaying the commits of a run

The tree of a run comes about by applying its commits to the first leaf one after the other. As long
as the leaves have different indices, a commit whose target is among them replaces this one leaf by
the two that it makes and leaves the rest of the tree alone. The tree is `Rooted` at a node if every
subtree hangs below the node that the commit above it made: what is noted down of a leaf or of a
split is then what that commit knew of its child.
-/

namespace QuestionTree

variable {ν : Type}

/-- The index of the node that a commit splits. -/
def Commit.target (c : Commit ν) : Nat := c.candidate.leaf.index

theorem Leaf.index_of_bare_eq {l m : Leaf ν} (h : l.bare = m.bare) : l.index = m.index := by
  have hindex := congrArg Leaf.index h
  exact hindex

theorem Leaf.depth_of_bare_eq {l m : Leaf ν} (h : l.bare = m.bare) : l.depth = m.depth := by
  have hdepth := congrArg Leaf.depth h
  exact hdepth

theorem Leaf.mass_of_bare_eq {l m : Leaf ν} (h : l.bare = m.bare) : l.mass = m.mass := by
  have hmass := congrArg Leaf.mass h
  exact hmass

theorem Leaf.score_of_bare_eq {l m : Leaf ν} (h : l.bare = m.bare) : l.score = m.score := by
  have hscore := congrArg Leaf.score h
  exact hscore

theorem Leaf.members_of_bare_eq {l m : Leaf ν} (h : l.bare = m.bare) : l.members = m.members := by
  have hmembers := congrArg Leaf.members h
  exact hmembers

namespace GrownTree

/-- The leaves from left to right. -/
def leaves : GrownTree ν → List (Leaf ν)
  | leaf l => [l]
  | split _ yes no => yes.leaves ++ no.leaves

/-- The commits that were applied, each before those below it. -/
def splits : GrownTree ν → List (Commit ν)
  | leaf _ => []
  | split c yes no => c :: (yes.splits ++ no.splits)

/-- Whether the tree hangs below a node. -/
def Rooted : GrownTree ν → Leaf ν → Prop
  | leaf l, m => l.bare = m.bare
  | split c yes no, m => c.candidate.leaf.bare = m.bare ∧ yes.Rooted c.yes ∧ no.Rooted c.no

/-- The tree that commits make below a root. -/
def replay (root : Leaf ν) (commits : List (Commit ν)) : GrownTree ν :=
  commits.foldl (fun t c => t.apply c) (leaf root)

theorem replay_append (root : Leaf ν) (commits : List (Commit ν)) (c : Commit ν) :
    replay root (commits ++ [c]) = (replay root commits).apply c := by
  rw [replay, List.foldl_append]
  rfl

theorem length_leaves (t : GrownTree ν) : t.leaves.length = t.splits.length + 1 := by
  induction t with
  | leaf l => rfl
  | split c yes no ihYes ihNo =>
    rw [leaves, splits, List.length_append, List.length_cons, List.length_append, ihYes, ihNo]
    omega

variable {c : Commit ν}

theorem apply_of_forall_ne {t : GrownTree ν} (h : ∀ l ∈ t.leaves, l.index ≠ c.target) :
    t.apply c = t := by
  induction t with
  | leaf l =>
    have hne : l.index ≠ c.candidate.leaf.index := h l (List.mem_singleton_self l)
    rw [apply, if_neg hne]
  | split d yes no ihYes ihNo =>
    have hyes := ihYes fun l hl => h l (List.mem_append_left _ hl)
    have hno := ihNo fun l hl => h l (List.mem_append_right _ hl)
    rw [apply, hyes, hno]

/-- A commit replaces the leaf that it splits and becomes one of the splits. -/
theorem apply_spec {t : GrownTree ν} {l : Leaf ν} (hnodup : (t.leaves.map Leaf.index).Nodup)
    (hl : l ∈ t.leaves) (hindex : l.index = c.target) :
    ∃ left right, t.leaves = left ++ l :: right ∧
      (t.apply c).leaves = left ++ c.yes :: c.no :: right ∧
      (t.apply c).splits.Perm (c :: t.splits) := by
  induction t with
  | leaf k =>
    have hk : l = k := List.mem_singleton.1 hl
    rw [hk] at hindex ⊢
    have htarget : k.index = c.candidate.leaf.index := hindex
    rw [apply, if_pos htarget]
    exact ⟨[], [], rfl, rfl, List.Perm.refl _⟩
  | split d yes no ihYes ihNo =>
    rw [leaves, List.map_append] at hnodup
    obtain ⟨hyes, hno, hdisjoint⟩ := List.nodup_append.1 hnodup
    -- the other side has no leaf of this index, so the commit leaves it alone
    have hapart : ∀ {k m : Leaf ν}, k ∈ yes.leaves → m ∈ no.leaves → k.index ≠ m.index :=
      fun hk hm => hdisjoint _ (List.mem_map_of_mem hk) _ (List.mem_map_of_mem hm)
    rcases List.mem_append.1 hl with hl | hl
    · have hrest : no.apply c = no := apply_of_forall_ne fun m hm =>
        hindex ▸ (hapart hl hm).symm
      obtain ⟨left, right, hleaves, happlied, hsplits⟩ := ihYes hyes hl
      refine ⟨left, right ++ no.leaves, ?_, ?_, ?_⟩
      · rw [leaves, hleaves, List.append_assoc, List.cons_append]
      · rw [apply, hrest, leaves, happlied, List.append_assoc, List.cons_append, List.cons_append]
      · rw [apply, hrest, splits, splits]
        exact ((hsplits.append_right no.splits).cons d).trans (List.Perm.swap c d _)
    · have hrest : yes.apply c = yes := apply_of_forall_ne fun m hm =>
        hindex ▸ hapart hm hl
      obtain ⟨left, right, hleaves, happlied, hsplits⟩ := ihNo hno hl
      refine ⟨yes.leaves ++ left, right, ?_, ?_, ?_⟩
      · rw [leaves, hleaves, List.append_assoc]
      · rw [apply, hrest, leaves, happlied, List.append_assoc]
      · rw [apply, hrest, splits, splits]
        have hmiddle := (hsplits.append_left yes.splits).trans List.perm_middle
        exact (hmiddle.cons d).trans (List.Perm.swap c d _)

theorem rooted_apply {t : GrownTree ν} {m : Leaf ν} (h : t.Rooted m)
    (hknown : ∀ l ∈ t.leaves, l.index = c.target → c.candidate.leaf.bare = l.bare) :
    (t.apply c).Rooted m := by
  induction t generalizing m with
  | leaf l =>
    rw [apply]
    split
    · rename_i hindex
      have hleaf := hknown l (List.mem_singleton_self l) hindex
      exact ⟨hleaf.trans h, rfl, rfl⟩
    · exact h
  | split d yes no ihYes ihNo =>
    obtain ⟨hbare, hyes, hno⟩ := h
    refine ⟨hbare, ihYes hyes ?_, ihNo hno ?_⟩
    · intro l hl
      exact hknown l (List.mem_append_left _ hl)
    · intro l hl
      exact hknown l (List.mem_append_right _ hl)

end GrownTree

end QuestionTree
