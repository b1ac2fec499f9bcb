import QuestionTree.Proofs.Growth.Replay
import Mathlib.Data.Multiset.Bind
import Mathlib.Data.Multiset.Range
import Mathlib.Tactic.Abel

/-!
# The ledger of a run

The commits of a run make all nodes, and each of them splits one. `Ledger` says that they account
for every node and every example: a node is split by one commit or is a leaf, never both and never
twice, a leaf is the node of its index in all but the questions left to it, and the leaves share out
the examples. The leaves are given as a multiset, whether they are open, wait to be offered or wait
in the queue, so moving a leaf from one place to another leaves the ledger alone, and only a commit
writes to it.
-/

namespace QuestionTree

open GrownTree (replay)

variable {ν γ : Type}

/-- The nodes that commits make below a root, in the order of their indices. -/
def nodesBelow (root : Leaf ν) (commits : List (Commit ν)) : List (Leaf ν) :=
  root :: commits.flatMap fun c => [c.yes, c.no]

theorem nodesBelow_append (root : Leaf ν) (commits : List (Commit ν)) (c : Commit ν) :
    nodesBelow root (commits ++ [c]) = nodesBelow root commits ++ [c.yes, c.no] := by
  simp [nodesBelow]

theorem length_nodesBelow (root : Leaf ν) (commits : List (Commit ν)) :
    (nodesBelow root commits).length = 2 * commits.length + 1 := by
  simp [nodesBelow]
  omega

theorem children_mem_nodesBelow (root : Leaf ν) {commits : List (Commit ν)} {c : Commit ν}
    (hc : c ∈ commits) : c.yes ∈ nodesBelow root commits ∧ c.no ∈ nodesBelow root commits := by
  have hchildren : ∀ l ∈ [c.yes, c.no], l ∈ nodesBelow root commits := fun l hl =>
    List.mem_cons_of_mem root (List.mem_flatMap.2 ⟨c, hc, hl⟩)
  exact ⟨hchildren _ (List.mem_cons_self ..), hchildren _ (by simp)⟩

/-- What the commits below a root and the leaves that are left have in common. -/
structure Ledger (examples : List (Handle (Example ν))) (root : Leaf ν)
    (commits : List (Commit ν)) (unsplit : Multiset (Leaf ν)) : Prop where
  numbered : ∀ i c, commits[i]? = some c → c = Growth.commitOf i c.candidate
  indexed : (nodesBelow root commits).map Leaf.index = List.range (2 * commits.length + 1)
  /-- Every index belongs to one leaf or to one commit. -/
  accounted : unsplit.map Leaf.index + (commits.map Commit.target : List Nat) =
    Multiset.range (2 * commits.length + 1)
  /-- A leaf is a node in all but the questions left to it. -/
  leaf_known : ∀ l ∈ unsplit, l.bare ∈ (nodesBelow root commits).map Leaf.bare
  /-- What a commit splits was a node in all but the questions left to it. -/
  split_known : ∀ c ∈ commits, c.candidate.leaf.bare ∈ (nodesBelow root commits).map Leaf.bare
  tree_leaves : ((replay root commits).leaves.map Leaf.bare : Multiset (Leaf ν)) =
    unsplit.map Leaf.bare
  tree_splits : (replay root commits).splits.Perm commits
  tree_rooted : (replay root commits).Rooted root
  shared : (unsplit.bind fun l => (l.members : Multiset (Handle (Example ν)))) = examples

namespace Ledger

variable {examples : List (Handle (Example ν))} {root : Leaf ν} {commits : List (Commit ν)}
  {unsplit rest : Multiset (Leaf ν)}

/-! ### Facts of a ledger -/

theorem card_unsplit (h : Ledger examples root commits unsplit) :
    unsplit.card = commits.length + 1 := by
  have hcard := congrArg Multiset.card h.accounted
  rw [Multiset.card_add, Multiset.card_map, Multiset.coe_card, List.length_map,
    Multiset.card_range] at hcard
  omega

theorem nodup_indices (h : Ledger examples root commits unsplit) :
    (unsplit.map Leaf.index).Nodup := by
  have hall := Multiset.nodup_range (2 * commits.length + 1)
  rw [← h.accounted] at hall
  exact (Multiset.nodup_add.1 hall).1

theorem mem_indices_iff (h : Ledger examples root commits unsplit) {i : Nat} :
    i ∈ unsplit.map Leaf.index ↔
      i < 2 * commits.length + 1 ∧ ∀ c ∈ commits, c.target ≠ i := by
  have hall := Multiset.nodup_range (2 * commits.length + 1)
  have hmem : i ∈ unsplit.map Leaf.index + (commits.map Commit.target : List Nat) ↔
      i < 2 * commits.length + 1 := by
    rw [h.accounted, Multiset.mem_range]
  rw [← h.accounted] at hall
  have hdisjoint := (Multiset.nodup_add.1 hall).2.2
  rw [Multiset.mem_add, Multiset.mem_coe] at hmem
  constructor
  · intro hi
    refine ⟨hmem.1 (.inl hi), fun c hc heq => ?_⟩
    exact Multiset.disjoint_left.1 hdisjoint hi (List.mem_map.2 ⟨c, hc, heq⟩)
  · rintro ⟨hi, hnone⟩
    rcases hmem.2 hi with hi | hi
    · exact hi
    · obtain ⟨c, hc, heq⟩ := List.mem_map.1 hi
      exact absurd heq (hnone c hc)

theorem index_of_getElem? (h : Ledger examples root commits unsplit) {i : Nat} {l : Leaf ν}
    (hl : (nodesBelow root commits)[i]? = some l) : l.index = i := by
  have hindex : ((nodesBelow root commits).map Leaf.index)[i]? = some l.index := by
    rw [List.getElem?_map, hl]
    rfl
  rw [h.indexed, List.getElem?_eq_some_iff] at hindex
  obtain ⟨_, hindex⟩ := hindex
  exact hindex.symm.trans (List.getElem_range _)

theorem getElem?_index (h : Ledger examples root commits unsplit) {l : Leaf ν}
    (hl : l ∈ nodesBelow root commits) : (nodesBelow root commits)[l.index]? = some l := by
  obtain ⟨i, hi⟩ := List.mem_iff_getElem?.1 hl
  rw [h.index_of_getElem? hi, hi]

/-- A leaf is the node at its index in all but the questions left to it. -/
theorem node_at_index (h : Ledger examples root commits unsplit) {l : Leaf ν} (hl : l ∈ unsplit) :
    ∃ n, (nodesBelow root commits)[l.index]? = some n ∧ n.bare = l.bare := by
  obtain ⟨n, hn, hbare⟩ := List.mem_map.1 (h.leaf_known l hl)
  exact ⟨n, Leaf.index_of_bare_eq hbare ▸ h.getElem?_index hn, hbare⟩

theorem target_lt (h : Ledger examples root commits unsplit) {c : Commit ν} (hc : c ∈ commits) :
    c.target < 2 * commits.length + 1 := by
  rw [← Multiset.mem_range, ← h.accounted, Multiset.mem_add]
  exact .inr (List.mem_map_of_mem hc)

theorem tree_indices (h : Ledger examples root commits unsplit) :
    ((replay root commits).leaves.map Leaf.index : Multiset Nat) = unsplit.map Leaf.index := by
  have hleaves := congrArg (Multiset.map Leaf.index) h.tree_leaves
  rw [Multiset.map_coe, List.map_map, Multiset.map_map] at hleaves
  exact hleaves

theorem tree_nodup (h : Ledger examples root commits unsplit) :
    ((replay root commits).leaves.map Leaf.index).Nodup := by
  rw [← Multiset.coe_nodup, h.tree_indices]
  exact h.nodup_indices

theorem exists_tree_leaf (h : Ledger examples root commits unsplit) {l : Leaf ν}
    (hl : l ∈ unsplit) : ∃ k ∈ (replay root commits).leaves, k.bare = l.bare := by
  have hmem : l.bare ∈ ((replay root commits).leaves.map Leaf.bare : Multiset (Leaf ν)) := by
    rw [h.tree_leaves]
    exact Multiset.mem_map_of_mem _ hl
  exact List.mem_map.1 hmem

theorem tree_leaf_at_index (h : Ledger examples root commits unsplit) {k l : Leaf ν}
    (hk : k ∈ (replay root commits).leaves) (hl : l ∈ unsplit) (hindex : k.index = l.index) :
    k.bare = l.bare := by
  obtain ⟨m, hm, hbare⟩ := h.exists_tree_leaf hl
  have hsame : k.index = m.index := hindex.trans (Leaf.index_of_bare_eq hbare).symm
  rw [List.inj_on_of_nodup_map h.tree_nodup hk hm hsame, hbare]

/-! ### The steps of a run -/

theorem start (hroot : root.index = 0) : Ledger root.members root [] {root} where
  numbered i c h := by simp at h
  indexed := by simp [nodesBelow, hroot]
  accounted := by simp [hroot]
  leaf_known l hl := by
    rw [Multiset.mem_singleton] at hl
    simp [nodesBelow, hl]
  split_known c hc := by simp at hc
  tree_leaves := rfl
  tree_splits := List.Perm.refl _
  tree_rooted := rfl
  shared := by rw [Multiset.singleton_bind]

/-- Other questions may be left to a leaf. -/
theorem relabel {l m : Leaf ν} (h : Ledger examples root commits (l ::ₘ rest))
    (hbare : m.bare = l.bare) : Ledger examples root commits (m ::ₘ rest) where
  numbered := h.numbered
  indexed := h.indexed
  accounted := by
    rw [← h.accounted, Multiset.map_cons, Multiset.map_cons, Leaf.index_of_bare_eq hbare]
  leaf_known k hk := by
    rcases Multiset.mem_cons.1 hk with rfl | hk
    · rw [hbare]
      exact h.leaf_known l (Multiset.mem_cons_self l rest)
    · exact h.leaf_known k (Multiset.mem_cons_of_mem hk)
  split_known := h.split_known
  tree_leaves := by
    rw [h.tree_leaves, Multiset.map_cons, Multiset.map_cons, hbare]
  tree_splits := h.tree_splits
  tree_rooted := h.tree_rooted
  shared := by
    rw [← h.shared, Multiset.cons_bind, Multiset.cons_bind, Leaf.members_of_bare_eq hbare]

theorem nodes_subset (root : Leaf ν) (commits : List (Commit ν)) (c : Commit ν) {l : Leaf ν}
    (hl : l ∈ (nodesBelow root commits).map Leaf.bare) :
    l ∈ (nodesBelow root (commits ++ [c])).map Leaf.bare := by
  rw [nodesBelow_append, List.map_append]
  exact List.mem_append_left _ hl

theorem tree_commit {l : Leaf ν} {c : Commit ν} (h : Ledger examples root commits (l ::ₘ rest))
    (hc : c.candidate.leaf = l) :
    ((replay root (commits ++ [c])).leaves.map Leaf.bare : Multiset (Leaf ν)) =
        (c.yes ::ₘ c.no ::ₘ rest).map Leaf.bare ∧
      (replay root (commits ++ [c])).splits.Perm (commits ++ [c]) ∧
      (replay root (commits ++ [c])).Rooted root := by
  have hmem : l ∈ l ::ₘ rest := Multiset.mem_cons_self l rest
  obtain ⟨k, hk, hbare⟩ := h.exists_tree_leaf hmem
  have htarget : k.index = c.target := by
    rw [Commit.target, hc, Leaf.index_of_bare_eq hbare]
  obtain ⟨left, right, hleaves, happlied, hsplits⟩ := GrownTree.apply_spec h.tree_nodup hk htarget
  rw [GrownTree.replay_append]
  refine ⟨?_, ?_, GrownTree.rooted_apply h.tree_rooted ?_⟩
  · have hbefore := h.tree_leaves
    rw [hleaves, List.map_append, List.map_cons, ← Multiset.coe_add, ← Multiset.cons_coe,
      Multiset.add_cons, Multiset.map_cons, hbare, Multiset.cons_inj_right, Multiset.coe_add]
      at hbefore
    rw [happlied, List.map_append, List.map_cons, List.map_cons, ← Multiset.coe_add,
      ← Multiset.cons_coe, ← Multiset.cons_coe, Multiset.add_cons, Multiset.add_cons,
      Multiset.coe_add, hbefore, Multiset.map_cons, Multiset.map_cons]
  · exact hsplits.trans ((h.tree_splits.cons c).trans (List.perm_append_singleton c commits).symm)
  · intro m hm hindex
    rw [Commit.target, hc] at hindex
    rw [hc, h.tree_leaf_at_index hm hmem hindex]

variable [Arithmetic ν] {scorer : Scorer ν} {step : Step ν}

theorem members_perm {c : Candidate ν} (h : c.Admitted scorer step) :
    (c.yes.members ++ c.no.members).Perm c.leaf.members := by
  rw [h.yes_members, h.no_members]
  exact List.filter_append_perm _ _

/-- A commit takes the leaf that it splits away and adds the two nodes that it makes. -/
theorem commit {c : Candidate ν} (h : Ledger examples root commits (c.leaf ::ₘ rest))
    (hc : c.Admitted scorer step) :
    Ledger examples root (commits ++ [Growth.commitOf commits.length c])
      ((Growth.commitOf commits.length c).yes ::ₘ (Growth.commitOf commits.length c).no ::ₘ
        rest) where
  numbered i d hd := by
    rw [List.getElem?_append] at hd
    split at hd
    · exact h.numbered i d hd
    · rw [List.getElem?_singleton] at hd
      split at hd
      · cases hd
        have hi : i = commits.length := by omega
        rw [hi]
        rfl
      · cases hd
  indexed := by
    rw [nodesBelow_append, List.map_append, h.indexed, List.length_append, List.length_singleton,
      Nat.mul_add, List.range_succ, List.range_succ]
    simp [Growth.commitOf, List.range_succ]
  accounted := by
    have hbefore := h.accounted
    rw [Multiset.map_cons] at hbefore
    -- the new nodes take the next two indices, and the split leaf hands its own to the commit
    have hrange : Multiset.range (2 * (commits.length + 1) + 1) =
        {2 * commits.length + 2} + ({2 * commits.length + 1} +
          Multiset.range (2 * commits.length + 1)) := by
      rw [show 2 * (commits.length + 1) + 1 = 2 * commits.length + 1 + 1 + 1 by omega,
        Multiset.range_succ, Multiset.range_succ, Multiset.singleton_add, Multiset.singleton_add]
    rw [List.length_append, List.length_singleton, hrange, ← hbefore, List.map_append,
      ← Multiset.coe_add, Multiset.map_cons, Multiset.map_cons]
    simp only [← Multiset.singleton_add, List.map_cons, List.map_nil, Multiset.coe_singleton,
      Commit.target, Growth.commitOf]
    abel
  leaf_known l hl := by
    rcases Multiset.mem_cons.1 hl with rfl | hl
    · simp [nodesBelow_append]
    · rcases Multiset.mem_cons.1 hl with rfl | hl
      · simp [nodesBelow_append]
      · exact nodes_subset root commits _ (h.leaf_known l (Multiset.mem_cons_of_mem hl))
  split_known d hd := by
    rcases List.mem_append.1 hd with hd | hd
    · exact nodes_subset root commits _ (h.split_known d hd)
    · rw [List.mem_singleton.1 hd]
      exact nodes_subset root commits _ (h.leaf_known c.leaf (Multiset.mem_cons_self ..))
  tree_leaves := (h.tree_commit rfl).1
  tree_splits := (h.tree_commit rfl).2.1
  tree_rooted := (h.tree_commit rfl).2.2
  shared := by
    have hperm := Multiset.coe_eq_coe.2 (members_perm hc)
    rw [← Multiset.coe_add] at hperm
    rw [← h.shared, Multiset.cons_bind, Multiset.cons_bind, Multiset.cons_bind, ← hperm]
    exact (Multiset.add_assoc ..).symm

end Ledger

end QuestionTree
