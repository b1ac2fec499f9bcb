import QuestionTree.Growth.Outcome
import QuestionTree.Proofs.DecisionTree.Way
import QuestionTree.Proofs.Growth.Sound

/-!
# From the tree of a run to a decision tree

A decision tree shows a grown tree if it has the same shape, notes down the same leaves, and every
inner node finds the question of its commit in the pool. The conversion always succeeds on the tree
of a sound run: every question that a commit asked is among those that were used, and as the numbers
of the questions on offer are different, the place found for it is its own. The leaves are numbered
in a row from left to right.
-/

namespace QuestionTree

variable {ν γ : Type}

namespace GrownTree

/-- Whether a node of a decision tree shows a grown tree. -/
def Shows (pool : QuestionPool) : GrownTree ν → Node (NodeInfo ν) → Prop
  | leaf l, .leaf _ info => info = infoOf l
  | split c yes no, .internal id info yesNode noNode =>
    info = infoOf c.candidate.leaf ∧ pool.require id = .ok c.candidate.entry.question ∧
      yes.Shows pool yesNode ∧ no.Shows pool noNode
  | _, _ => False

variable {pool : QuestionPool} {rank : Entry → Except Error Nat}

theorem exists_toNode {t : GrownTree ν}
    (hrank : ∀ c ∈ t.splits, ∃ id, rank c.candidate.entry = .ok id ∧
      pool.require id = .ok c.candidate.entry.question) (next : Nat) :
    ∃ n, t.toNode rank next = .ok (n, next + t.leaves.length) ∧ t.Shows pool n ∧
      n.leaves.map Node.id = List.range' next t.leaves.length := by
  induction t generalizing next with
  | leaf l =>
    refine ⟨.leaf next (infoOf l), rfl, rfl, ?_⟩
    rw [Node.leaves_leaf]
    rfl
  | split c yes no ihYes ihNo =>
    obtain ⟨id, hid, hquestion⟩ := hrank c (List.mem_cons_self ..)
    obtain ⟨yesNode, hyes, hyesShows, hyesIds⟩ := ihYes (fun d hd =>
      hrank d (List.mem_cons_of_mem c (List.mem_append_left _ hd))) next
    obtain ⟨noNode, hno, hnoShows, hnoIds⟩ := ihNo (fun d hd =>
      hrank d (List.mem_cons_of_mem c (List.mem_append_right _ hd))) (next + yes.leaves.length)
    refine ⟨.internal id (infoOf c.candidate.leaf) yesNode noNode, ?_,
      ⟨rfl, hquestion, hyesShows, hnoShows⟩, ?_⟩
    · simp only [toNode, hid, hyes, hno, bind, Except.bind, pure, Except.pure, leaves,
        List.length_append, Nat.add_assoc]
    · rw [Node.leaves_internal, List.map_append, hyesIds, hnoIds, List.range'_append_1, leaves,
        List.length_append]

theorem asks_of_shows {t : GrownTree ν} {n : Node (NodeInfo ν)} (h : t.Shows pool n) :
    n.Asks pool := by
  induction t generalizing n with
  | leaf l =>
    cases n with
    | leaf id info => trivial
    | internal id info yes no => cases h
  | split c yes no ihYes ihNo =>
    cases n with
    | leaf id info => cases h
    | internal id info yesNode noNode =>
      obtain ⟨_, hquestion, hyes, hno⟩ := h
      have hget := Node.require_eq_ok_iff.1 hquestion
      obtain ⟨hid, _⟩ := List.getElem?_eq_some_iff.1 hget
      exact ⟨hid, ihYes hyes, ihNo hno⟩

end GrownTree

namespace Growth

/-! ### The questions that were used -/

/-- The questions that were used, as a pool. -/
def usedPool (g : Growth ν γ) : QuestionPool := ⟨g.used.map Entry.question⟩

theorem not_isEmpty_commitsOf_iff {g : Growth ν γ} {e : Entry} :
    (!(g.commitsOf e).isEmpty) = true ↔ ∃ c ∈ g.commits, c.candidate.entry.id = e.id := by
  rw [Bool.not_eq_true', List.isEmpty_eq_false_iff_exists_mem]
  refine exists_congr fun c => ?_
  rw [commitsOf, List.mem_filter, beq_iff_eq]

theorem mem_used_iff {g : Growth ν γ} {e : Entry} :
    e ∈ g.used ↔ e ∈ g.offered ∧ ∃ c ∈ g.commits, c.candidate.entry.id = e.id := by
  rw [used, List.mem_filter, not_isEmpty_commitsOf_iff]

variable [Arithmetic ν] {scorer : Scorer ν} {examples : List (Handle (Example ν))}
  {steps : List (Step ν)} {current : Option (Step ν)} {waiting : List (Leaf ν)} {g : Growth ν γ}

theorem Sound.entry_eq_of_id_eq (h : g.Sound scorer examples steps current waiting) {d e : Entry}
    (hd : d ∈ g.offered) (he : e ∈ g.offered) (hid : d.id = e.id) : d = e := by
  have hnodup : (g.offered.map Entry.id).Nodup := by
    rw [h.numbered]
    exact List.nodup_range
  exact List.inj_on_of_nodup_map hnodup hd he hid

theorem Sound.getElem?_used_of_rank (h : g.Sound scorer examples steps current waiting)
    {c : Commit ν} (hc : c ∈ g.commits) {id : Nat} (hrank : g.rank c.candidate.entry = .ok id) :
    g.used[id]? = some c.candidate.entry := by
  rw [rank] at hrank
  split at hrank
  · rename_i place hplace
    cases hrank
    obtain ⟨hlt, hsame, _⟩ := List.findIdx?_eq_some_iff_getElem.1 hplace
    rw [List.getElem?_eq_getElem hlt, h.entry_eq_of_id_eq
      (mem_used_iff.1 (List.getElem_mem hlt)).1 (h.commit_entries c hc) (beq_iff_eq.1 hsame)]
  · cases hrank

theorem Sound.require_of_rank (h : g.Sound scorer examples steps current waiting)
    {c : Commit ν} (hc : c ∈ g.commits) {id : Nat} (hrank : g.rank c.candidate.entry = .ok id) :
    g.usedPool.require id = .ok c.candidate.entry.question := by
  rw [Node.require_eq_ok_iff, usedPool, QuestionPool.get?, List.getElem?_map,
    h.getElem?_used_of_rank hc hrank]
  rfl

theorem Sound.exists_rank (h : g.Sound scorer examples steps current waiting) {c : Commit ν}
    (hc : c ∈ g.commits) :
    ∃ id, g.rank c.candidate.entry = .ok id ∧
      g.usedPool.require id = .ok c.candidate.entry.question := by
  have hused : c.candidate.entry ∈ g.used := mem_used_iff.2 ⟨h.commit_entries c hc, c, hc, rfl⟩
  have hfound : (g.used.findIdx? (·.id == c.candidate.entry.id)).isSome := by
    rw [List.findIdx?_isSome, List.any_eq_true]
    exact ⟨_, hused, beq_self_eq_true _⟩
  obtain ⟨id, hid⟩ := Option.isSome_iff_exists.1 hfound
  have hrank : g.rank c.candidate.entry = .ok id := by rw [rank, hid]
  exact ⟨id, hrank, h.require_of_rank hc hrank⟩

/-- The tree of a sound run has a decision tree that shows it. -/
theorem Sound.exists_node (h : g.Sound scorer examples steps current waiting) :
    ∃ n, g.tree.toNode g.rank 0 = .ok (n, g.commits.length + 1) ∧
      g.tree.Shows g.usedPool n ∧
      n.leaves.map Node.id = List.range (g.commits.length + 1) := by
  have hperm : g.tree.splits.Perm g.commits := h.ledger.tree_splits
  have hlength : g.tree.leaves.length = g.commits.length + 1 := by
    rw [GrownTree.length_leaves, hperm.length_eq]
  obtain ⟨n, hn, hshows, hids⟩ := GrownTree.exists_toNode
    (fun c hc => h.exists_rank (hperm.mem_iff.1 hc)) 0
  rw [hlength, Nat.zero_add] at hn
  rw [hlength, ← List.range_eq_range'] at hids
  exact ⟨n, hn, hshows, hids⟩

end Growth

end QuestionTree
