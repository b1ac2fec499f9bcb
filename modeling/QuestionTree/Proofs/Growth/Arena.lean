import QuestionTree.Proofs.Growth.BestFirst

/-!
# Nodes in an arena

A growing tree can be kept as a list of nodes that are added one after the other. A counter of
thirty-two bits numbers them as they are added, and a node that is split notes down the places of
its children. The commits of a run say the same without the list. `Ledger.commit_ofCommits` is the
step: the number of the commits so far tells what the counter shows and where the next nodes go.
Following the places from the first node then finds the tree that the commits make when they are
replayed, and so the same decision tree.
-/

namespace QuestionTree

variable {ν γ : Type}

/-- A node, and once it is split its question and the places of its children. -/
structure ArenaNode (ν : Type) where
  order : UInt32
  depth : Nat
  mass : ν
  score : ν
  split : Option (Entry × Nat × Nat)

def ArenaNode.info (n : ArenaNode ν) : NodeInfo ν := ⟨n.order.toNat, n.mass, n.score⟩

/-- The nodes that were added so far, and the number of the next one. -/
@[ext]
structure Arena (ν : Type) where
  nodes : List (ArenaNode ν)
  nextOrder : UInt32

namespace Arena

def start (mass score : ν) : Arena ν := ⟨[⟨0, 0, mass, score, none⟩], 1⟩

def add (a : Arena ν) (depth : Nat) (side : Side ν) : Arena ν :=
  ⟨a.nodes ++ [⟨a.nextOrder, depth, side.mass, side.score, none⟩], a.nextOrder + 1⟩

/-- Adds the children of a node and splits it, if there is such a node. -/
def commit? (a : Arena ν) (c : Candidate ν) : Option (Arena ν) :=
  a.nodes[c.leaf.index]?.map fun n =>
    let withYes := a.add (n.depth + 1) c.yes
    let withBoth := withYes.add (n.depth + 1) c.no
    let split := some (c.entry, a.nodes.length, withYes.nodes.length)
    { withBoth with nodes := withBoth.nodes.set c.leaf.index { n with split } }

/-- What the commit of a node leaves behind. -/
theorem commit?_eq {a : Arena ν} {c : Candidate ν} {n : ArenaNode ν}
    (hn : a.nodes[c.leaf.index]? = some n) :
    a.commit? c = some
      { nodes := a.nodes.set c.leaf.index
            { n with split := some (c.entry, a.nodes.length, a.nodes.length + 1) } ++
          [⟨a.nextOrder, n.depth + 1, c.yes.mass, c.yes.score, none⟩,
            ⟨a.nextOrder + 1, n.depth + 1, c.no.mass, c.no.score, none⟩]
        nextOrder := a.nextOrder + 1 + 1 } := by
  have hplace : c.leaf.index < a.nodes.length := (List.getElem?_eq_some_iff.1 hn).1
  simp only [commit?, hn, Option.map_some, add, List.append_assoc, List.length_append,
    List.length_singleton, List.set_append_left _ _ hplace]
  rfl

def commitAll? (a : Arena ν) (commits : List (Commit ν)) : Option (Arena ν) :=
  commits.foldlM (fun a c => a.commit? c.candidate) a

theorem commitAll?_concat (a : Arena ν) (commits : List (Commit ν)) (c : Commit ν) :
    a.commitAll? (commits ++ [c]) = (a.commitAll? commits).bind fun a => a.commit? c.candidate := by
  simp [commitAll?]

/-- The node of a decision tree for the node at a place, with the number of the next leaf after it,
if all places that are noted down are places of nodes. -/
def toNode? (a : Arena ν) (rank : Entry → Except Error Nat) :
    Nat → Nat → Nat → Option (Except Error (Node (NodeInfo ν) × Nat))
  | 0, _, _ => none
  | fuel + 1, place, next => do
    let n ← a.nodes[place]?
    match n.split with
    | none => return .ok (.leaf next n.info, next + 1)
    | some (entry, yesPlace, noPlace) =>
      match rank entry with
      | .error e => return .error e
      | .ok id =>
        match ← a.toNode? rank fuel yesPlace next with
        | .error e => return .error e
        | .ok (yes, next) =>
          match ← a.toNode? rank fuel noPlace next with
          | .error e => return .error e
          | .ok (no, next) => return .ok (.internal id n.info yes no, next)

/-! ### What the commits of a run say of the nodes -/

/-- The node of a leaf that is not split. -/
def unsplitNode (l : Leaf ν) : ArenaNode ν := ⟨.ofNat l.index, l.depth, l.mass, l.score, none⟩

/-- The node of a leaf after some commits. -/
def nodeOf (commits : List (Commit ν)) (l : Leaf ν) : ArenaNode ν :=
  { unsplitNode l with
    split := (commits.find? fun c => c.target == l.index).map fun c =>
      (c.candidate.entry, c.yes.index, c.no.index) }

def ofCommits (root : Leaf ν) (commits : List (Commit ν)) : Arena ν :=
  ⟨(nodesBelow root commits).map (nodeOf commits), .ofNat (2 * commits.length + 1)⟩

theorem length_ofCommits (root : Leaf ν) (commits : List (Commit ν)) :
    (ofCommits root commits).nodes.length = 2 * commits.length + 1 := by
  rw [ofCommits, List.length_map, length_nodesBelow]

theorem getElem?_ofCommits {root n : Leaf ν} {commits : List (Commit ν)} {i : Nat}
    (hn : (nodesBelow root commits)[i]? = some n) :
    (ofCommits root commits).nodes[i]? = some (nodeOf commits n) := by
  rw [ofCommits, List.getElem?_map, hn, Option.map_some]

theorem nextOrder_concat (root : Leaf ν) (commits : List (Commit ν)) (c : Commit ν) :
    (ofCommits root (commits ++ [c])).nextOrder = (ofCommits root commits).nextOrder + 1 + 1 := by
  rw [ofCommits, ofCommits, List.length_append, List.length_singleton, Nat.mul_add,
    UInt32.add_assoc]
  exact UInt32.ofNat_add (2 * commits.length + 1) 2

theorem info_nodeOf (commits : List (Commit ν)) (l : Leaf ν) :
    (nodeOf commits l).info = GrownTree.infoOf l := by
  rw [ArenaNode.info, nodeOf, unsplitNode, UInt32.toNat_ofNat']
  rfl

theorem nodeOf_of_bare_eq {l m : Leaf ν} (h : l.bare = m.bare) (commits : List (Commit ν)) :
    nodeOf commits l = nodeOf commits m := by
  have hnode := congrArg (nodeOf commits) h
  exact hnode

variable {root l : Leaf ν} {commits : List (Commit ν)} {c : Commit ν}

theorem nodeOf_of_forall_ne (h : ∀ c ∈ commits, c.target ≠ l.index) :
    nodeOf commits l = unsplitNode l := by
  have hfind : commits.find? (fun c => c.target == l.index) = none :=
    List.find?_eq_none.2 fun c hc => by simpa using h c hc
  rw [nodeOf, hfind]
  rfl

theorem nodeOf_concat_of_ne (h : c.target ≠ l.index) :
    nodeOf (commits ++ [c]) l = nodeOf commits l := by
  rw [nodeOf, nodeOf, List.find?_append, List.find?_singleton, if_neg (by simpa using h),
    Option.or_none]

theorem nodeOf_concat_of_eq (h : c.target = l.index) (hnone : ∀ d ∈ commits, d.target ≠ l.index) :
    nodeOf (commits ++ [c]) l =
      { unsplitNode l with split := some (c.candidate.entry, c.yes.index, c.no.index) } := by
  have hfind : commits.find? (fun c => c.target == l.index) = none :=
    List.find?_eq_none.2 fun d hd => by simpa using hnone d hd
  rw [nodeOf, List.find?_append, hfind, List.find?_singleton, if_pos (by simpa using h)]
  rfl

end Arena

namespace Ledger

variable {examples : List (Handle (Example ν))} {root : Leaf ν} {commits : List (Commit ν)}
  {unsplit rest : Multiset (Leaf ν)}

open Arena (ofCommits nodeOf)

theorem map_nodeOf_concat {c : Commit ν} {n : Leaf ν}
    (h : Ledger examples root commits (c.candidate.leaf ::ₘ rest))
    (hn : (nodesBelow root commits)[c.target]? = some n) :
    (nodesBelow root commits).map (nodeOf (commits ++ [c])) =
      ((nodesBelow root commits).map (nodeOf commits)).set c.target
        { nodeOf commits n with split := some (c.candidate.entry, c.yes.index, c.no.index) } := by
  have htargets : ∀ d ∈ commits, d.target ≠ c.target :=
    (h.mem_indices_iff.1 (Multiset.mem_map_of_mem Leaf.index (Multiset.mem_cons_self ..))).2
  refine List.ext_getElem? fun i => ?_
  rw [List.getElem?_set, List.getElem?_map, List.getElem?_map, List.length_map]
  split
  · rename_i hi
    have hindex := h.index_of_getElem? hn
    have hlt := (List.getElem?_eq_some_iff.1 hn).1
    rw [← hi, if_pos hlt, hn, Option.map_some, Arena.nodeOf_concat_of_eq hindex.symm
      (hindex.symm ▸ htargets), Arena.nodeOf_of_forall_ne (hindex.symm ▸ htargets)]
  · rename_i hi
    cases hl : (nodesBelow root commits)[i]? with
    | none => rfl
    | some l =>
      have hne : c.target ≠ l.index := fun heq => hi (heq.trans (h.index_of_getElem? hl))
      rw [Option.map_some, Option.map_some, Arena.nodeOf_concat_of_ne hne]

/-- The nodes that a commit adds are not split yet. -/
theorem nodeOf_of_added {c : Commit ν} {l : Leaf ν} (h : Ledger examples root commits unsplit)
    (hc : c.target < 2 * commits.length + 1) (hl : 2 * commits.length + 1 ≤ l.index) :
    nodeOf (commits ++ [c]) l = Arena.unsplitNode l := by
  refine Arena.nodeOf_of_forall_ne (List.forall_mem_append.2
    ⟨fun d hd => ?_, List.forall_mem_singleton.2 (by omega)⟩)
  have hd := h.target_lt hd
  omega

theorem nodes_concat {c : Candidate ν} {n : Leaf ν}
    (h : Ledger examples root commits (c.leaf ::ₘ rest))
    (hn : (nodesBelow root commits)[c.leaf.index]? = some n) :
    let commit := Growth.commitOf commits.length c
    (ofCommits root (commits ++ [commit])).nodes =
      (ofCommits root commits).nodes.set c.leaf.index { nodeOf commits n with
        split := some (c.entry, 2 * commits.length + 1, 2 * commits.length + 2) } ++
      [Arena.unsplitNode commit.yes, Arena.unsplitNode commit.no] := by
  intro commit
  have htarget : commit.target < 2 * commits.length + 1 := by
    rw [← length_nodesBelow root commits]
    exact (List.getElem?_eq_some_iff.1 hn).1
  have hyes := h.nodeOf_of_added (l := commit.yes) htarget (Nat.le_refl _)
  have hno := h.nodeOf_of_added (l := commit.no) htarget (Nat.le_succ _)
  have hset := h.map_nodeOf_concat (c := commit) hn
  rw [ofCommits, nodesBelow_append, List.map_append, hset, List.map_cons, List.map_singleton, hyes,
    hno]
  rfl

/-- Carrying out a split in the arena of some commits makes the arena of one commit more. -/
theorem commit_ofCommits {c : Candidate ν} (h : Ledger examples root commits (c.leaf ::ₘ rest)) :
    (ofCommits root commits).commit? c =
      some (ofCommits root (commits ++ [Growth.commitOf commits.length c])) := by
  obtain ⟨n, hn, hbare⟩ := h.node_at_index (Multiset.mem_cons_self c.leaf rest)
  have hnode := Arena.getElem?_ofCommits hn
  have hdepth : (nodeOf commits n).depth = c.leaf.depth := Leaf.depth_of_bare_eq hbare
  have hyes : Arena.unsplitNode (Growth.commitOf commits.length c).yes =
      ⟨(ofCommits root commits).nextOrder, (nodeOf commits n).depth + 1, c.yes.mass, c.yes.score,
        none⟩ := by
    rw [hdepth]
    rfl
  have hno : Arena.unsplitNode (Growth.commitOf commits.length c).no =
      ⟨(ofCommits root commits).nextOrder + 1, (nodeOf commits n).depth + 1, c.no.mass, c.no.score,
        none⟩ := by
    rw [hdepth, ofCommits, ← UInt32.ofNat_one, ← UInt32.ofNat_add]
    rfl
  rw [Arena.commit?_eq hnode, Arena.length_ofCommits]
  refine congrArg some (Arena.ext ?_ (Arena.nextOrder_concat root commits _).symm)
  rw [h.nodes_concat hn, hyes, hno]

end Ledger

/-! ### The tree in an arena -/

open GrownTree (infoOf replay)
open Arena (ofCommits nodeOf)

namespace Arena

/-- Whether the places that are noted down lead from a place through the nodes of a grown tree. -/
def Holds (a : Arena ν) : Nat → GrownTree ν → Prop
  | place, .leaf l => ∃ n, a.nodes[place]? = some n ∧ n.info = infoOf l ∧ n.split = none
  | place, .split c yes no => ∃ n, a.nodes[place]? = some n ∧ n.info = infoOf c.candidate.leaf ∧
      n.split = some (c.candidate.entry, c.yes.index, c.no.index) ∧
      a.Holds c.yes.index yes ∧ a.Holds c.no.index no

/-- Following the places makes the same decision tree, numbers of leaves and errors included. A tree
is not higher than it has leaves, so the fuel does not run out. -/
theorem toNode?_of_holds {a : Arena ν} {place : Nat} {t : GrownTree ν} (h : a.Holds place t)
    (rank : Entry → Except Error Nat) {fuel : Nat} (hfuel : t.leaves.length ≤ fuel) (next : Nat) :
    a.toNode? rank fuel place next = some (t.toNode rank next) := by
  induction t generalizing place fuel next with
  | leaf l =>
    obtain ⟨n, hn, hinfo, hsplit⟩ := h
    cases fuel with
    | zero => exact absurd hfuel (Nat.not_succ_le_zero 0)
    | succ fuel => simp only [toNode?, hn, hsplit, hinfo, Option.bind_eq_bind, Option.bind_some,
        GrownTree.toNode, Option.pure_def]
  | split c yes no ihYes ihNo =>
    obtain ⟨n, hn, hinfo, hsplit, hyes, hno⟩ := h
    have hyesLeaves := yes.length_leaves
    have hnoLeaves := no.length_leaves
    rw [GrownTree.leaves, List.length_append] at hfuel
    cases fuel with
    | zero => omega
    | succ fuel =>
      have hyesNode : ∀ next, a.toNode? rank fuel c.yes.index next =
          some (yes.toNode rank next) := ihYes hyes (by omega)
      have hnoNode : ∀ next, a.toNode? rank fuel c.no.index next =
          some (no.toNode rank next) := ihNo hno (by omega)
      simp only [toNode?, hn, hsplit, hinfo, hyesNode, GrownTree.toNode, bind, Option.bind,
        Except.bind, pure, Except.pure]
      cases rank c.candidate.entry with
      | error e => rfl
      | ok id =>
        cases yes.toNode rank next with
        | error e => rfl
        | ok node =>
          simp only [hnoNode]
          cases no.toNode rank node.2 with
          | error e => rfl
          | ok node => rfl

end Arena

namespace Ledger

variable {examples : List (Handle (Example ν))} {root m : Leaf ν} {commits : List (Commit ν)}
  {unsplit : Multiset (Leaf ν)} {c : Commit ν}

theorem find?_target (h : Ledger examples root commits unsplit) (hc : c ∈ commits) :
    commits.find? (fun d => d.target == c.target) = some c := by
  have hnodup := Multiset.nodup_range (2 * commits.length + 1)
  rw [← h.accounted] at hnodup
  have htargets : (commits.map Commit.target).Nodup :=
    Multiset.coe_nodup.1 (Multiset.nodup_add.1 hnodup).2.1
  have hsome : (commits.find? fun d => d.target == c.target).isSome :=
    List.find?_isSome.2 ⟨c, hc, beq_self_eq_true _⟩
  obtain ⟨d, hd⟩ := Option.isSome_iff_exists.1 hsome
  have htarget : d.target = c.target := by
    have hfound := List.find?_some hd
    exact beq_iff_eq.1 hfound
  rw [hd, List.inj_on_of_nodup_map htargets (List.mem_of_find?_eq_some hd) hc htarget]

theorem holds_of_rooted (h : Ledger examples root commits unsplit) {t : GrownTree ν}
    (hleaves : ∀ l ∈ t.leaves, l.index ∈ unsplit.map Leaf.index)
    (hsplits : ∀ c ∈ t.splits, c ∈ commits) (hm : m ∈ nodesBelow root commits)
    (hrooted : t.Rooted m) : (ofCommits root commits).Holds m.index t := by
  have hinfo : ∀ {l m : Leaf ν}, l.bare = m.bare → (nodeOf commits m).info = infoOf l :=
    fun hbare => Arena.nodeOf_of_bare_eq hbare commits ▸ Arena.info_nodeOf commits _
  induction t generalizing m with
  | leaf l =>
    have hindex : l.index = m.index := Leaf.index_of_bare_eq hrooted
    have hopen := (h.mem_indices_iff.1 (hleaves l (List.mem_singleton_self l))).2
    refine ⟨nodeOf commits m, Arena.getElem?_ofCommits (h.getElem?_index hm), hinfo hrooted, ?_⟩
    rw [Arena.nodeOf_of_forall_ne (hindex ▸ hopen)]
    rfl
  | split c yes no ihYes ihNo =>
    obtain ⟨hbare, hyes, hno⟩ := hrooted
    have hc : c ∈ commits := hsplits c (List.mem_cons_self ..)
    have hchildren := children_mem_nodesBelow root hc
    have htarget : c.target = m.index := Leaf.index_of_bare_eq hbare
    refine ⟨nodeOf commits m, Arena.getElem?_ofCommits (h.getElem?_index hm), hinfo hbare, ?_, ?_, ?_⟩
    · rw [nodeOf, ← htarget, h.find?_target hc]
      rfl
    · exact ihYes (fun l hl => hleaves l (List.mem_append_left _ hl)) (fun d hd => hsplits d
        (List.mem_cons_of_mem c (List.mem_append_left _ hd))) hchildren.1 hyes
    · exact ihNo (fun l hl => hleaves l (List.mem_append_right _ hl)) (fun d hd => hsplits d
        (List.mem_cons_of_mem c (List.mem_append_right _ hd))) hchildren.2 hno

theorem holds_replay (h : Ledger examples root commits unsplit) (hroot : root.index = 0) :
    (ofCommits root commits).Holds 0 (replay root commits) := by
  have hholds := h.holds_of_rooted (fun l hl => ?_) (fun c hc => h.tree_splits.mem_iff.1 hc)
    (List.mem_cons_self ..) h.tree_rooted
  · rwa [hroot] at hholds
  · rw [← h.tree_indices]
    exact List.mem_map_of_mem hl

end Ledger

variable [Arithmetic ν] {scorer : Scorer ν} {source : DrawSource γ} {maxLeaves : Nat} {draws : γ}
  {examples : List (Handle (Example ν))} {steps : List (Step ν)} {s : Stage ν γ}

/-- Whether an arena tells the same as the commits of a growth. -/
structure Growth.BackedBy (g : Growth ν γ) (a : Arena ν) : Prop where
  /-- The next commit gives its children the places after the last node. -/
  places : ∀ c : Candidate ν, (commitOf g.commits.length c).yes.index = a.nodes.length ∧
    (commitOf g.commits.length c).no.index = a.nodes.length + 1
  /-- The next commit gives its children the numbers that the counter gives out. -/
  orders : ∀ c : Candidate ν, (commitOf g.commits.length c).yes.order = a.nextOrder.toNat ∧
    (commitOf g.commits.length c).no.order = (a.nextOrder + 1).toNat
  holds : a.Holds 0 g.tree
  /-- The places lead to the decision tree of the commits. -/
  toNode?_eq : ∀ rank, a.toNode? rank a.nodes.length 0 0 = some (g.tree.toNode rank 0)

namespace Stage

theorem commitAll?_of_reaches
    (h : Reaches scorer source maxLeaves (between steps (Growth.start scorer draws examples)) s) :
    (Arena.start s.growth.root.mass s.growth.root.score).commitAll? s.growth.commits =
      some (ofCommits s.growth.root s.growth.commits) := by
  refine invariant_of_reaches (P := fun s =>
    (Arena.start s.growth.root.mass s.growth.root.score).commitAll? s.growth.commits =
      some (ofCommits s.growth.root s.growth.commits)) h rfl fun a b hsound ih hnext => ?_
  have hroot : b.growth.root = a.growth.root := by
    rw [(sound_next hsound hnext).growing.root_eq, hsound.growing.root_eq]
  rw [hroot]
  rcases commits_next hnext with heq | ⟨step, before, todo, g, c, queue, rfl, hqueue, heq⟩
  · rw [heq]
    exact ih
  · have hledger := hsound.growing.ledger
    rw [growth, Growth.leaves_of_next? hqueue, Multiset.cons_add] at hledger
    rw [growth] at ih ⊢
    rw [heq, Arena.commitAll?_concat, ih, Option.bind_some]
    exact hledger.commit_ofCommits

/-- A run can keep its nodes in an arena instead of its commits. -/
theorem exists_backedBy_of_reaches
    (h : Reaches scorer source maxLeaves (between steps (Growth.start scorer draws examples)) s) :
    ∃ a, (Arena.start s.growth.root.mass s.growth.root.score).commitAll? s.growth.commits = some a ∧
      s.growth.BackedBy a := by
  have hledger := (sound_of_reaches h).growing.ledger
  have hroot : s.growth.root.index = 0 := by
    rw [(sound_of_reaches h).growing.root_eq]
    rfl
  have hcount := Arena.length_ofCommits s.growth.root s.growth.commits
  have hholds := hledger.holds_replay hroot
  refine ⟨_, commitAll?_of_reaches h, fun c => ?_, fun c => ?_, hholds, fun rank => ?_⟩
  · rw [hcount]
    exact ⟨rfl, rfl⟩
  · rw [ofCommits, ← UInt32.ofNat_one, ← UInt32.ofNat_add, UInt32.toNat_ofNat', UInt32.toNat_ofNat']
    exact ⟨rfl, rfl⟩
  · refine Arena.toNode?_of_holds hholds rank ?_ 0
    rw [hcount, GrownTree.length_leaves, hledger.tree_splits.length_eq]
    omega

end Stage

theorem Growth.exists_backedBy_of_run (scorer : Scorer ν) (source : DrawSource γ) (draws : γ)
    (plan : TrainingPlan ν) (examples : List (Handle (Example ν))) :
    let g := run scorer source draws plan examples
    ∃ a, (Arena.start g.root.mass g.root.score).commitAll? g.commits = some a ∧ g.BackedBy a :=
  Stage.exists_backedBy_of_reaches (Stage.reaches_runSteps plan.steps (start scorer draws examples))

end QuestionTree
