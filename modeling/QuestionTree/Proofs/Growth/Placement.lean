import QuestionTree.Proofs.Growth.Conversion

/-!
# Where the commits of a run stand

The nodes of the decision tree of a run show the leaves that growth went through. A node is at the
place that is passed by the examples of its leaf: they were handed on by the commits above it, and
each of them asked the question that is asked at its node. The inner nodes stand for the commits,
one for each, but in the order of the tree and not in that of time.
-/

namespace QuestionTree

variable {ν γ : Type}

/-- Whether the children of a commit share out the examples of its leaf by its question. -/
structure Commit.Divides (c : Commit ν) : Prop where
  yes_members : c.yes.members =
    c.candidate.leaf.members.filter c.candidate.entry.question.item.affirms
  no_members : c.no.members =
    c.candidate.leaf.members.filter fun e => !c.candidate.entry.question.item.affirms e

/-- Whether the node at a place of a tree stands for a commit. -/
structure Commit.StandsAt (c : Commit ν) (rank : Entry → Except Error Nat) (pool : QuestionPool)
    (n : Node (NodeInfo ν)) (members : List (Handle (Example ν)))
    (s : List Bool × Node (NodeInfo ν)) : Prop where
  /-- The examples of the leaf that was split are those that pass the place. -/
  leaf_members : c.candidate.leaf.members =
    members.filter fun e => n.passes pool s.1 e.item.record
  node_eq : ∃ id yes no, s.2 = .internal id (GrownTree.infoOf c.candidate.leaf) yes no ∧
    rank c.candidate.entry = .ok id ∧ yes.info = GrownTree.infoOf c.yes ∧
    no.info = GrownTree.infoOf c.no

variable {pool : QuestionPool} {rank : Entry → Except Error Nat}

theorem Commit.StandsAt.below {c : Commit ν} {id : Nat} {info : NodeInfo ν}
    {yes no : Node (NodeInfo ν)} {q : Handle Question} {branch : Bool}
    {members handed : List (Handle (Example ν))} {s : List Bool × Node (NodeInfo ν)}
    (hq : pool.require id = .ok q)
    (hhanded : handed = members.filter fun e => branch == q.item.affirms e)
    (h : c.StandsAt rank pool (if branch then yes else no) handed s) :
    c.StandsAt rank pool (.internal id info yes no) members (branch :: s.1, s.2) where
  leaf_members := by
    rw [h.leaf_members, hhanded, List.filter_filter]
    refine List.filter_congr fun e _ => ?_
    rw [Node.passes_cons hq, Bool.and_comm]
    rfl
  node_eq := h.node_eq

namespace GrownTree

theorem infoOf_of_bare_eq {l m : Leaf ν} (h : l.bare = m.bare) : infoOf l = infoOf m := by
  have hinfo := congrArg infoOf h
  exact hinfo

theorem toNode_split_eq_ok {c : Commit ν} {yes no : GrownTree ν} {n : Node (NodeInfo ν)}
    {next next' : Nat} (h : (split c yes no).toNode rank next = .ok (n, next')) :
    ∃ id yesNode noNode middle, rank c.candidate.entry = .ok id ∧
      yes.toNode rank next = .ok (yesNode, middle) ∧
      no.toNode rank middle = .ok (noNode, next') ∧
      n = .internal id (infoOf c.candidate.leaf) yesNode noNode := by
  rw [toNode] at h
  obtain ⟨id, hid, h⟩ := bind_eq_ok_iff.1 h
  obtain ⟨⟨yesNode, middle⟩, hyes, h⟩ := bind_eq_ok_iff.1 h
  obtain ⟨⟨noNode, last⟩, hno, h⟩ := bind_eq_ok_iff.1 h
  cases h
  exact ⟨id, yesNode, noNode, middle, hid, hyes, hno, rfl⟩

theorem info_of_shows {t : GrownTree ν} {m : Leaf ν} {n : Node (NodeInfo ν)}
    (h : t.Shows pool n) (hrooted : t.Rooted m) : n.info = infoOf m := by
  cases t with
  | leaf l =>
    cases n with
    | leaf id info => exact h.trans (infoOf_of_bare_eq hrooted)
    | internal id info yes no => cases h
  | split c yes no =>
    cases n with
    | leaf id info => cases h
    | internal id info yesNode noNode => exact h.1.trans (infoOf_of_bare_eq hrooted.1)

theorem filter_passes_nil {n : Node (NodeInfo ν)} (hasks : n.Asks pool)
    (members : List (Handle (Example ν))) :
    members.filter (fun e => n.passes pool [] e.item.record) = members :=
  List.filter_eq_self.2 fun _ _ => Node.passes_nil hasks

/-- A node that hangs below a leaf shows a leaf that holds the examples passing its place, and that
has what the first leaf has and every commit hands on to its children. -/
theorem exists_shown_leaf {P : Leaf ν → Prop} (hbare : ∀ l m : Leaf ν, l.bare = m.bare → P m → P l)
    {t : GrownTree ν} {n v : Node (NodeInfo ν)} {m : Leaf ν} {place : List Bool}
    (hshows : t.Shows pool n) (hrooted : t.Rooted m) (hm : P m)
    (hsplits : ∀ c ∈ t.splits, c.Divides ∧ P c.yes ∧ P c.no) (hv : n.at? place = some v) :
    ∃ l : Leaf ν, v.info = infoOf l ∧ P l ∧ (v.isLeaf = true → l ∈ t.leaves) ∧
      l.members = m.members.filter fun e => n.passes pool place e.item.record := by
  induction t generalizing n m place with
  | leaf l =>
    cases n with
    | internal id info yes no => cases hshows
    | leaf id info =>
      cases place with
      | cons branch place => cases hv
      | nil =>
        cases hv
        refine ⟨l, hshows, hbare l m hrooted hm, fun _ => List.mem_singleton_self l, ?_⟩
        rw [filter_passes_nil (asks_of_shows hshows), Leaf.members_of_bare_eq hrooted]
  | split c yes no ihYes ihNo =>
    cases n with
    | leaf id info => cases hshows
    | internal id info yesNode noNode =>
      have hasks := asks_of_shows hshows
      obtain ⟨hinfo, hquestion, hyesShows, hnoShows⟩ := hshows
      obtain ⟨hcommon, hyesRooted, hnoRooted⟩ := hrooted
      have hmembers := Leaf.members_of_bare_eq hcommon
      obtain ⟨hdivides, hyes, hno⟩ := hsplits c (List.mem_cons_self ..)
      -- the first branch of the place is the answer that hands an example to that side
      match place with
      | [] =>
        cases hv
        refine ⟨c.candidate.leaf, hinfo, hbare _ m hcommon hm, fun hleaf => ?_, ?_⟩
        · cases hleaf
        · rw [filter_passes_nil hasks, hmembers]
      | true :: place =>
        obtain ⟨l, hl, hP, hleaf, hfilter⟩ := ihYes hyesShows hyesRooted hyes
          (fun d hd => hsplits d (List.mem_cons_of_mem c (List.mem_append_left _ hd))) hv
        refine ⟨l, hl, hP, fun hend => List.mem_append_left _ (hleaf hend), ?_⟩
        rw [hfilter, hdivides.yes_members, List.filter_filter, hmembers]
        refine List.filter_congr fun e _ => ?_
        rw [Node.passes_yes hquestion, Bool.and_comm]
        rfl
      | false :: place =>
        obtain ⟨l, hl, hP, hleaf, hfilter⟩ := ihNo hnoShows hnoRooted hno
          (fun d hd => hsplits d (List.mem_cons_of_mem c (List.mem_append_right _ hd))) hv
        refine ⟨l, hl, hP, fun hend => List.mem_append_right _ (hleaf hend), ?_⟩
        rw [hfilter, hdivides.no_members, List.filter_filter, hmembers]
        refine List.filter_congr fun e _ => ?_
        rw [Node.passes_no hquestion, Bool.and_comm]
        rfl

/-- The inner nodes stand for the splits. -/
theorem forall₂_of_toNode {t : GrownTree ν} {m : Leaf ν} {n : Node (NodeInfo ν)}
    {next next' : Nat} (h : t.toNode rank next = .ok (n, next')) (hshows : t.Shows pool n)
    (hrooted : t.Rooted m) (hdivides : ∀ c ∈ t.splits, c.Divides) :
    List.Forall₂ (fun s c => c.StandsAt rank pool n m.members s) n.inner t.splits := by
  induction t generalizing n m next next' with
  | leaf l =>
    cases h
    exact .nil
  | split c yes no ihYes ihNo =>
    obtain ⟨id, yesNode, noNode, middle, hid, hyes, hno, rfl⟩ := toNode_split_eq_ok h
    have hasks := asks_of_shows hshows
    obtain ⟨_, hquestion, hyesShows, hnoShows⟩ := hshows
    obtain ⟨hbare, hyesRooted, hnoRooted⟩ := hrooted
    have hmembers := Leaf.members_of_bare_eq hbare
    have hhands := hdivides c (List.mem_cons_self ..)
    have hyesHanded : c.yes.members =
        m.members.filter fun e => true == c.candidate.entry.question.item.affirms e := by
      rw [hhands.yes_members, hmembers]
      exact List.filter_congr fun e _ => (Bool.true_beq _).symm
    have hnoHanded : c.no.members =
        m.members.filter fun e => false == c.candidate.entry.question.item.affirms e := by
      rw [hhands.no_members, hmembers]
      exact List.filter_congr fun e _ => (Bool.false_beq _).symm
    have hyesSplits := ihYes hyes hyesShows hyesRooted
      fun d hd => hdivides d (List.mem_cons_of_mem c (List.mem_append_left _ hd))
    have hnoSplits := ihNo hno hnoShows hnoRooted
      fun d hd => hdivides d (List.mem_cons_of_mem c (List.mem_append_right _ hd))
    rw [Node.inner, splits]
    refine .cons ⟨?_, id, yesNode, noNode, rfl, hid, info_of_shows hyesShows hyesRooted,
      info_of_shows hnoShows hnoRooted⟩ (List.rel_append ?_ ?_)
    · rw [filter_passes_nil hasks, hmembers]
    · exact List.forall₂_map_left_iff.2 (hyesSplits.imp fun _ _ hd => hd.below hquestion hyesHanded)
    · exact List.forall₂_map_left_iff.2 (hnoSplits.imp fun _ _ hd => hd.below hquestion hnoHanded)

end GrownTree

namespace Growth.Sound

variable [Arithmetic ν] {scorer : Scorer ν} {examples : List (Handle (Example ν))}
  {steps : List (Step ν)} {current : Option (Step ν)} {waiting : List (Leaf ν)} {g : Growth ν γ}

theorem sides_of_commit (h : g.Sound scorer examples steps current waiting) {c : Commit ν}
    (hc : c ∈ g.commits) :
    (c.yes.mass = c.candidate.yes.mass ∧ c.yes.score = c.candidate.yes.score ∧
      c.yes.members = c.candidate.yes.members) ∧
    c.no.mass = c.candidate.no.mass ∧ c.no.score = c.candidate.no.score ∧
      c.no.members = c.candidate.no.members := by
  obtain ⟨i, hi⟩ := List.mem_iff_getElem?.1 hc
  rw [h.ledger.numbered i c hi]
  exact ⟨⟨rfl, rfl, rfl⟩, rfl, rfl, rfl⟩

theorem divides (h : g.Sound scorer examples steps current waiting) {c : Commit ν}
    (hc : c ∈ g.commits) : c.Divides := by
  obtain ⟨step, _, hadmitted⟩ := h.committed c hc
  obtain ⟨⟨_, _, hyes⟩, _, _, hno⟩ := h.sides_of_commit hc
  exact ⟨hyes.trans hadmitted.yes_members, hno.trans hadmitted.no_members⟩

theorem mass_of_commit (h : g.Sound scorer examples steps current waiting) {c : Commit ν}
    (hc : c ∈ g.commits) :
    c.candidate.leaf.mass =
      Example.totalMass (c.candidate.leaf.members.map Handle.item) := by
  obtain ⟨n, hn, hbare⟩ := List.mem_map.1 (h.ledger.split_known c hc)
  rw [← Leaf.mass_of_bare_eq hbare, ← Leaf.members_of_bare_eq hbare]
  rcases List.mem_cons.1 hn with rfl | hn
  · rw [h.root_eq]
    rfl
  · obtain ⟨d, hd, hchild⟩ := List.mem_flatMap.1 hn
    obtain ⟨step, _, hadmitted⟩ := h.committed d hd
    obtain ⟨⟨hyesMass, _, hyes⟩, hnoMass, _, hno⟩ := h.sides_of_commit hd
    rcases List.mem_cons.1 hchild with rfl | hchild
    · rw [hyesMass, hyes, hadmitted.yes_mass]
    · rw [List.mem_singleton.1 hchild, hnoMass, hno, hadmitted.no_mass]

end Growth.Sound

end QuestionTree
