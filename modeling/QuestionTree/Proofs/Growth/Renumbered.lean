import QuestionTree.Proofs.Growth.Conversion
import QuestionTree.Proofs.Growth.Placement

/-!
# Runs whose questions have other numbers

The number of a question depends on all questions that were put on offer before. Two runs stand
beside each other if they make the same commits up to the questions, and to every question that is
on offer in one corresponds an equal one in the other, in the same order; the other run may have
more questions on offer. The decision tree of a run ranks the questions that were used, so the runs
have the same one.
-/

namespace QuestionTree

variable {ν γ : Type}

/-! ### Trees -/

/-- Whether two commits are the same but for the questions left to the leaves. -/
structure Commit.Paired (pairs : List (Entry × Entry)) (c c' : Commit ν) : Prop where
  entry : (c.candidate.entry, c'.candidate.entry) ∈ pairs
  leaf_eq : c.candidate.leaf.bare = c'.candidate.leaf.bare
  yes_eq : c.yes.bare = c'.yes.bare
  no_eq : c.no.bare = c'.no.bare

theorem Commit.Paired.mono {pairs pairs' : List (Entry × Entry)} {c c' : Commit ν}
    (h : c.Paired pairs c') (hsub : pairs ⊆ pairs') : c.Paired pairs' c' :=
  ⟨hsub h.entry, h.leaf_eq, h.yes_eq, h.no_eq⟩

namespace GrownTree

/-- Whether two trees are the same up to questions that stand for each other. -/
inductive Paired (pairs : List (Entry × Entry)) : GrownTree ν → GrownTree ν → Prop where
  | leaf {l l' : Leaf ν} (h : l.bare = l'.bare) : Paired pairs (leaf l) (leaf l')
  | split {c c' : Commit ν} {yes yes' no no' : GrownTree ν} (h : c.Paired pairs c')
    (hyes : Paired pairs yes yes') (hno : Paired pairs no no') :
    Paired pairs (split c yes no) (split c' yes' no')

variable {pairs : List (Entry × Entry)} {t t' : GrownTree ν}

theorem Paired.apply (h : t.Paired pairs t') {c c' : Commit ν} (hc : c.Paired pairs c') :
    (t.apply c).Paired pairs (t'.apply c') := by
  induction h with
  | leaf hl =>
    rw [GrownTree.apply, GrownTree.apply, Leaf.index_of_bare_eq hl,
      Leaf.index_of_bare_eq hc.leaf_eq]
    split
    · exact .split hc (.leaf hc.yes_eq) (.leaf hc.no_eq)
    · exact .leaf hl
  | split hd _ _ ihYes ihNo => exact .split hd ihYes ihNo

theorem Paired.replay {commits commits' : List (Commit ν)}
    (h : List.Forall₂ (Commit.Paired pairs) commits commits') (root : Leaf ν) :
    (replay root commits).Paired pairs (GrownTree.replay root commits') :=
  List.rel_foldl (fun _ _ ht _ _ hc => ht.apply hc) (.leaf rfl) h

/-- The decision trees are the same if questions that stand for each other have the same rank. -/
theorem Paired.toNode_eq (h : t.Paired pairs t') {rank rank' : Entry → Except Error Nat}
    (hrank : ∀ p ∈ pairs, rank p.1 = rank' p.2) (next : Nat) :
    t.toNode rank next = t'.toNode rank' next := by
  induction h generalizing next with
  | leaf hl => rw [toNode, toNode, infoOf_of_bare_eq hl]
  | split hc _ _ ihYes ihNo =>
    simp only [toNode, hrank _ hc.entry, ihYes, ihNo, infoOf_of_bare_eq hc.leaf_eq]

end GrownTree

/-! ### The questions that were used -/

theorem exists_of_forall₂_right {α β : Type} {R : α → β → Prop} {as : List α}
    {bs : List β} (h : List.Forall₂ R as bs) {b : β} (hb : b ∈ bs) : ∃ a ∈ as, R a b := by
  obtain ⟨i, hi, rfl⟩ := List.mem_iff_getElem.1 hb
  have hlt : i < as.length := h.length_eq ▸ hi
  exact ⟨as[i], List.getElem_mem hlt, h.get hlt hi⟩

theorem filter_eq_of_sublist {α : Type} {p : α → Bool} {as bs : List α}
    (h : as.Sublist bs) (hnodup : bs.Nodup) (hall : ∀ b ∈ bs, p b → b ∈ as) :
    as.filter p = bs.filter p := by
  refine (h.filter p).eq_of_length_le (List.Subperm.length_le ?_)
  refine (hnodup.filter p).subperm fun b hb => ?_
  obtain ⟨hb, hp⟩ := List.mem_filter.1 hb
  exact List.mem_filter.2 ⟨hall b hb hp, hp⟩

theorem findIdx?_congr {α : Type} {p q : α → Bool} {items : List α}
    (h : ∀ a ∈ items, p a = q a) : items.findIdx? p = items.findIdx? q := by
  induction items with
  | nil => rfl
  | cons a items ih =>
    obtain ⟨ha, hitems⟩ := List.forall_mem_cons.1 h
    rw [List.findIdx?_cons, List.findIdx?_cons, ha, ih hitems]

namespace Growth

/-- Whether two runs are the same up to questions that stand for each other. -/
structure Beside (pairs : List (Entry × Entry)) (g g' : Growth ν γ) : Prop where
  root_eq : g.root = g'.root
  offered_eq : g.offered = pairs.map Prod.fst
  offered : (pairs.map Prod.snd).Sublist g'.offered
  question_eq : ∀ p ∈ pairs, p.1.question = p.2.question
  commits : List.Forall₂ (Commit.Paired pairs) g.commits g'.commits

namespace Beside

variable {pairs : List (Entry × Entry)} {g g' : Growth ν γ}

/-- The pairs of the questions that were used. -/
def usedPairs (pairs : List (Entry × Entry)) (g : Growth ν γ) : List (Entry × Entry) :=
  pairs.filter fun p => !(g.commitsOf p.1).isEmpty

theorem mem_usedPairs_iff {p : Entry × Entry} :
    p ∈ usedPairs pairs g ↔
      p ∈ pairs ∧ ∃ c ∈ g.commits, c.candidate.entry.id = p.1.id := by
  rw [usedPairs, List.mem_filter, not_isEmpty_commitsOf_iff]

/-- The runs are side by side with the used questions alone, as far as commits are concerned. -/
theorem commits_used (h : g.Beside pairs g') :
    List.Forall₂ (Commit.Paired (usedPairs pairs g)) g.commits g'.commits := by
  have hmem : List.Forall₂ (fun c c' => c ∈ g.commits ∧ c.Paired pairs c') g.commits g'.commits :=
    (List.forall₂_and_left _ _).2 ⟨fun _ hc => hc, h.commits⟩
  refine hmem.imp fun c c' hc => ⟨?_, hc.2.leaf_eq, hc.2.yes_eq, hc.2.no_eq⟩
  exact mem_usedPairs_iff.2 ⟨hc.2.entry, c, hc.1, rfl⟩

theorem used_fst (h : g.Beside pairs g') : g.used = (usedPairs pairs g).map Prod.fst := by
  rw [used, h.offered_eq, List.filter_map]
  rfl

variable (hids : (g.offered.map Entry.id).Nodup) (hids' : (g'.offered.map Entry.id).Nodup)

include hids hids'

theorem id_eq_iff (h : g.Beside pairs g') {p q : Entry × Entry} (hp : p ∈ pairs) (hq : q ∈ pairs) :
    p.1.id = q.1.id ↔ p.2.id = q.2.id := by
  have hleft : (pairs.map fun p => p.1.id).Nodup := by
    rw [h.offered_eq, List.map_map] at hids
    exact hids
  have hright : (pairs.map fun p => p.2.id).Nodup := by
    have hnodup := (h.offered.map Entry.id).nodup hids'
    rw [List.map_map] at hnodup
    exact hnodup
  constructor
  · intro heq
    rw [List.inj_on_of_nodup_map hleft hp hq heq]
  · intro heq
    rw [List.inj_on_of_nodup_map hright hp hq heq]

theorem used_iff (h : g.Beside pairs g') {p : Entry × Entry} (hp : p ∈ pairs) :
    (∃ c' ∈ g'.commits, c'.candidate.entry.id = p.2.id) ↔
      ∃ c ∈ g.commits, c.candidate.entry.id = p.1.id := by
  constructor
  · rintro ⟨c', hc', hid⟩
    obtain ⟨c, hc, hpaired⟩ := exists_of_forall₂_right h.commits hc'
    exact ⟨c, hc, (h.id_eq_iff hids hids' hpaired.entry hp).2 hid⟩
  · rintro ⟨c, hc, hid⟩
    obtain ⟨c', hc', hpaired⟩ := exists_of_forall₂_right h.commits.flip hc
    exact ⟨c', hc', (h.id_eq_iff hids hids' hpaired.entry hp).1 hid⟩

theorem used_snd (h : g.Beside pairs g') : g'.used = (usedPairs pairs g).map Prod.snd := by
  have hstands : ∀ e ∈ g'.offered, (!(g'.commitsOf e).isEmpty) = true → e ∈ pairs.map Prod.snd := by
    intro e he huses
    obtain ⟨c', hc', hid⟩ := not_isEmpty_commitsOf_iff.1 huses
    obtain ⟨c, _, hpaired⟩ := exists_of_forall₂_right h.commits hc'
    have hmem : c'.candidate.entry ∈ pairs.map Prod.snd := List.mem_map_of_mem hpaired.entry
    exact List.inj_on_of_nodup_map hids' (h.offered.mem hmem) he hid ▸ hmem
  have hfilter := filter_eq_of_sublist h.offered (List.Nodup.of_map _ hids') hstands
  rw [used, ← hfilter, List.filter_map, usedPairs]
  refine congrArg (List.map Prod.snd) (List.filter_congr fun p hp => ?_)
  rw [Bool.eq_iff_iff, Function.comp_apply, not_isEmpty_commitsOf_iff, not_isEmpty_commitsOf_iff,
    h.used_iff hids hids' hp]

theorem rank_eq (h : g.Beside pairs g') {p : Entry × Entry} (hp : p ∈ usedPairs pairs g) :
    g.rank p.1 = g'.rank p.2 := by
  have hpairs : ∀ {q}, q ∈ usedPairs pairs g → q ∈ pairs := fun hq => (List.mem_filter.1 hq).1
  have hsame : (usedPairs pairs g).findIdx? (fun q => q.1.id == p.1.id) =
      (usedPairs pairs g).findIdx? fun q => q.2.id == p.2.id := by
    refine findIdx?_congr fun q hq => ?_
    rw [Bool.eq_iff_iff, beq_iff_eq, beq_iff_eq, h.id_eq_iff hids hids' (hpairs hq) (hpairs hp)]
  have hfound : ((usedPairs pairs g).findIdx? fun q => q.2.id == p.2.id).isSome := by
    rw [List.findIdx?_isSome, List.any_eq_true]
    exact ⟨p, hp, beq_self_eq_true _⟩
  obtain ⟨place, hplace⟩ := Option.isSome_iff_exists.1 hfound
  rw [rank, rank, h.used_fst, h.used_snd hids hids', List.findIdx?_map, List.findIdx?_map]
  simp only [Function.comp_def, hsame, hplace]

/-- The decision trees of runs side by side are the same. -/
theorem decisionTree_eq (h : g.Beside pairs g') (schema : Schema) :
    g.decisionTree schema = g'.decisionTree schema := by
  have hpool : g.used.map Entry.question = g'.used.map Entry.question := by
    rw [h.used_fst, h.used_snd hids hids', List.map_map, List.map_map]
    refine List.map_congr_left fun p hp => ?_
    exact h.question_eq p (List.mem_filter.1 hp).1
  have htree : g.tree.Paired (usedPairs pairs g) g'.tree := by
    rw [tree, tree, h.root_eq]
    exact GrownTree.Paired.replay h.commits_used g'.root
  have hnode := htree.toNode_eq (fun p hp => h.rank_eq hids hids' hp) 0
  rw [decisionTree, decisionTree, hpool, hnode]

end Beside

end Growth

end QuestionTree
