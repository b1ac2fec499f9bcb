import QuestionTree.Proofs.Growth.Account
import QuestionTree.Sampling

/-!
# Places that a run looks up

A run looks up questions by their numbers and by their slots, and counts its nodes in words of
thirty-two bits. `Stage.InRange` says that at a moment of a run every such place exists and no count
overflows. The slots come from outside, so they are in range only if the source of the draws returns
items of the list that it is given, which is all that `DrawSource.Lawful` asks. The nodes are few
because both sides of a split have some mass and hence an example: apart from the first leaf, there
are no more leaves than examples.
-/

namespace QuestionTree

variable {ν γ : Type}

namespace DrawSource

/-- Whether only items of the list are drawn. -/
def Lawful (source : DrawSource γ) : Prop :=
  ∀ size items state, ∀ n ∈ (source.draw size items state).1, n ∈ items

theorem mem_ascendingOrder {ns : List Nat} {n : Nat} : n ∈ ascendingOrder ns ↔ n ∈ ns :=
  (List.mergeSort_perm ns _).mem_iff

theorem Lawful.mem_of_mem_sample {source : DrawSource γ} (h : source.Lawful) {size n : Nat}
    {items : List Nat} {state : γ} (hn : n ∈ (source.sample size items state).1) : n ∈ items := by
  rw [sample] at hn
  split at hn
  · exact h size items state n (mem_ascendingOrder.1 hn)
  · exact mem_ascendingOrder.1 hn

end DrawSource

theorem Generator.mem_of_mem_take {size n : Nat} {items : List Nat} {g : Generator}
    (h : n ∈ (take size items g).1) : n ∈ items := by
  induction size generalizing items g with
  | zero => cases h
  | succ size ih =>
    cases items with
    | nil => cases h
    | cons item items =>
      have hmem : ∀ place < (item :: items).length,
          (item :: items).getD place 0 ∈ item :: items := by
        intro place hplace
        rw [List.getD_eq_getElem?_getD, List.getElem?_eq_getElem hplace]
        exact List.getElem_mem hplace
      rcases List.mem_cons.1 h with heq | h
      · rw [heq]
        exact hmem _ (Nat.mod_lt _ (Nat.succ_pos _))
      · exact List.mem_of_mem_eraseIdx (ih h)

theorem Generator.lawful_source : source.Lawful := fun _ _ _ _ h => mem_of_mem_take h

/-! ### The number of commits -/

theorem Leaf.card_le_card_members {leaves : Multiset (Leaf ν)}
    (h : ∀ l ∈ leaves, l.members ≠ []) :
    leaves.card ≤ (leaves.bind fun l => (l.members : Multiset (Handle (Example ν)))).card := by
  induction leaves using Multiset.induction with
  | empty => exact Nat.zero_le _
  | cons l leaves ih =>
    have hl : 0 < l.members.length := List.length_pos_iff.2 (h l (Multiset.mem_cons_self l leaves))
    have hrest := ih fun k hk => h k (Multiset.mem_cons_of_mem hk)
    rw [Multiset.cons_bind, Multiset.card_add, Multiset.card_cons, Multiset.coe_card]
    omega

namespace Growth

variable [Arithmetic ν] {scorer : Scorer ν} {step : Step ν}
  {examples : List (Handle (Example ν))} {steps : List (Step ν)} {current : Option (Step ν)}
  {waiting : List (Leaf ν)} {g : Growth ν γ}

/-- Both sides of a split that was admitted have an example. -/
theorem sides_ne_nil (hzero : (0 : ν) ≤ 0) {c : Candidate ν} (h : c.Admitted scorer step) :
    c.yes.members ≠ [] ∧ c.no.members ≠ [] := by
  refine ⟨fun hnil => h.massive (.inl ?_), fun hnil => h.massive (.inr ?_)⟩
  · rw [h.yes_mass, hnil]
    exact hzero
  · rw [h.no_mass, hnil]
    exact hzero

theorem Sound.members_ne_nil (h : g.Sound scorer examples steps current waiting)
    (hzero : (0 : ν) ≤ 0) {n : Leaf ν} (hn : n ∈ nodesBelow g.root g.commits)
    (hindex : n.index ≠ 0) : n.members ≠ [] := by
  rcases List.mem_cons.1 hn with rfl | hn
  · rw [h.root_eq] at hindex
    exact absurd rfl hindex
  · obtain ⟨c, hc, hchild⟩ := List.mem_flatMap.1 hn
    obtain ⟨step, _, hadmitted⟩ := h.committed c hc
    obtain ⟨i, hi⟩ := List.mem_iff_getElem?.1 hc
    obtain ⟨hyes, hno⟩ := sides_ne_nil hzero hadmitted
    have hcommit := h.ledger.numbered i c hi
    rcases List.mem_cons.1 hchild with rfl | hchild
    · rw [hcommit]
      exact hyes
    · rw [List.mem_singleton.1 hchild, hcommit]
      exact hno

/-- There are no more commits than examples. -/
theorem Sound.length_commits_le (h : g.Sound scorer examples steps current waiting)
    (hzero : (0 : ν) ≤ 0) : g.commits.length ≤ examples.length := by
  have hcard := h.ledger.card_unsplit
  have hnodup := h.ledger.nodup_indices
  have hshared := congrArg Multiset.card h.ledger.shared
  have hmembers : ∀ l ∈ g.leaves + waiting, l.index ≠ 0 → l.members ≠ [] := by
    intro l hl hindex
    obtain ⟨n, hn, hbare⟩ := h.ledger.node_at_index hl
    rw [← Leaf.members_of_bare_eq hbare]
    rw [← Leaf.index_of_bare_eq hbare] at hindex
    exact h.members_ne_nil hzero (List.mem_of_getElem? hn) hindex
  rw [Multiset.coe_card] at hshared
  generalize g.leaves + (waiting : Multiset (Leaf ν)) = leaves at hcard hnodup hshared hmembers
  -- the first leaf may be empty, and no other leaf has its index
  by_cases hfirst : ∃ l ∈ leaves, l.index = 0
  · obtain ⟨l, hl, hindex⟩ := hfirst
    obtain ⟨rest, rfl⟩ := Multiset.exists_cons_of_mem hl
    rw [Multiset.map_cons, Multiset.nodup_cons, hindex] at hnodup
    have hrest := Leaf.card_le_card_members fun k hk =>
      hmembers k (Multiset.mem_cons_of_mem hk) fun hzero =>
        hnodup.1 (hzero ▸ Multiset.mem_map_of_mem _ hk)
    rw [Multiset.cons_bind, Multiset.card_add] at hshared
    rw [Multiset.card_cons] at hcard
    omega
  · have hall := Leaf.card_le_card_members fun k hk =>
      hmembers k hk fun hzero => hfirst ⟨k, hk, hzero⟩
    omega

end Growth

/-! ### The moments of a run -/

namespace Stage

/-- Whether every place that is looked up at a moment of a run exists. -/
structure InRange (source : DrawSource γ) (s : Stage ν γ) : Prop where
  /-- A question on offer is found under its number. -/
  offered : ∀ e ∈ s.growth.offered, s.growth.offered[e.id]? = some e
  leaf_entries : ∀ l ∈ s.unsplit, ∀ e ∈ l.entries, e ∈ s.growth.offered
  /-- The questions that waiting leaves are offered with are on offer. -/
  step_entries : ∀ e ∈ s.entries, e ∈ s.growth.offered
  commit_entries : ∀ c ∈ s.growth.commits, c.candidate.entry ∈ s.growth.offered
  /-- The slots that are tried for questions are slots of these questions. -/
  drawn : ∀ (entries : List Entry) (size : Nat) (draws : γ),
    ∀ slot ∈ (source.sample size (List.range entries.length) draws).1, slot < entries.length
  /-- The slot of a split in the queue is a slot of its leaf. -/
  slot : ∀ c ∈ s.growth.queue.toList, c.slot < c.leaf.entries.length
  /-- The nodes are counted in words of thirty-two bits. -/
  counted : ∀ n ∈ s.nodes, n.index + 1 < UInt32.size

variable [Arithmetic ν] {scorer : Scorer ν} {source : DrawSource γ} {maxLeaves : Nat}
  {examples : List (Handle (Example ν))} {steps : List (Step ν)} {s : Stage ν γ}

theorem inRange_of_reaches {draws : γ} (hzero : (0 : ν) ≤ 0) (hsource : source.Lawful)
    (hsize : 2 * examples.length + 1 < UInt32.size)
    (h : Reaches scorer source maxLeaves (between steps (Growth.start scorer draws examples)) s) :
    s.InRange source := by
  obtain ⟨hsound, _, hentries⟩ := sound_of_reaches h
  have hunsplit : ∀ l, l ∈ s.unsplit ↔ l ∈ s.growth.leaves + (s.waiting : Multiset (Leaf ν)) := by
    intro l
    rw [← coe_unsplit, Multiset.mem_coe]
  refine ⟨?_, ?_, hentries, hsound.commit_entries, ?_, ?_, ?_⟩
  · intro e he
    obtain ⟨i, hi⟩ := List.mem_iff_getElem?.1 he
    rw [hsound.id_of_getElem? hi, hi]
  · intro l hl e he
    exact hsound.leaf_entries l ((hunsplit l).1 hl) e he
  · intro entries size draws slot hslot
    exact List.mem_range.1 (hsource.mem_of_mem_sample hslot)
  · intro c hc
    obtain ⟨step, _, hadmitted⟩ := hsound.queued c hc
    exact (List.getElem?_eq_some_iff.1 hadmitted.entry_at_slot).1
  · intro n hn
    have hindex : n.index ∈ (nodesBelow s.growth.root s.growth.commits).map Leaf.index :=
      List.mem_map_of_mem hn
    rw [hsound.ledger.indexed, List.mem_range] at hindex
    have hcommits := hsound.length_commits_le hzero
    omega

end Stage

end QuestionTree
