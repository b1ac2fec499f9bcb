import QuestionTree.Proofs.Growth.OnHeap
import QuestionTree.Proofs.Growth.Single

/-!
# Outlines

A step that draws nothing searches the same split for a leaf whenever it is offered. What decides
how such a step goes on is therefore the `Outline` of a growing tree, which forgets in which order
the leaves are open and where the heap keeps its splits. Offers can change places, and the heap has
no choice between two splits: they are splits of different leaves, so their priorities differ as
long as the words that count the nodes do.
-/

namespace QuestionTree

variable {ν γ : Type}

/-- A growing tree whose open leaves and waiting splits are in no order. -/
structure Outline (ν γ : Type) where
  root : Leaf ν
  draws : γ
  offered : List Entry
  commits : List (Commit ν)
  opened : Multiset (Leaf ν)
  waiting : Multiset (Candidate ν)

variable [Arithmetic ν] {scorer : Scorer ν} {source : DrawSource γ} {step : Step ν}

/-! ### Searches without draws -/

/-- The split that waits for a leaf after a search of all its questions. -/
def Leaf.split? (scorer : Scorer ν) (step : Step ν) (l : Leaf ν) : Option (Candidate ν) :=
  if l.mass < step.minObs + step.minObs then none
  else best (l.trials scorer step (DrawSource.ascendingOrder (List.range l.entries.length)))

theorem Leaf.leaf_of_split? {l : Leaf ν} {c : Candidate ν} (h : l.split? scorer step = some c) :
    c.leaf = l := by
  rw [split?] at h
  split at h
  · cases h
  · rename_i hmass
    exact (admitted_of_best hmass h).2

theorem Growth.offer_plain (scorer : Scorer ν) (source : DrawSource γ)
    (hplain : ¬ 1 < step.drawSize) (g : Growth ν γ) (l : Leaf ν) :
    (l.split? scorer step = none ∧ ∃ events, g.offer scorer source step l =
        { g with events := events, opened := g.opened ++ [l] }) ∨
    ∃ c events, l.split? scorer step = some c ∧ g.offer scorer source step l =
      { g with events := events, queue := g.queue.insert c } := by
  rw [offer, Leaf.split?]
  split
  · exact .inl ⟨rfl, g.events, rfl⟩
  · rw [source.sample_of_not_lt hplain]
    dsimp only
    cases Leaf.best (l.trials scorer step
        (DrawSource.ascendingOrder (List.range l.entries.length))) with
    | none => exact .inl ⟨rfl, _, rfl⟩
    | some c => exact .inr ⟨c, _, rfl, rfl⟩

/-! ### Outlines -/

namespace Outline

def offer (scorer : Scorer ν) (step : Step ν) (o : Outline ν γ) (l : Leaf ν) : Outline ν γ :=
  match l.split? scorer step with
  | none => { o with opened := l ::ₘ o.opened }
  | some c => { o with waiting := c ::ₘ o.waiting }

/-- The outline after a commit of a split that waited beside others. -/
def commit (scorer : Scorer ν) (step : Step ν) (o : Outline ν γ) (c : Candidate ν)
    (rest : Multiset (Candidate ν)) : Outline ν γ :=
  let commit := Growth.commitOf o.commits.length c
  (({ o with commits := o.commits ++ [commit], waiting := rest } : Outline ν γ).offer scorer step
    commit.yes).offer scorer step commit.no

/-- The places of the leaves among all nodes. -/
def indices (o : Outline ν γ) : Multiset Nat :=
  o.opened.map Leaf.index + o.waiting.map (·.leaf.index)

/-- Whether the leaves are different nodes of those that the commits made. -/
structure Numbered (o : Outline ν γ) : Prop where
  nodup : o.indices.Nodup
  index_lt : ∀ i ∈ o.indices, i < 2 * o.commits.length + 1

/-- Whether a split can be served before some others that wait. -/
structure Serves (o : Outline ν γ) (c : Candidate ν) (rest : Multiset (Candidate ν)) : Prop where
  waiting_eq : o.waiting = c ::ₘ rest
  leads : ∀ d ∈ rest, (Queue.rank d c).isLE

variable {o : Outline ν γ} {c c' : Candidate ν} {rest rest' : Multiset (Candidate ν)}

/-- Offers can change places. -/
instance : RightCommutative (offer scorer step : Outline ν γ → Leaf ν → Outline ν γ) where
  right_comm o l l' := by
    unfold offer
    cases l.split? scorer step <;> cases l'.split? scorer step <;>
      simp only [Multiset.cons_swap]

theorem commits_offer (o : Outline ν γ) (l : Leaf ν) :
    (o.offer scorer step l).commits = o.commits := by
  rw [offer]
  split <;> rfl

theorem commits_commit :
    (o.commit scorer step c rest).commits =
      o.commits ++ [Growth.commitOf o.commits.length c] := by
  rw [commit, commits_offer, commits_offer]

theorem indices_offer (o : Outline ν γ) (l : Leaf ν) :
    (o.offer scorer step l).indices = l.index ::ₘ o.indices := by
  rw [offer]
  split
  · rw [indices, Multiset.map_cons, Multiset.cons_add]
    rfl
  · rename_i c hc
    rw [indices, Multiset.map_cons, Multiset.add_cons, Leaf.leaf_of_split? hc]
    rfl

theorem commits_foldl_offer (ls : List (Leaf ν)) (o : Outline ν γ) :
    (ls.foldl (offer scorer step) o).commits = o.commits := by
  induction ls generalizing o with
  | nil => rfl
  | cons l ls ih => rw [List.foldl_cons, ih, commits_offer]

theorem indices_foldl_offer (ls : List (Leaf ν)) (o : Outline ν γ) :
    (ls.foldl (offer scorer step) o).indices = (ls.map Leaf.index : Multiset Nat) + o.indices := by
  induction ls generalizing o with
  | nil => exact (zero_add o.indices).symm
  | cons l ls ih =>
    rw [List.foldl_cons, ih, indices_offer, Multiset.add_cons, List.map_cons, ← Multiset.cons_coe,
      Multiset.cons_add]

/-- The leaf that is split is taken away, and the two new nodes have indices of their own. -/
theorem Numbered.commit (h : o.Numbered) (hserves : o.Serves c rest) :
    (o.commit scorer step c rest).Numbered := by
  let kept := o.opened.map Leaf.index + rest.map (·.leaf.index)
  have hbefore : o.indices = c.leaf.index ::ₘ kept := by
    rw [indices, hserves.waiting_eq, Multiset.map_cons, Multiset.add_cons]
  have hafter : (o.commit scorer step c rest).indices =
      (2 * o.commits.length + 2) ::ₘ (2 * o.commits.length + 1) ::ₘ kept := by
    rw [Outline.commit, indices_offer, indices_offer]
    rfl
  have hlt : ∀ i ∈ kept, i < 2 * o.commits.length + 1 := fun i hi =>
    h.index_lt i (hbefore ▸ Multiset.mem_cons_of_mem hi)
  have hnodup : kept.Nodup := (Multiset.nodup_cons.1 (hbefore ▸ h.nodup)).2
  refine ⟨?_, fun i hi => ?_⟩
  · rw [hafter, Multiset.nodup_cons, Multiset.nodup_cons, Multiset.mem_cons, not_or]
    refine ⟨⟨by omega, fun hmem => ?_⟩, fun hmem => ?_, hnodup⟩
    · exact absurd (hlt _ hmem) (by omega)
    · exact absurd (hlt _ hmem) (by omega)
  · rw [hafter, Multiset.mem_cons, Multiset.mem_cons] at hi
    rw [commits_commit, List.length_append, List.length_singleton]
    rcases hi with rfl | rfl | hi
    · omega
    · omega
    · exact (hlt i hi).trans (by omega)

variable [Std.TransOrd ν]

theorem Serves.isLE (h : o.Serves c rest) {d : Candidate ν} (hd : d ∈ o.waiting) :
    (Queue.rank d c).isLE := by
  rw [h.waiting_eq, Multiset.mem_cons] at hd
  rcases hd with rfl | hd
  · exact Ordering.isLE_of_eq_eq (Queue.rank_self d)
  · exact h.leads d hd

/-- Only the same split ranks alike while the words last that count the nodes. -/
theorem Numbered.eq_of_isLE (h : o.Numbered) (hwords : 2 * o.commits.length < UInt32.size)
    (hc : c ∈ o.waiting) (hc' : c' ∈ o.waiting) (hle : (Queue.rank c c').isLE)
    (hge : (Queue.rank c' c).isLE) : c = c' := by
  have horder : ∀ {d : Candidate ν}, d ∈ o.waiting → d.leaf.order = d.leaf.index := by
    intro d hd
    have hindex := h.index_lt d.leaf.index
      (Multiset.mem_add.2 (.inr (Multiset.mem_map_of_mem (·.leaf.index) hd)))
    exact Nat.mod_eq_of_lt (by omega)
  have hrank : Queue.rank c c' = .eq := by
    rw [Queue.rank_swap] at hge
    cases hcompare : Queue.rank c c' with
    | eq => rfl
    | gt =>
      rw [hcompare] at hle
      cases hle
    | lt =>
      rw [hcompare] at hge
      cases hge
  have hsame : c'.leaf.order = c.leaf.order :=
    Nat.compare_eq_eq.1 (Ordering.then_eq_eq.1 hrank).2
  rw [horder hc, horder hc'] at hsame
  have hnodup := (Multiset.nodup_add.1 h.nodup).2.1
  exact Multiset.inj_on_of_nodup_map hnodup c hc c' hc' hsame.symm

/-- There is no choice between two splits while the words last. -/
theorem Serves.unique (h : o.Numbered) (hwords : 2 * o.commits.length < UInt32.size)
    (hserves : o.Serves c rest) (hserves' : o.Serves c' rest') : c = c' ∧ rest = rest' := by
  have hc : c ∈ o.waiting := hserves.waiting_eq ▸ Multiset.mem_cons_self c rest
  have hc' : c' ∈ o.waiting := hserves'.waiting_eq ▸ Multiset.mem_cons_self c' rest'
  obtain rfl := h.eq_of_isLE hwords hc hc' (hserves'.isLE hc) (hserves.isLE hc')
  have hrest := hserves.waiting_eq.symm.trans hserves'.waiting_eq
  exact ⟨rfl, (Multiset.cons_inj_right c).1 hrest⟩

end Outline

/-! ### Steps on heaps -/

namespace HeapGrowth

variable {H H' : Heap (Candidate ν)}

def outline (s : HeapGrowth H γ) : Outline ν γ where
  root := s.growth.root
  draws := s.growth.draws
  offered := s.growth.offered
  commits := s.growth.commits
  opened := s.growth.opened
  waiting := H.drain s.store

theorem leafCount_eq (s : HeapGrowth H γ) :
    s.leafCount = s.outline.opened.card + s.outline.waiting.card := by
  rw [leafCount, H.size_eq, outline, Multiset.coe_card, Multiset.coe_card]

theorem outline_offer (hplain : ¬ 1 < step.drawSize) (s : HeapGrowth H γ) (l : Leaf ν) :
    (s.offer scorer source step l).outline = s.outline.offer scorer step l := by
  obtain ⟨g, store, hqueue⟩ := s
  have hopened : ((g.opened ++ [l] : List (Leaf ν)) : Multiset (Leaf ν)) = l ::ₘ ↑g.opened :=
    Multiset.coe_eq_coe.2 (List.perm_append_singleton l g.opened)
  rcases g.offer_plain scorer source hplain l with
    ⟨hnone, events, heq⟩ | ⟨c, events, hc, heq⟩
  · rw [Outline.offer, hnone]
    simp only [offer, heq, hqueue, outline, hopened]
    rfl
  · have hdrain : (H.drain (H.insert c store) : Multiset (Candidate ν)) = c ::ₘ ↑(H.drain store) :=
      Multiset.coe_eq_coe.2 (H.drain_insert c store)
    rw [Outline.offer, hc]
    simp only [offer, heq, hqueue, outline, ← hdrain]
    rfl

theorem outline_foldl_offer (hplain : ¬ 1 < step.drawSize) (entries : List Entry)
    (ls : List (Leaf ν)) (s : HeapGrowth H γ) :
    (ls.foldl (fun s l => s.offer scorer source step { l with entries := entries }) s).outline =
      (ls.map fun l => { l with entries := entries }).foldl (Outline.offer scorer step)
        s.outline := by
  induction ls generalizing s with
  | nil => rfl
  | cons l ls ih => rw [List.foldl_cons, ih, outline_offer hplain, List.map_cons, List.foldl_cons]

theorem outline_of_commit? (hplain : ¬ 1 < step.drawSize) {s s' : HeapGrowth H γ}
    (h : s.commit? scorer source step = some s') :
    ∃ c rest, s.outline.Serves c rest ∧ s'.outline = s.outline.commit scorer step c rest := by
  obtain ⟨⟨c, store⟩, hnext, rfl⟩ := Option.map_eq_some_iff.1 h
  obtain ⟨hperm, hleads⟩ := H.served hnext
  refine ⟨c, H.drain store, ⟨Multiset.coe_eq_coe.2 hperm, hleads⟩, ?_⟩
  rw [outline_offer hplain, outline_offer hplain]
  rfl

theorem commit?_eq_none_iff (hplain : ¬ 1 < step.drawSize) {s : HeapGrowth H γ} :
    s.commit? scorer source step = none ↔ s.outline.waiting = 0 := by
  constructor
  · intro hcommit
    exact congrArg _ (H.exhausted (Option.map_eq_none_iff.1 hcommit))
  · intro hwaiting
    cases hcommit : s.commit? scorer source step with
    | none => rfl
    | some s' =>
      obtain ⟨c, rest, hserves, _⟩ := outline_of_commit? hplain hcommit
      exact absurd (hserves.waiting_eq.symm.trans hwaiting) Multiset.cons_ne_zero

end HeapGrowth

end QuestionTree
