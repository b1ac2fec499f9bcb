import QuestionTree.Proofs.Growth.BestFirst
import QuestionTree.Proofs.Growth.Saturation

/-!
# Which of equally good splits is taken

A step that asks all of its questions takes, of the splits of a leaf that gain most, the one at the
lowest slot of the list of questions left to the leaf. A leaf that the step finds open has the
questions of the step in their order. The children of a split have the list of their father, in
which the last question has moved to the place of the one that was asked: from there on the order of
the list is not that of the step.
-/

namespace QuestionTree

variable {ν γ : Type}

/-- Where the list of questions left to a leaf comes from in a step that offers some questions and
was entered after a number of commits. -/
inductive Leaf.Listed (entries : List Entry) (count : Nat) (commits : List (Commit ν))
    (l : Leaf ν) : Prop
  /-- A leaf that was made before has all questions of the step in their order. -/
  | found (hindex : l.index ≤ 2 * count) (hentries : l.entries = entries)
  /-- A child has the list of its father without the question that was asked, which the last one
  stands in for. -/
  | below (i : Nat) (c : Commit ν) (hcommit : commits[i]? = some c) (hcount : count ≤ i)
    (hindex : l.index = 2 * i + 1 ∨ l.index = 2 * i + 2)
    (hentries : l.entries = swapRemove c.candidate.slot c.candidate.leaf.entries)

theorem Leaf.Listed.mono {entries : List Entry} {count : Nat} {commits more : List (Commit ν)}
    {l : Leaf ν} (h : l.Listed entries count commits) :
    l.Listed entries count (commits ++ more) := by
  cases h with
  | found hindex hentries => exact .found hindex hentries
  | below i c hcommit hcount hindex hentries =>
    have hlt := (List.getElem?_eq_some_iff.1 hcommit).1
    refine .below i c ?_ hcount hindex hentries
    rw [List.getElem?_append_left hlt, hcommit]

variable [Arithmetic ν]

/-- Whether a split is the first one of the best splits of its leaf. -/
structure Candidate.Leads (scorer : Scorer ν) (step : Step ν) (c : Candidate ν) : Prop where
  admitted : c.Admitted scorer step
  greatest : ∀ d : Candidate ν, d.Admitted scorer step → d.leaf = c.leaf → d.gain ≤ c.gain
  first : ∀ d : Candidate ν, d.Admitted scorer step → d.leaf = c.leaf → c.gain ≤ d.gain →
    c.slot ≤ d.slot

variable {scorer : Scorer ν} {source : DrawSource γ} {step : Step ν}

namespace Growth

/-- Offering a leaf in a step that asks all questions opens it for want of a split, or queues the
first one of its best splits. -/
theorem offer_leads [PositiveOrder ν] (hplain : ¬ 1 < step.drawSize) (source : DrawSource γ)
    (g : Growth ν γ) (l : Leaf ν) :
    (∃ draws events, g.offer scorer source step l =
        { g with draws := draws, events := events, opened := g.opened ++ [l] } ∧
      ∀ c : Candidate ν, c.Admitted scorer step → c.leaf ≠ l) ∨
    ∃ draws events c, g.offer scorer source step l =
        { g with draws := draws, events := events, queue := g.queue.insert c } ∧
      c.leaf = l ∧ c.Leads scorer step := by
  have hfinds : ∀ c : Candidate ν, c.Admitted scorer step → c.leaf = l →
      (g.searchOf source step l).Finds scorer step c := by
    rintro c hc rfl
    exact ⟨hc, rfl, mem_drawn_of_admitted hplain source g hc⟩
  rcases offer_searched scorer source step g l with
    ⟨draws, events, heq, hnone⟩ | ⟨draws, events, c, heq, hyields⟩
  · exact .inl ⟨draws, events, heq, fun c hc hleaf => hnone c (hfinds c hc hleaf)⟩
  · have hleaf : c.leaf = l := hyields.found.leaf_eq
    refine .inr ⟨draws, events, c, heq, hleaf, hyields.found.admitted, ?_, ?_⟩
    · exact fun d hd hsame => hyields.greatest d (hfinds d hd (hsame.trans hleaf))
    · exact fun d hd hsame => hyields.first d (hfinds d hd (hsame.trans hleaf))

/-- What is true of a growing tree while a step goes on that asks all questions and was entered in
the state `before`. -/
structure Ordered (scorer : Scorer ν) (step : Step ν) (g before : Growth ν γ) : Prop where
  entered : before.commits.length ≤ g.commits.length
  queued : ∀ c ∈ g.queue.items, c.Leads scorer step
  listed : ∀ l ∈ g.leaves, l.Listed (before.entriesOf step) before.commits.length g.commits
  /-- A leaf has some of the questions of the step. -/
  known : ∀ l ∈ g.leaves, l.entries.Subperm (before.entriesOf step)

namespace Ordered

variable {before g : Growth ν γ}

theorem takeOpen (scorer : Scorer ν) (step : Step ν) (hqueue : g.queue = .empty) :
    (g.takeOpen step).Ordered scorer step g where
  entered := Nat.le_refl _
  queued c hc := by
    rw [Growth.takeOpen, hqueue] at hc
    exact absurd hc (Multiset.notMem_zero c)
  listed l hl := by
    rw [leaves, Growth.takeOpen, hqueue, Queue.items_empty] at hl
    exact absurd hl (Multiset.notMem_zero l)
  known l hl := by
    rw [leaves, Growth.takeOpen, hqueue, Queue.items_empty] at hl
    exact absurd hl (Multiset.notMem_zero l)

theorem offer [PositiveOrder ν] (h : g.Ordered scorer step before) (hplain : ¬ 1 < step.drawSize)
    (source : DrawSource γ) {l : Leaf ν}
    (hl : l.Listed (before.entriesOf step) before.commits.length g.commits)
    (hknown : l.entries.Subperm (before.entriesOf step)) :
    (g.offer scorer source step l).Ordered scorer step before := by
  have hlisted : ∀ k ∈ (g.offer scorer source step l).leaves,
      k.Listed (before.entriesOf step) before.commits.length g.commits ∧
        k.entries.Subperm (before.entriesOf step) := by
    intro k hk
    rw [leaves_offer] at hk
    rcases Multiset.mem_cons.1 hk with rfl | hk
    · exact ⟨hl, hknown⟩
    · exact ⟨h.listed k hk, h.known k hk⟩
  rcases offer_leads hplain source g l with
    ⟨draws, events, heq, _⟩ | ⟨draws, events, c, heq, _, hleads⟩
  · rw [heq] at hlisted ⊢
    exact ⟨h.entered, h.queued, fun k hk => (hlisted k hk).1, fun k hk => (hlisted k hk).2⟩
  · rw [heq] at hlisted ⊢
    refine ⟨h.entered, fun d hd => ?_, fun k hk => (hlisted k hk).1, fun k hk => (hlisted k hk).2⟩
    rw [Queue.items_insert] at hd
    rcases Multiset.mem_cons.1 hd with rfl | hd
    · exact hleads
    · exact h.queued d hd

theorem carryOut (h : g.Ordered scorer step before) {c : Candidate ν}
    {queue : Queue (Candidate ν)} (hnext : g.queue.next? = some (c, queue)) :
    (g.carryOut c queue).Ordered scorer step before ∧
      (commitOf g.commits.length c).yes.Listed (before.entriesOf step) before.commits.length
        (g.carryOut c queue).commits ∧
      (commitOf g.commits.length c).no.Listed (before.entriesOf step) before.commits.length
        (g.carryOut c queue).commits ∧
      (swapRemove c.slot c.leaf.entries).Subperm (before.entriesOf step) := by
  have hcommit : (g.carryOut c queue).commits[g.commits.length]? =
      some (commitOf g.commits.length c) := by
    show (g.commits ++ [_])[g.commits.length]? = _
    rw [List.getElem?_append_right (Nat.le_refl _), Nat.sub_self]
    rfl
  have hmem : c ∈ g.queue.items := Queue.items_of_next? hnext ▸ Multiset.mem_cons_self ..
  have hsplit := perm_swapRemove (h.queued c hmem).admitted.entry_at_slot
  refine ⟨⟨?_, fun d hd => ?_, fun l hl => ?_, fun l hl => ?_⟩, ?_, ?_, ?_⟩
  · exact h.entered.trans (List.sublist_append_left ..).length_le
  · exact h.queued d (Queue.items_of_next? hnext ▸ Multiset.mem_cons_of_mem hd)
  · exact (h.listed l (leaves_of_next? hnext ▸ Multiset.mem_cons_of_mem hl)).mono
  · exact h.known l (leaves_of_next? hnext ▸ Multiset.mem_cons_of_mem hl)
  · exact .below _ _ hcommit h.entered (.inl rfl) rfl
  · exact .below _ _ hcommit h.entered (.inr rfl) rfl
  · have hfather := h.known c.leaf (leaves_of_next? hnext ▸ Multiset.mem_cons_self ..)
    exact ((List.sublist_cons_self ..).subperm.trans hsplit.symm.subperm).trans hfather

theorem commit? [PositiveOrder ν] (h : g.Ordered scorer step before)
    (hplain : ¬ 1 < step.drawSize) {g' : Growth ν γ}
    (hcommit : g.commit? scorer source step = some g') : g'.Ordered scorer step before := by
  obtain ⟨c, queue, hnext, rfl⟩ := commit?_eq_some_iff.1 hcommit
  obtain ⟨hout, hyes, hno, hknown⟩ := h.carryOut hnext
  refine (hout.offer hplain source hyes hknown).offer hplain source ?_ hknown
  rw [commits_offer]
  exact hno

end Ordered

end Growth

namespace Stage

/-- What is true of a moment of a step that asks all questions. -/
def Ordered (scorer : Scorer ν) : Stage ν γ → Prop
  | opening step entries before _ _ g =>
    entries = before.entriesOf step ∧ g.commits = before.commits ∧ g.Ordered scorer step before
  | splitting step before _ g => g.Ordered scorer step before
  | _ => True

variable [PositiveOrder ν] {maxLeaves : Nat} {examples : List (Handle (Example ν))}
  {steps : List (Step ν)} {draws : γ} {s s' : Stage ν γ}

end Stage

end QuestionTree
