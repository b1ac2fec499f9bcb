import QuestionTree.Proofs.Growth.Ledger
import QuestionTree.Proofs.Growth.Stage

/-!
# What every moment of a run has

`Growth.Sound` collects what is true between any two operations: the ledger is kept, every split
that waits was admitted by the step under way and every commit by some step of the plan, and the
questions of all leaves and commits are on offer under numbers of their own. Each operation is
shown to keep it by what `offer_cases` and `commit?_eq_some_iff` say, and `sound_of_reaches` carries
it through the transitions of a run.

The leaves that wait to be offered are a parameter, and so is the step under way, of which there is
none between two steps: then no split waits.
-/

namespace QuestionTree

variable {ν γ : Type}

namespace Growth

variable [Arithmetic ν]

/-- What is true of a growing tree while some leaves wait to be offered. -/
structure Sound (scorer : Scorer ν) (examples : List (Handle (Example ν))) (steps : List (Step ν))
    (current : Option (Step ν)) (waiting : List (Leaf ν)) (g : Growth ν γ) : Prop where
  root_eq : g.root = rootLeaf scorer examples
  /-- The commits account for every node and every example. -/
  ledger : Ledger examples g.root g.commits (g.leaves + waiting)
  /-- The step under way is one of the plan. -/
  current_known : ∀ step ∈ current, step ∈ steps
  /-- The step under way admits the splits that wait. -/
  queued : ∀ c ∈ g.queue.items, ∃ step ∈ current, c.Admitted scorer step
  committed : ∀ c ∈ g.commits, ∃ step ∈ steps, c.candidate.Admitted scorer step
  /-- A question on offer has the number of its place. -/
  numbered : g.offered.map Entry.id = List.range g.offered.length
  /-- A question on offer is one of a step. -/
  pooled : ∀ e ∈ g.offered, ∃ step ∈ steps, e.question ∈ step.pool.members
  leaf_entries : ∀ l ∈ g.leaves + waiting, ∀ e ∈ l.entries, e ∈ g.offered
  commit_entries : ∀ c ∈ g.commits, c.candidate.entry ∈ g.offered

namespace Sound

variable {scorer : Scorer ν} {source : DrawSource γ} {examples : List (Handle (Example ν))}
  {steps : List (Step ν)} {current : Option (Step ν)} {waiting : List (Leaf ν)} {g : Growth ν γ}

theorem id_of_getElem? (h : g.Sound scorer examples steps current waiting) {i : Nat} {e : Entry}
    (hi : g.offered[i]? = some e) : e.id = i := by
  have hid : (g.offered.map Entry.id)[i]? = some e.id := by
    rw [List.getElem?_map, hi]
    rfl
  rw [h.numbered, List.getElem?_eq_some_iff] at hid
  obtain ⟨_, hid⟩ := hid
  exact hid.symm.trans (List.getElem_range _)

/-! ### The first moment -/

omit [Arithmetic ν] in
theorem leaves_of_single (g : Growth ν γ) (l : Leaf ν) (hopened : g.opened = [l])
    (hqueue : g.queue = .empty) : g.leaves = {l} := by
  rw [leaves_of_empty hqueue, hopened, Multiset.coe_singleton]

theorem start (scorer : Scorer ν) (draws : γ) (examples : List (Handle (Example ν)))
    (steps : List (Step ν)) :
    (Growth.start scorer draws examples).Sound scorer examples steps none [] := by
  have hleaves : (Growth.start scorer draws examples).leaves + (([] : List (Leaf ν)) : Multiset _) =
      {rootLeaf scorer examples} := by
    rw [leaves_of_single _ (rootLeaf scorer examples) rfl rfl, Multiset.coe_nil, Multiset.add_zero]
  refine ⟨rfl, ?_, ?_, ?_, ?_, rfl, ?_, ?_, ?_⟩
  · rw [hleaves]
    have hindex : (rootLeaf scorer examples).index = 0 := rfl
    exact Ledger.start hindex
  · intro step hstep
    cases hstep
  · intro c hc
    exact absurd hc (Multiset.notMem_zero c)
  · intro c hc
    cases hc
  · intro e he
    cases he
  · intro l hl e he
    rw [hleaves, Multiset.mem_singleton] at hl
    rw [hl] at he
    cases he
  · intro c hc
    cases hc

/-! ### The operations -/

theorem note (h : g.Sound scorer examples steps current waiting) (e : Event ν) :
    (g.note e).Sound scorer examples steps current waiting :=
  ⟨h.root_eq, h.ledger, h.current_known, h.queued, h.committed, h.numbered, h.pooled,
    h.leaf_entries, h.commit_entries⟩

omit [Arithmetic ν] in
theorem ids_entriesOf (g : Growth ν γ) (step : Step ν) :
    (g.entriesOf step).map Entry.id =
      List.range' g.offered.length (g.entriesOf step).length := by
  have hids : (g.entriesOf step).map Entry.id =
      (step.pool.members.zipIdx g.offered.length).map Prod.snd := by
    rw [entriesOf, List.map_map]
    rfl
  rw [hids, List.zipIdx_map_snd, entriesOf, List.length_map, List.length_zipIdx]

omit [Arithmetic ν] in
theorem question_of_mem_entriesOf {step : Step ν} {e : Entry} (he : e ∈ g.entriesOf step) :
    e.question ∈ step.pool.members := by
  obtain ⟨⟨q, id⟩, hmem, rfl⟩ := List.mem_map.1 he
  exact (List.mem_zipIdx hmem).2.2 ▸ List.getElem_mem _

theorem takeOpen (h : g.Sound scorer examples steps none []) {step : Step ν}
    (hstep : step ∈ steps) :
    (g.takeOpen step).Sound scorer examples steps (some step) g.opened := by
  have hleaves : (g.takeOpen step).leaves + (g.opened : Multiset (Leaf ν)) =
      g.leaves + (([] : List (Leaf ν)) : Multiset (Leaf ν)) := by
    rw [leaves, leaves, Growth.takeOpen, Multiset.coe_nil, Multiset.add_zero, Multiset.zero_add]
    exact Multiset.add_comm ..
  refine ⟨h.root_eq, ?_, ?_, ?_, h.committed, ?_, ?_, ?_, ?_⟩
  · rw [hleaves]
    exact h.ledger
  · intro step' hstep'
    cases hstep'
    exact hstep
  · intro c hc
    obtain ⟨step', hnone, _⟩ := h.queued c hc
    cases hnone
  · rw [Growth.takeOpen, List.map_append, h.numbered, ids_entriesOf, List.length_append,
      List.range_add, List.range'_eq_map_range]
  · intro e he
    rcases List.mem_append.1 he with he | he
    · exact h.pooled e he
    · exact ⟨step, hstep, question_of_mem_entriesOf he⟩
  · intro l hl e he
    rw [hleaves] at hl
    exact List.mem_append_left _ (h.leaf_entries l hl e he)
  · intro c hc
    exact List.mem_append_left _ (h.commit_entries c hc)

theorem offer (source : DrawSource γ) {step : Step ν} {l m : Leaf ν}
    (h : g.Sound scorer examples steps (some step) (l :: waiting)) (hbare : m.bare = l.bare)
    (hentries : ∀ e ∈ m.entries, e ∈ g.offered) :
    (g.offer scorer source step m).Sound scorer examples steps (some step) waiting := by
  have hbefore : g.leaves + ((l :: waiting : List (Leaf ν)) : Multiset (Leaf ν)) =
      l ::ₘ (g.leaves + waiting) := by
    rw [← Multiset.cons_coe, Multiset.add_cons]
  have hafter : (g.offer scorer source step m).leaves + waiting = m ::ₘ (g.leaves + waiting) := by
    rw [leaves_offer, Multiset.cons_add]
  have hledger := h.ledger
  have hleaf := h.leaf_entries
  rw [hbefore] at hledger hleaf
  have hknown : ∀ k ∈ m ::ₘ (g.leaves + waiting), ∀ e ∈ k.entries, e ∈ g.offered := by
    intro k hk
    rcases Multiset.mem_cons.1 hk with rfl | hk
    · exact hentries
    · exact hleaf k (Multiset.mem_cons_of_mem hk)
  have hrelabelled := hledger.relabel hbare
  rw [← hafter] at hrelabelled hknown
  rcases offer_cases scorer source step g m with
    ⟨draws, events, heq⟩ | ⟨draws, events, c, hadmitted, _, heq⟩
  · rw [heq] at hrelabelled hknown ⊢
    exact ⟨h.root_eq, hrelabelled, h.current_known, h.queued, h.committed, h.numbered, h.pooled,
      hknown, h.commit_entries⟩
  · have hqueued : ∀ d ∈ (g.queue.insert c).items, ∃ s ∈ some step, d.Admitted scorer s := by
      intro d hd
      rw [Queue.items_insert] at hd
      rcases Multiset.mem_cons.1 hd with rfl | hd
      · exact ⟨step, rfl, hadmitted⟩
      · exact h.queued d hd
    rw [heq] at hrelabelled hknown ⊢
    exact ⟨h.root_eq, hrelabelled, h.current_known, hqueued, h.committed, h.numbered, h.pooled,
      hknown, h.commit_entries⟩

theorem mem_swapRemove {α : Type} {place : Nat} {items : List α} {a : α}
    (h : a ∈ swapRemove place items) : a ∈ items := by
  rw [swapRemove] at h
  split at h
  · cases h
  · rename_i last hlast
    rcases List.mem_or_eq_of_mem_set (List.mem_of_mem_dropLast h) with hmem | rfl
    · exact hmem
    · exact List.mem_of_getLast? hlast

theorem carryOut {step : Step ν} {c : Candidate ν} {queue : Queue (Candidate ν)}
    (h : g.Sound scorer examples steps (some step) waiting)
    (hnext : g.queue.next? = some (c, queue)) :
    (g.carryOut c queue).Sound scorer examples steps (some step)
      ((commitOf g.commits.length c).yes :: (commitOf g.commits.length c).no :: waiting) := by
  have hitems := Queue.items_of_next? hnext
  obtain ⟨step', hstep', hadmitted⟩ := h.queued c (hitems ▸ Multiset.mem_cons_self ..)
  have hbefore := leaves_of_next? hnext
  have hoffered : ∀ e ∈ c.leaf.entries, e ∈ g.offered := by
    intro e he
    refine h.leaf_entries c.leaf ?_ e he
    rw [hbefore]
    exact Multiset.mem_add.2 (.inl (Multiset.mem_cons_self ..))
  -- the split leaf leaves the queue and its children wait, so the ledger sees one commit
  have hledger := h.ledger
  rw [hbefore, Multiset.cons_add] at hledger
  have hafter : ∀ l m : Leaf ν, (g.carryOut c queue).leaves +
      ((l :: m :: waiting : List (Leaf ν)) : Multiset (Leaf ν)) =
        l ::ₘ m ::ₘ ((g.carryOut c queue).leaves + waiting) := by
    intro l m
    rw [← Multiset.cons_coe, ← Multiset.cons_coe, Multiset.add_cons, Multiset.add_cons]
  refine ⟨h.root_eq, ?_, h.current_known, ?_, ?_, h.numbered, h.pooled, ?_, ?_⟩
  · rw [hafter]
    exact hledger.commit hadmitted
  · intro d hd
    exact h.queued d (hitems ▸ Multiset.mem_cons_of_mem hd)
  · intro d hd
    rcases List.mem_append.1 hd with hd | hd
    · exact h.committed d hd
    · rw [List.mem_singleton.1 hd]
      exact ⟨step', h.current_known step' hstep', hadmitted⟩
  · intro l hl e he
    rw [hafter] at hl
    rcases Multiset.mem_cons.1 hl with rfl | hl
    · exact hoffered e (mem_swapRemove he)
    · rcases Multiset.mem_cons.1 hl with rfl | hl
      · exact hoffered e (mem_swapRemove he)
      · refine h.leaf_entries l ?_ e he
        rw [hbefore, Multiset.cons_add]
        exact Multiset.mem_cons_of_mem hl
  · intro d hd
    rcases List.mem_append.1 hd with hd | hd
    · exact h.commit_entries d hd
    · rw [List.mem_singleton.1 hd]
      exact hoffered _ (List.mem_of_getElem? hadmitted.entry_at_slot)

theorem commit? {step : Step ν} {g' : Growth ν γ}
    (h : g.Sound scorer examples steps (some step) waiting)
    (hcommit : g.commit? scorer source step = some g') :
    g'.Sound scorer examples steps (some step) waiting := by
  obtain ⟨c, queue, hnext, rfl⟩ := commit?_eq_some_iff.1 hcommit
  have hout := h.carryOut hnext
  have hyes : ∀ e ∈ (commitOf g.commits.length c).yes.entries, e ∈ (g.carryOut c queue).offered :=
    hout.leaf_entries _ (Multiset.mem_add.2 (.inr (List.mem_cons_self ..)))
  have hone := hout.offer source rfl hyes
  have hno : ∀ e ∈ (commitOf g.commits.length c).no.entries,
      e ∈ ((g.carryOut c queue).offer scorer source step
        (commitOf g.commits.length c).yes).offered :=
    hone.leaf_entries _ (Multiset.mem_add.2 (.inr (List.mem_cons_self ..)))
  exact hone.offer source rfl hno

/-- When a step is left no split waits any more. -/
theorem leave {step : Step ν} (h : g.Sound scorer examples steps current waiting)
    (before : Growth ν γ) : (g.leave before step).Sound scorer examples steps none waiting := by
  have hclosed : g.close.Sound scorer examples steps none waiting := by
    refine ⟨h.root_eq, ?_, ?_, ?_, h.committed, h.numbered, h.pooled, ?_, h.commit_entries⟩
    · rw [leaves_close]
      exact h.ledger
    · intro step' hstep'
      cases hstep'
    · intro c hc
      exact absurd hc (Multiset.notMem_zero c)
    · rw [leaves_close]
      exact h.leaf_entries
  exact hclosed.note _

end Sound

end Growth

/-! ### The transitions -/

namespace Stage

/-- The step under way. -/
def step? : Stage ν γ → Option (Step ν)
  | between _ _ => none
  | opening step _ _ _ _ _ => some step
  | splitting step _ _ _ => some step
  | ended _ => none

/-- The steps to come. -/
def todo : Stage ν γ → List (Step ν)
  | between todo _ => todo
  | opening _ _ _ todo _ _ => todo
  | splitting _ _ todo _ => todo
  | ended _ => []

/-- The questions that the leaves that wait are to be offered with. -/
def entries : Stage ν γ → List Entry
  | opening _ entries _ _ _ _ => entries
  | _ => []

variable [Arithmetic ν]

/-- What is true of every moment of a run. -/
structure Sound (scorer : Scorer ν) (examples : List (Handle (Example ν))) (steps : List (Step ν))
    (s : Stage ν γ) : Prop where
  growing : s.growth.Sound scorer examples steps s.step? s.waiting
  /-- The steps to come are steps of the plan. -/
  todo_known : ∀ step ∈ s.todo, step ∈ steps
  /-- The questions to be offered with are on offer. -/
  entries_offered : ∀ e ∈ s.entries, e ∈ s.growth.offered

variable {scorer : Scorer ν} {source : DrawSource γ} {maxLeaves : Nat}
  {examples : List (Handle (Example ν))} {steps : List (Step ν)}

theorem sound_next {s s' : Stage ν γ} (h : s.Sound scorer examples steps)
    (hnext : s.next? scorer source maxLeaves = some s') : s'.Sound scorer examples steps := by
  have hnone : ∀ {P : Entry → Prop}, ∀ e ∈ ([] : List Entry), P e := by
    intro P e he
    cases he
  cases transition_of_next? hnext with
  | finish g => exact ⟨h.growing, h.todo_known, hnone⟩
  | stop step todo g _ =>
    exact ⟨h.growing.note _, fun _ hempty => absurd hempty List.not_mem_nil, hnone⟩
  | skip step todo g tag _ _ =>
    have htodo : ∀ step' ∈ todo, step' ∈ steps := fun step' hstep' =>
      h.todo_known step' (List.mem_cons_of_mem step hstep')
    exact ⟨(h.growing.note _).note _, htodo, hnone⟩
  | enter step todo g _ _ =>
    have hstep : step ∈ steps := h.todo_known step (List.mem_cons_self ..)
    have htodo : ∀ step' ∈ todo, step' ∈ steps := fun step' hstep' =>
      h.todo_known step' (List.mem_cons_of_mem step hstep')
    exact ⟨(h.growing.note _).takeOpen hstep, htodo, fun e he => List.mem_append_right _ he⟩
  | offer step entries before todo l waiting g =>
    -- the leaf is offered with the questions of the step in place of its own
    have hsound := h.growing.offer source (m := { l with entries := entries }) rfl
      h.entries_offered
    refine ⟨hsound, h.todo_known, ?_⟩
    intro e he
    have hoffered := h.entries_offered e he
    rcases Growth.offer_cases scorer source step g { l with entries := entries } with
      ⟨draws, events, heq⟩ | ⟨draws, events, c, _, _, heq⟩
    · simpa only [growth, heq] using hoffered
    · simpa only [growth, heq] using hoffered
  | begin step entries before todo g => exact ⟨h.growing, h.todo_known, hnone⟩
  | commit step before todo g g' _ hcommit =>
    exact ⟨h.growing.commit? hcommit, h.todo_known, hnone⟩
  | leave step before todo g _ => exact ⟨h.growing.leave before, h.todo_known, hnone⟩

theorem sound_start (draws : γ) :
    (between steps (Growth.start scorer draws examples)).Sound scorer examples steps :=
  ⟨.start scorer draws examples steps, fun _ hstep => hstep, fun _ he => by cases he⟩

theorem sound_of_reaches {draws : γ} {s : Stage ν γ}
    (h : Reaches scorer source maxLeaves (between steps (Growth.start scorer draws examples)) s) :
    s.Sound scorer examples steps :=
  h.invariant (fun _ _ hsound hnext => sound_next hsound hnext) (sound_start draws)

/-- What the first moment has and every transition from a sound moment keeps, every moment of a run
has. -/
theorem invariant_of_reaches {P : Stage ν γ → Prop} {draws : γ} {s : Stage ν γ}
    (h : Reaches scorer source maxLeaves (between steps (Growth.start scorer draws examples)) s)
    (hstart : P (between steps (Growth.start scorer draws examples)))
    (hstep : ∀ a b : Stage ν γ, a.Sound scorer examples steps → P a →
      a.next? scorer source maxLeaves = some b → P b) : P s := by
  induction h with
  | refl => exact hstart
  | tail hreaches hnext ih => exact hstep _ _ (sound_of_reaches hreaches) ih hnext

end Stage

theorem Growth.sound_run [Arithmetic ν] (scorer : Scorer ν) (source : DrawSource γ) (draws : γ)
    (plan : TrainingPlan ν) (examples : List (Handle (Example ν))) :
    (Growth.run scorer source draws plan examples).Sound scorer examples plan.steps none [] :=
  (Stage.sound_of_reaches (Stage.reaches_runSteps plan.steps (start scorer draws examples))).growing

end QuestionTree
