import QuestionTree.Proofs.Growth.Nesting
import QuestionTree.Proofs.Growth.Search

/-!
# Steps that leave nothing to gain

A step that asks all of its questions and does not reach the budget of leaves splits until no leaf
passes its tests with any of the questions, those that were asked above the leaf included.
`Growth.Exhausted` is what the step keeps on the way: no open leaf has an admitted split, and of the
questions of the step each is still left to a leaf or all examples of the leaf give it the same
answer. A question is only taken away from the children of the leaf that it splits, so it is useless
wherever it is missing, and an answer that all examples share leaves one side without mass.
-/

namespace QuestionTree

variable {ν γ : Type}

/-- Whether some examples are all on one side of a question. -/
def Question.Uniform (q : Question) (members : List (Handle (Example ν))) : Prop :=
  ∃ answer, ∀ e ∈ members, q.affirms e = answer

theorem Question.Uniform.filter {q : Question} {members : List (Handle (Example ν))}
    (h : q.Uniform members) (p : Handle (Example ν) → Bool) : q.Uniform (members.filter p) := by
  obtain ⟨answer, hanswer⟩ := h
  exact ⟨answer, fun e he => hanswer e (List.mem_of_mem_filter he)⟩

theorem Question.uniform_yes (q : Question) (members : List (Handle (Example ν))) :
    q.Uniform (members.filter q.affirms) :=
  ⟨true, fun _ he => (List.mem_filter.1 he).2⟩

theorem Question.uniform_no (q : Question) (members : List (Handle (Example ν))) :
    q.Uniform (members.filter fun e => !q.affirms e) :=
  ⟨false, fun _ he => (Bool.not_eq_true' _).mp (List.mem_filter.1 he).2⟩

open scoped List in
/-- The item at a place is all that a list loses. -/
theorem perm_swapRemove {α : Type} {place : Nat} {items : List α} {a : α}
    (ha : items[place]? = some a) : items.Perm (a :: swapRemove place items) := by
  obtain ⟨hplace, rfl⟩ := List.getElem?_eq_some_iff.1 ha
  obtain rfl | ⟨init, last, rfl⟩ := List.eq_nil_or_concat' items
  · cases hplace
  rw [swapRemove, List.getLast?_concat]
  dsimp only
  by_cases hlt : place < init.length
  · have hset : (init.set place last).Perm (last :: init.eraseIdx place) := by
      have hlength : place < (init.set place last).length := by rwa [List.length_set]
      have hperm := List.getElem_cons_eraseIdx_perm hlength
      rw [List.getElem_set_self, List.eraseIdx_set_eq] at hperm
      exact hperm.symm
    rw [List.set_append_left _ _ hlt, List.dropLast_concat, List.getElem_append_left hlt]
    calc init ++ [last]
      _ ~ last :: init := List.perm_append_singleton ..
      _ ~ last :: init[place] :: init.eraseIdx place :=
        (List.getElem_cons_eraseIdx_perm hlt).symm.cons last
      _ ~ init[place] :: last :: init.eraseIdx place := List.Perm.swap ..
      _ ~ init[place] :: init.set place last := hset.symm.cons _
  · have hend : place = init.length := by
      rw [List.length_append, List.length_singleton] at hplace
      omega
    subst hend
    rw [List.getElem_concat_length rfl, List.set_append_right _ _ (Nat.le_refl _), Nat.sub_self]
    rw [List.set_cons_zero, List.dropLast_concat]
    exact List.perm_append_singleton ..

theorem mem_swapRemove_or {α : Type} {place : Nat} {items : List α} {a b : α}
    (ha : items[place]? = some a) (hb : b ∈ items) : b ∈ swapRemove place items ∨ b = a :=
  (List.mem_cons.1 ((perm_swapRemove ha).mem_iff.1 hb)).symm

variable [Arithmetic ν]

/-- Whether examples of a mass and a score pass all tests of a step when a question splits them. -/
structure Step.Accepts (scorer : Scorer ν) (step : Step ν) (mass score : ν)
    (members : List (Handle (Example ν))) (q : Question) : Prop where
  reaches : ¬ mass < step.minObs + step.minObs
  yes_reaches : ¬ Example.totalMass ((members.filter q.affirms).map Handle.item) < step.minObs
  no_reaches :
    ¬ Example.totalMass ((members.filter fun e => !q.affirms e).map Handle.item) < step.minObs
  yes_massive : ¬ Example.totalMass ((members.filter q.affirms).map Handle.item) ≤ 0
  no_massive : ¬ Example.totalMass ((members.filter fun e => !q.affirms e).map Handle.item) ≤ 0
  gains : step.minGain < (scorer.split ((members.filter q.affirms).map Handle.item)
    ((members.filter fun e => !q.affirms e).map Handle.item) score).gain
  gain_pos : 0 < (scorer.split ((members.filter q.affirms).map Handle.item)
    ((members.filter fun e => !q.affirms e).map Handle.item) score).gain

/-- The split of a leaf by the question at a slot. -/
def Candidate.ofSlot (scorer : Scorer ν) (l : Leaf ν) (slot : Nat) (entry : Entry) :
    Candidate ν :=
  let yes := l.members.filter entry.question.item.affirms
  let no := l.members.filter fun e => !entry.question.item.affirms e
  let rating := scorer.split (yes.map Handle.item) (no.map Handle.item) l.score
  { leaf := l
    slot := slot
    entry := entry
    gain := rating.gain
    yes := ⟨Example.totalMass (yes.map Handle.item), rating.left, yes⟩
    no := ⟨Example.totalMass (no.map Handle.item), rating.right, no⟩ }

variable {scorer : Scorer ν} {source : DrawSource γ} {step : Step ν}

namespace Step

theorem Accepts.admitted (hsign : ∀ a : ν, 0 < a → ¬ a < 0) {l : Leaf ν} {slot : Nat}
    {entry : Entry} (hentry : l.entries[slot]? = some entry)
    (h : step.Accepts scorer l.mass l.score l.members entry.question.item) :
    (Candidate.ofSlot scorer l slot entry).Admitted scorer step where
  leaf_mass := h.reaches
  entry_at_slot := hentry
  yes_members := rfl
  no_members := rfl
  yes_mass := rfl
  no_mass := rfl
  rating := rfl
  reaches := not_or.2 ⟨h.yes_reaches, h.no_reaches⟩
  massive := not_or.2 ⟨h.yes_massive, h.no_massive⟩
  no_loss := hsign _ h.gain_pos
  gains := ⟨h.gains, h.gain_pos⟩

/-- A question that all examples answer alike leaves one side without mass. -/
theorem not_accepts_of_uniform (hzero : (0 : ν) ≤ 0) {mass score : ν}
    {members : List (Handle (Example ν))} {q : Question} (h : q.Uniform members) :
    ¬ step.Accepts scorer mass score members q := by
  intro haccepts
  obtain ⟨answer, hanswer⟩ := h
  cases answer with
  | true =>
    have hnone : (members.filter fun e => !q.affirms e) = [] := by
      refine List.filter_eq_nil_iff.2 fun e he => ?_
      rw [hanswer e he]
      exact Bool.false_ne_true
    have hmassive := haccepts.no_massive
    rw [hnone] at hmassive
    exact hmassive hzero
  | false =>
    have hnone : members.filter q.affirms = [] := by
      refine List.filter_eq_nil_iff.2 fun e he => ?_
      rw [hanswer e he]
      exact Bool.false_ne_true
    have hmassive := haccepts.yes_massive
    rw [hnone] at hmassive
    exact hmassive hzero

end Step

namespace Leaf

/-- Whether no question of a step is accepted for a leaf. -/
def Refuses (scorer : Scorer ν) (step : Step ν) (l : Leaf ν) : Prop :=
  ∀ q ∈ step.pool.members, ¬ step.Accepts scorer l.mass l.score l.members q.item

omit [Arithmetic ν] in
/-- Whether every question of a step is left to a leaf or useless for it. -/
def Retains (step : Step ν) (l : Leaf ν) : Prop :=
  ∀ q ∈ step.pool.members, (∃ e ∈ l.entries, e.question = q) ∨ q.item.Uniform l.members

theorem Retains.refuses (hsign : ∀ a : ν, 0 < a → ¬ a < 0) (hzero : (0 : ν) ≤ 0) {l : Leaf ν}
    (h : l.Retains step) (hfruitless : ∀ c : Candidate ν, c.Admitted scorer step → c.leaf ≠ l) :
    l.Refuses scorer step := by
  intro q hq haccepts
  rcases h q hq with ⟨e, he, rfl⟩ | huniform
  · obtain ⟨slot, hslot⟩ := List.mem_iff_getElem?.1 he
    exact hfruitless _ (haccepts.admitted hsign hslot) rfl
  · exact Step.not_accepts_of_uniform hzero huniform haccepts

omit [Arithmetic ν] in
/-- What a leaf loses of its questions when it is split is useless for both children. -/
theorem Retains.swapRemove {l child : Leaf ν} {slot : Nat} {entry : Entry}
    {p : Handle (Example ν) → Bool} (h : l.Retains step) (hentry : l.entries[slot]? = some entry)
    (hentries : child.entries = QuestionTree.swapRemove slot l.entries)
    (hmembers : child.members = l.members.filter p)
    (huniform : entry.question.item.Uniform child.members) : child.Retains step := by
  intro q hq
  rcases h q hq with ⟨e, he, rfl⟩ | hsame
  · rcases mem_swapRemove_or hentry he with hleft | rfl
    · exact .inl ⟨e, hentries ▸ hleft, rfl⟩
    · exact .inr huniform
  · rw [hmembers]
    exact .inr (hsame.filter p)

end Leaf

/-! ### The operations of a step -/

namespace Growth

/-- What is true of a growing tree while a step goes on that asks all of its questions. -/
structure Exhausted (scorer : Scorer ν) (step : Step ν) (g : Growth ν γ) : Prop where
  fruitless : ∀ l ∈ g.opened, ∀ c : Candidate ν, c.Admitted scorer step → c.leaf ≠ l
  retained : ∀ l ∈ g.leaves, l.Retains step
  queued : ∀ c ∈ g.queue.items, c.Admitted scorer step

variable {g : Growth ν γ}

theorem mem_drawn_of_admitted (hall : ¬ 1 < step.drawSize) (source : DrawSource γ)
    (g : Growth ν γ) {c : Candidate ν} (hc : c.Admitted scorer step) :
    c.slot ∈ g.drawn source step c.leaf := by
  have hslot := (List.getElem?_eq_some_iff.1 hc.entry_at_slot).1
  rw [drawn, if_neg hc.leaf_mass, DrawSource.sample, if_neg hall]
  exact (List.mergeSort_perm _ _).mem_iff.2 (List.mem_range.2 hslot)

namespace Exhausted

theorem offer [PositiveOrder ν] (h : g.Exhausted scorer step) (hall : ¬ 1 < step.drawSize)
    (source : DrawSource γ) {l : Leaf ν} (hl : l.Retains step) :
    (g.offer scorer source step l).Exhausted scorer step := by
  have hretained : ∀ k ∈ (g.offer scorer source step l).leaves, k.Retains step := by
    intro k hk
    rw [leaves_offer] at hk
    rcases Multiset.mem_cons.1 hk with rfl | hk
    · exact hl
    · exact h.retained k hk
  rcases offer_searched scorer source step g l with
    ⟨draws, events, heq, hnone⟩ | ⟨draws, events, c, heq, hyields⟩
  · rw [heq] at hretained ⊢
    refine ⟨fun k hk c hc hleaf => ?_, hretained, h.queued⟩
    rcases List.mem_append.1 hk with hk | hk
    · exact h.fruitless k hk c hc hleaf
    · have hsame : c.leaf = l := hleaf.trans (List.mem_singleton.1 hk)
      exact hnone c ⟨hc, hsame, hsame ▸ mem_drawn_of_admitted hall source g hc⟩
  · rw [heq] at hretained ⊢
    refine ⟨h.fruitless, hretained, fun d hd => ?_⟩
    rw [Queue.items_insert] at hd
    rcases Multiset.mem_cons.1 hd with rfl | hd
    · exact hyields.found.admitted
    · exact h.queued d hd

theorem carryOut (h : g.Exhausted scorer step) {c : Candidate ν} {queue : Queue (Candidate ν)}
    (hnext : g.queue.next? = some (c, queue)) :
    (g.carryOut c queue).Exhausted scorer step ∧
      (commitOf g.commits.length c).yes.Retains step ∧
      (commitOf g.commits.length c).no.Retains step := by
  have hitems := Queue.items_of_next? hnext
  have hadmitted := h.queued c (hitems ▸ Multiset.mem_cons_self c _)
  have hleaves := leaves_of_next? hnext
  have hleaf : c.leaf.Retains step := h.retained c.leaf (hleaves ▸ Multiset.mem_cons_self ..)
  refine ⟨⟨h.fruitless, fun l hl => ?_, fun d hd => ?_⟩, ?_, ?_⟩
  · exact h.retained l (hleaves ▸ Multiset.mem_cons_of_mem hl)
  · exact h.queued d (hitems ▸ Multiset.mem_cons_of_mem hd)
  · refine hleaf.swapRemove hadmitted.entry_at_slot rfl hadmitted.yes_members ?_
    have hyes : (commitOf g.commits.length c).yes.members = c.yes.members := rfl
    rw [hyes, hadmitted.yes_members]
    exact Question.uniform_yes _ _
  · refine hleaf.swapRemove hadmitted.entry_at_slot rfl hadmitted.no_members ?_
    have hno : (commitOf g.commits.length c).no.members = c.no.members := rfl
    rw [hno, hadmitted.no_members]
    exact Question.uniform_no _ _

variable [PositiveOrder ν]

theorem commit? (h : g.Exhausted scorer step) (hall : ¬ 1 < step.drawSize) {g' : Growth ν γ}
    (hcommit : g.commit? scorer source step = some g') : g'.Exhausted scorer step := by
  obtain ⟨c, queue, hnext, rfl⟩ := commit?_eq_some_iff.1 hcommit
  obtain ⟨hout, hyes, hno⟩ := h.carryOut hnext
  exact (hout.offer hall source hyes).offer hall source hno

/-- A step offers every leaf with all of its questions. -/
theorem enter (hall : ¬ 1 < step.drawSize) (source : DrawSource γ) (hempty : g.queue = .empty) :
    (g.enter scorer source step).Exhausted scorer step := by
  let taken : Growth ν γ := { g with opened := [], offered := g.offered ++ g.entriesOf step }
  have hnone : taken.leaves = 0 := by
    have hqueue : taken.queue = .empty := hempty
    rw [leaves, hqueue]
    rfl
  have hstart : taken.Exhausted scorer step := by
    refine ⟨fun l hl => ?_, fun l hl => ?_, fun c hc => ?_⟩
    · cases hl
    · rw [hnone] at hl
      exact absurd hl (Multiset.notMem_zero l)
    · have hitems : taken.queue.items = 0 := by
        rw [show taken.queue = .empty from hempty]
        rfl
      rw [hitems] at hc
      exact absurd hc (Multiset.notMem_zero c)
  have hretains : ∀ l : Leaf ν, ({ l with entries := g.entriesOf step } : Leaf ν).Retains step := by
    intro l q hq
    obtain ⟨i, hi, rfl⟩ := List.mem_iff_getElem.1 hq
    refine .inl ⟨⟨g.offered.length + i, step.pool.members[i]⟩, ?_, rfl⟩
    refine List.mem_map.2 ⟨(step.pool.members[i], g.offered.length + i), ?_, rfl⟩
    exact List.mk_add_mem_zipIdx_iff_getElem?.2 (List.getElem?_eq_getElem hi)
  have hfold : ∀ (ls : List (Leaf ν)) (g' : Growth ν γ), g'.Exhausted scorer step →
      (ls.foldl (fun g' l => g'.offer scorer source step { l with entries := g.entriesOf step })
        g').Exhausted scorer step := by
    intro ls
    induction ls with
    | nil => exact fun _ h => h
    | cons l ls ih => exact fun g' h => ih _ (h.offer hall source (hretains l))
  exact hfold g.opened taken hstart

theorem splitAll (h : g.Exhausted scorer step) (hall : ¬ 1 < step.drawSize)
    (source : DrawSource γ) (maxLeaves : Nat) :
    (g.splitAll scorer source step maxLeaves).Exhausted scorer step ∧
      (maxLeaves ≤ (g.splitAll scorer source step maxLeaves).leafCount ∨
        (g.splitAll scorer source step maxLeaves).queue = .empty) := by
  induction g using Growth.splitAll.induct scorer source step maxLeaves with
  | case1 g hbudget g' hcommit ih =>
    rw [Growth.splitAll, if_pos hbudget, hcommit]
    exact ih (h.commit? hall hcommit)
  | case2 g hbudget hcommit =>
    rw [Growth.splitAll, if_pos hbudget, hcommit]
    exact ⟨h, .inr (Queue.eq_empty_of_next? (Option.map_eq_none_iff.1 hcommit))⟩
  | case3 g hbudget =>
    rw [Growth.splitAll, if_neg hbudget]
    exact ⟨h, .inl (Nat.le_of_not_lt hbudget)⟩

end Exhausted

/-! ### Whole runs -/

/-- Whether the budget of leaves is reached or no leaf has anything left to gain by a step. -/
def Saturated (scorer : Scorer ν) (step : Step ν) (maxLeaves : Nat) (g : Growth ν γ) : Prop :=
  maxLeaves ≤ g.opened.length ∨ ∀ l ∈ g.opened, l.Refuses scorer step

variable [PositiveOrder ν] (hsign : ∀ a : ν, 0 < a → ¬ a < 0) (hzero : (0 : ν) ≤ 0)

include hsign hzero in
theorem saturated_runSplit (hall : ¬ 1 < step.drawSize) (source : DrawSource γ) (maxLeaves : Nat)
    (hempty : g.queue = .empty) :
    (g.runSplit scorer source maxLeaves step).Saturated scorer step maxLeaves := by
  let entered := { g with events := g.events ++ stepWarnings step g.root.mass }.enter scorer source
    step
  have hentered : entered.Exhausted scorer step := .enter hall source hempty
  obtain ⟨hexhausted, hend⟩ := hentered.splitAll hall source maxLeaves
  have hsplit : g.runSplit scorer source maxLeaves step =
      (entered.splitAll scorer source step maxLeaves).leave g step := rfl
  rw [hsplit]
  rcases hend with hreached | hqueue
  · exact .inl (hreached.trans_eq (length_opened_leave ..).symm)
  · refine .inr fun l hl => ?_
    have hclosed : ((entered.splitAll scorer source step maxLeaves).leave g step).opened =
        (entered.splitAll scorer source step maxLeaves).opened ++
          (entered.splitAll scorer source step maxLeaves).queue.byAge.map Candidate.leaf := rfl
    have hnone : (Queue.empty : Queue (Candidate ν)).byAge = [] := List.mergeSort_nil
    rw [hclosed, hqueue, hnone, List.map_nil, List.append_nil] at hl
    refine (hexhausted.retained l ?_).refuses hsign hzero (hexhausted.fruitless l hl)
    exact Multiset.mem_add.2 (.inl hl)

omit [PositiveOrder ν] in
theorem opened_runSteps {todo : List (Step ν)} (h : ∀ step ∈ todo, step.action ≠ .split)
    (scorer : Scorer ν) (source : DrawSource γ) (maxLeaves : Nat) (g : Growth ν γ) :
    (runSteps scorer source maxLeaves todo g).opened = g.opened := by
  induction todo generalizing g with
  | nil => rfl
  | cons step todo ih =>
    rw [runSteps]
    split
    · rfl
    · cases haction : step.action with
      | split => exact absurd haction (h step (List.mem_cons_self ..))
      | reserved tag => exact ih (fun s hs => h s (List.mem_cons_of_mem step hs)) _

include hsign hzero in
/-- The last step that splits leaves nothing to gain unless the budget is reached. -/
theorem saturated_runSteps (haction : step.action = .split) (hall : ¬ 1 < step.drawSize)
    (source : DrawSource γ) (maxLeaves : Nat) (before : List (Step ν)) {after : List (Step ν)}
    (hlast : ∀ s ∈ after, s.action ≠ .split) (hempty : g.queue = .empty) :
    (runSteps scorer source maxLeaves (before ++ step :: after) g).Saturated scorer step
      maxLeaves := by
  induction before generalizing g with
  | nil =>
    rw [List.nil_append, runSteps]
    split
    · rename_i hreached
      exact .inl hreached
    · rw [haction]
      dsimp only
      rw [Saturated, opened_runSteps hlast]
      exact saturated_runSplit hsign hzero hall source maxLeaves hempty
  | cons s before ih =>
    rw [List.cons_append, runSteps]
    split
    · rename_i hreached
      exact .inl hreached
    · cases s.action with
      | reserved tag => exact ih hempty
      | split => exact ih rfl

end Growth

end QuestionTree
