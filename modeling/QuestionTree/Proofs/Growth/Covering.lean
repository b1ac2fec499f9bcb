import QuestionTree.Proofs.Growth.Range
import QuestionTree.Proofs.Growth.Search
import Mathlib.Data.List.Perm.Basic

/-!
# Draws that take everything

A draw of as many questions as there are returns all of them in some order, and the order is undone
before they are tried. Such a run does the same as one that draws nothing, whatever its draws come
from. The two runs are compared moment by moment: they are alike in all but the states of their
draws and in what is reported, as a report names the steps with the sizes of their draws. What
carries this is that no leaf has more questions left than its step has put on offer, for the list of
a leaf gets shorter with each split above it.
-/

namespace QuestionTree

variable {ν γ δ : Type}

/-! ### Draws -/

namespace DrawSource

/-- Whether a draw of at least as many items as there are returns every item once. -/
def Covers (source : DrawSource γ) : Prop :=
  ∀ size items state, items.length ≤ size → (source.draw size items state).1.Perm items

theorem ascendingOrder_of_perm {ns : List Nat} {n : Nat} (h : ns.Perm (List.range n)) :
    ascendingOrder ns = List.range n := by
  refine List.Perm.eq_of_pairwise' (pairwise_ascendingOrder ns) ?_
    ((List.mergeSort_perm ns _).trans h)
  exact List.pairwise_lt_range.imp Nat.le_of_lt

/-- Whether all of a number of items are tried. -/
def TakesAll (size count : Nat) : Prop := size ≤ 1 ∨ count ≤ size

theorem exists_sample {source : DrawSource γ} (hcovers : source.Covers) {size count : Nat}
    (hall : TakesAll size count) (state : γ) :
    ∃ after, source.sample size (List.range count) state = (List.range count, after) := by
  by_cases hdraws : 1 < size
  · have hcount : (List.range count).length ≤ size := by
      rw [List.length_range]
      exact hall.resolve_left (Nat.not_le_of_lt hdraws)
    refine ⟨(source.draw size (List.range count) state).2, ?_⟩
    rw [sample, if_pos hdraws]
    exact congrArg (·, _) (ascendingOrder_of_perm (hcovers size _ state hcount))
  · refine ⟨state, ?_⟩
    rw [sample, if_neg hdraws, ascendingOrder_of_perm (List.Perm.refl _)]

end DrawSource

theorem Generator.covers_source : source.Covers := by
  intro size items state hsize
  show (take size items state).1.Perm items
  induction size generalizing items state with
  | zero =>
    rw [List.length_eq_zero_iff.1 (Nat.le_zero.1 hsize)]
    exact List.Perm.refl []
  | succ size ih =>
    cases items with
    | nil => exact List.Perm.refl []
    | cons item items =>
      have hplace : state.next.1.toNat % (item :: items).length < (item :: items).length :=
        Nat.mod_lt _ (Nat.succ_pos _)
      have hrest := ih ((item :: items).eraseIdx (state.next.1.toNat % (item :: items).length))
        state.next.2 (by rw [List.length_eraseIdx_of_lt hplace]; omega)
      have hfirst := List.getD_eq_getElem (item :: items) 0 hplace
      refine (hrest.cons _).trans ?_
      exact hfirst ▸ List.getElem_cons_eraseIdx_perm hplace

/-! ### Steps that ask all their questions -/

/-- The step that tries all questions for a leaf. -/
def Step.asksAll (step : Step ν) : Step ν := { step with drawSize := 1 }

/-- Whether a step tries all questions of a leaf. -/
def Step.Tries (step : Step ν) (l : Leaf ν) : Prop :=
  DrawSource.TakesAll step.drawSize l.entries.length

theorem length_swapRemove_le {α : Type} (place : Nat) (items : List α) :
    (swapRemove place items).length ≤ items.length := by
  unfold swapRemove
  split
  · exact Nat.zero_le _
  · simp

theorem Step.Tries.of_length_le {step : Step ν} {l m : Leaf ν} (h : step.Tries l)
    (hle : m.entries.length ≤ l.entries.length) : step.Tries m :=
  h.imp_right hle.trans

namespace Growth

/-- Whether two states are the same but for their draws and their events. -/
structure Alike (g : Growth ν γ) (g' : Growth ν δ) : Prop where
  root_eq : g.root = g'.root
  opened_eq : g.opened = g'.opened
  queue_eq : g.queue = g'.queue
  offered_eq : g.offered = g'.offered
  commits_eq : g.commits = g'.commits

/-- Whether two states are alike and all questions of the leaves in the queue are tried by a
step. -/
structure InStep (step : Step ν) (g : Growth ν γ) (g' : Growth ν δ) : Prop where
  alike : g.Alike g'
  queued : ∀ c ∈ g.queue.items, step.Tries c.leaf

variable [Arithmetic ν] {scorer : Scorer ν} {source : DrawSource γ} {source' : DrawSource δ}
  {step : Step ν} {g : Growth ν γ} {g' : Growth ν δ}

namespace InStep

theorem offer (h : g.InStep step g') (hcovers : source.Covers) {l : Leaf ν} (hl : step.Tries l) :
    (g.offer scorer source step l).InStep step (g'.offer scorer source' step.asksAll l) := by
  obtain ⟨hroot, hopened, hqueue, hoffered, hcommits⟩ := h.alike
  obtain ⟨after, hsample⟩ := DrawSource.exists_sample hcovers hl g.draws
  have hsample' : source'.sample step.asksAll.drawSize (List.range l.entries.length) g'.draws =
      (List.range l.entries.length, g'.draws) :=
    congrArg (·, g'.draws) (DrawSource.ascendingOrder_of_perm (List.Perm.refl _))
  have htrials : l.trials scorer step.asksAll (List.range l.entries.length) =
      l.trials scorer step (List.range l.entries.length) := rfl
  have hobs : step.asksAll.minObs = step.minObs := rfl
  simp only [Growth.offer, hsample, hsample', htrials, hobs]
  split
  · exact ⟨⟨hroot, congrArg (· ++ [l]) hopened, hqueue, hoffered, hcommits⟩, h.queued⟩
  · rename_i hmass
    split
    · rename_i c hbest
      obtain ⟨_, rfl⟩ := Leaf.admitted_of_best hmass hbest
      refine ⟨⟨hroot, hopened, congrArg (·.insert c) hqueue, hoffered, hcommits⟩, ?_⟩
      intro d hd
      rw [Queue.items_insert] at hd
      rcases Multiset.mem_cons.1 hd with rfl | hd
      · exact hl
      · exact h.queued d hd
    · exact ⟨⟨hroot, congrArg (· ++ [l]) hopened, hqueue, hoffered, hcommits⟩, h.queued⟩

theorem foldl_offer (scorer : Scorer ν) (source' : DrawSource δ) (hcovers : source.Covers)
    {entries : List Entry} (hentries : DrawSource.TakesAll step.drawSize entries.length)
    (ls : List (Leaf ν)) (h : g.InStep step g') :
    (ls.foldl (fun g l => g.offer scorer source step { l with entries := entries }) g).InStep step
      (ls.foldl (fun g l => g.offer scorer source' step.asksAll { l with entries := entries })
        g') := by
  induction ls generalizing g g' with
  | nil => exact h
  | cons l ls ih => exact ih (h.offer hcovers hentries)

theorem commit? (h : g.InStep step g') (hcovers : source.Covers) (source' : DrawSource δ)
    {g₁ : Growth ν γ} (hcommit : g.commit? scorer source step = some g₁) :
    ∃ g₁', g'.commit? scorer source' step.asksAll = some g₁' ∧ g₁.InStep step g₁' := by
  obtain ⟨hroot, hopened, hqueue, hoffered, hcommits⟩ := h.alike
  obtain ⟨c, queue, hnext, rfl⟩ := commit?_eq_some_iff.1 hcommit
  have hitems := Queue.items_of_next? hnext
  have hchild : ∀ l : Leaf ν, l.entries = swapRemove c.slot c.leaf.entries → step.Tries l := by
    intro l hl
    refine (h.queued c (hitems ▸ Multiset.mem_cons_self ..)).of_length_le ?_
    rw [hl]
    exact length_swapRemove_le _ _
  have hout : (g.carryOut c queue).InStep step (g'.carryOut c queue) := by
    refine ⟨⟨hroot, hopened, rfl, hoffered, ?_⟩, ?_⟩
    · simp only [carryOut, note, hcommits]
    · exact fun d hd => h.queued d (hitems ▸ Multiset.mem_cons_of_mem hd)
  rw [hqueue] at hnext
  refine ⟨_, commit?_eq_some_iff.2 ⟨c, queue, hnext, rfl⟩, ?_⟩
  rw [← hcommits]
  exact (hout.offer hcovers (hchild _ rfl)).offer hcovers (hchild _ rfl)

theorem commit?_eq_none (h : g.InStep step g') (hcommit : g.commit? scorer source step = none) :
    g'.commit? scorer source' step.asksAll = none := by
  have hnext : g.queue.next? = none := Option.map_eq_none_iff.1 hcommit
  rw [h.alike.queue_eq] at hnext
  exact Option.map_eq_none_iff.2 hnext

theorem splitAll (h : g.InStep step g') (hcovers : source.Covers) (maxLeaves : Nat) :
    (g.splitAll scorer source step maxLeaves).InStep step
      (g'.splitAll scorer source' step.asksAll maxLeaves) := by
  have hcount : ∀ {g : Growth ν γ} {g' : Growth ν δ}, g.InStep step g' →
      g'.leafCount = g.leafCount := by
    intro g g' h
    rw [leafCount, leafCount, h.alike.opened_eq, h.alike.queue_eq]
  induction g using splitAll.induct scorer source step maxLeaves generalizing g' with
  | case1 g hbudget g₁ hcommit ih =>
    obtain ⟨g₁', hcommit', h₁⟩ := h.commit? hcovers source' hcommit
    rw [Growth.splitAll, Growth.splitAll, hcount h, if_pos hbudget, if_pos hbudget, hcommit,
      hcommit']
    exact ih h₁
  | case2 g hbudget hcommit =>
    rw [Growth.splitAll, Growth.splitAll, hcount h, if_pos hbudget, if_pos hbudget, hcommit,
      h.commit?_eq_none hcommit]
    exact h
  | case3 g hbudget =>
    rw [Growth.splitAll, Growth.splitAll, hcount h, if_neg hbudget, if_neg hbudget]
    exact h

end InStep

namespace Alike

omit [Arithmetic ν] in
theorem note (h : g.Alike g') (e e' : Event ν) : (g.note e).Alike (g'.note e') :=
  ⟨h.root_eq, h.opened_eq, h.queue_eq, h.offered_eq, h.commits_eq⟩

omit [Arithmetic ν] in
theorem close (h : g.Alike g') : g.close.Alike g'.close := by
  refine ⟨h.root_eq, ?_, rfl, h.offered_eq, h.commits_eq⟩
  rw [Growth.close, Growth.close, h.opened_eq, h.queue_eq]

theorem runSplit (h : g.Alike g') (hqueue : g.queue = .empty) (hcovers : source.Covers)
    (hall : DrawSource.TakesAll step.drawSize step.pool.size) (maxLeaves : Nat) :
    (g.runSplit scorer source maxLeaves step).Alike
      (g'.runSplit scorer source' maxLeaves step.asksAll) := by
  have hentries : g'.entriesOf step.asksAll = g.entriesOf step := by
    simp only [entriesOf, h.offered_eq, Step.asksAll]
  have hlength : (g.entriesOf step).length = step.pool.size := by
    rw [entriesOf, List.length_map, List.length_zipIdx]
    rfl
  have hstart : (g.takeOpen step).InStep step (g'.takeOpen step.asksAll) := by
    refine ⟨⟨h.root_eq, rfl, h.queue_eq, ?_, h.commits_eq⟩, ?_⟩
    · simp only [takeOpen, hentries, h.offered_eq]
    · intro c hc
      rw [takeOpen, hqueue] at hc
      exact absurd hc (Multiset.notMem_zero c)
  have hentered := InStep.foldl_offer scorer source' hcovers (hlength ▸ hall) g.opened hstart
  have hrun : g'.runSplit scorer source' maxLeaves step.asksAll =
      ((g'.opened.foldl (fun g l => g.offer scorer source' step.asksAll
        { l with entries := g'.entriesOf step.asksAll }) (g'.takeOpen step.asksAll)).splitAll scorer
          source' step.asksAll maxLeaves).leave g' step.asksAll := rfl
  rw [hrun, hentries, ← h.opened_eq]
  exact (hentered.splitAll hcovers maxLeaves).alike.close.note _ _

/-- Steps that try all their questions run alike. -/
theorem runSteps (hcovers : source.Covers) (maxLeaves : Nat) {todo : List (Step ν)}
    (hall : ∀ step ∈ todo, step.action = .split →
      DrawSource.TakesAll step.drawSize step.pool.size)
    (h : g.Alike g') (hqueue : g.queue = .empty) :
    (Growth.runSteps scorer source maxLeaves todo g).Alike
      (Growth.runSteps scorer source' maxLeaves (todo.map Step.asksAll) g') := by
  induction todo generalizing g g' with
  | nil => exact h
  | cons step todo ih =>
    obtain ⟨hstep, hrest⟩ := List.forall_mem_cons.1 hall
    rw [List.map_cons, Growth.runSteps, Growth.runSteps, ← h.opened_eq]
    split
    · exact h.note _ _
    · have haction : step.asksAll.action = step.action := rfl
      rw [haction]
      cases hkind : step.action with
      | reserved tag => exact ih hrest ((h.note _ _).note _ _) hqueue
      | split =>
        exact ih hrest ((h.note _ _).runSplit hqueue hcovers (hstep hkind) maxLeaves) rfl

end Alike

end Growth

end QuestionTree
