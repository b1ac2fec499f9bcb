import QuestionTree.Proofs.Growth.Search
import QuestionTree.Proofs.Growth.Stage

/-!
# Steps with a single question

A step with one question tries it once for every open leaf and never again, since a leaf that it
splits has no question left to hand on. If a single leaf is split in this way, `runSplit_of_single`
says what the step makes of the growing tree.
-/

namespace QuestionTree

variable {ν γ : Type}

namespace DrawSource

theorem sample_of_not_lt (source : DrawSource γ) {size : Nat} (hall : ¬ 1 < size)
    (items : List Nat) (state : γ) :
    source.sample size items state = (ascendingOrder items, state) := if_neg hall

end DrawSource

variable [Arithmetic ν] {scorer : Scorer ν} {source : DrawSource γ} {step : Step ν} {l : Leaf ν}
  {entry : Entry}

theorem Leaf.trials_single (hentries : l.entries = [entry]) :
    l.trials scorer step (DrawSource.ascendingOrder (List.range l.entries.length)) =
      [l.attempt scorer step 0 entry] := by
  have hslots : DrawSource.ascendingOrder (List.range 1) = [0] := List.mergeSort_singleton 0
  rw [hentries, List.length_singleton, hslots, trials, hentries]
  rfl

namespace Growth

variable {g : Growth ν γ}

theorem leave_of_empty (hempty : g.queue = .empty) (before : Growth ν γ) (step : Step ν) :
    ∃ e, g.leave before step = g.note e := by
  have hage : (Queue.empty : Queue (Candidate ν)).byAge = [] := List.mergeSort_nil
  have hclosed : g.close = g := by
    rw [close, hempty, hage, List.map_nil, List.append_nil, ← hempty]
  exact ⟨_, by rw [leave, hclosed]⟩

theorem splitAll_of_empty (hempty : g.queue = .empty) (maxLeaves : Nat) :
    g.splitAll scorer source step maxLeaves = g := by
  have hnone : g.commit? scorer source step = none := by
    rw [commit?, hempty]
    rfl
  rw [splitAll]
  split
  · rw [hnone]
  · rfl

theorem offer_of_no_questions (hentries : l.entries = [])
    (hdraws : (source.sample step.drawSize [] g.draws).2 = g.draws) :
    g.offer scorer source step l = { g with opened := g.opened ++ [l] } := by
  have htrials : ∀ slots, l.trials scorer step slots = [] := fun slots => by
    simp [Leaf.trials, hentries]
  have hbest : Leaf.best ([] : List (Trial ν)) = none := rfl
  rw [offer]
  split
  · rfl
  · rw [hentries, List.length_nil, List.range_zero]
    dsimp only
    rw [htrials, hbest, hdraws, List.filterMap_nil, List.map_nil, List.append_nil]

variable (hall : ¬ 1 < step.drawSize)

include hall

theorem offer_of_entries_nil (hentries : l.entries = []) :
    g.offer scorer source step l = { g with opened := g.opened ++ [l] } := by
  refine offer_of_no_questions hentries ?_
  rw [source.sample_of_not_lt hall]

theorem offer_of_refused (hentries : l.entries = [entry])
    (hrefused : l.attempt scorer step 0 entry = .refused) :
    g.offer scorer source step l = { g with opened := g.opened ++ [l] } := by
  have hbest : Leaf.best [(.refused : Trial ν)] = none := rfl
  have hloss : [(.refused : Trial ν)].filterMap Trial.loss? = [] := rfl
  rw [offer]
  split
  · rfl
  · rw [source.sample_of_not_lt hall]
    dsimp only
    rw [Leaf.trials_single hentries, hrefused, hbest, hloss, List.map_nil, List.append_nil]

theorem offer_of_admitted {c : Candidate ν} (hc : c.Admitted scorer step)
    (hentries : c.leaf.entries = [c.entry]) :
    g.offer scorer source step c.leaf = { g with queue := g.queue.insert c } := by
  have hslot : c.slot = 0 := by
    have hlt := (List.getElem?_eq_some_iff.1 hc.entry_at_slot).1
    rw [hentries, List.length_singleton] at hlt
    omega
  have hattempt := hc.attempt_eq
  rw [hslot] at hattempt
  have hbest : Leaf.best [.accepted c] = some c := rfl
  have hloss : [Trial.accepted c].filterMap Trial.loss? = [] := rfl
  rw [offer, if_neg hc.leaf_mass, source.sample_of_not_lt hall]
  dsimp only
  rw [Leaf.trials_single hentries, hattempt, hbest, hloss, List.map_nil, List.append_nil]

theorem foldl_offer_of_refused {ls : List (Leaf ν)} {entries : List Entry}
    (hentries : entries = [entry]) (hrefused : ∀ l ∈ ls,
      ({ l with entries := entries } : Leaf ν).attempt scorer step 0 entry = .refused) :
    ls.foldl (fun g l => g.offer scorer source step { l with entries := entries }) g =
      { g with opened := g.opened ++ ls.map fun l => { l with entries := entries } } := by
  induction ls generalizing g with
  | nil => rw [List.foldl_nil, List.map_nil, List.append_nil]
  | cons l ls ih =>
    obtain ⟨hl, hrest⟩ := List.forall_mem_cons.1 hrefused
    rw [List.foldl_cons, offer_of_refused hall hentries hl, ih hrest, List.map_cons,
      List.append_assoc, List.singleton_append]

theorem splitAll_of_single {maxLeaves : Nat} {c : Candidate ν}
    (hqueue : g.queue = .item c .empty .empty) (hbudget : g.leafCount < maxLeaves)
    (hentries : c.leaf.entries = [c.entry]) :
    g.splitAll scorer source step maxLeaves =
      { g.carryOut c .empty with
        opened := g.opened ++
          [(commitOf g.commits.length c).yes, (commitOf g.commits.length c).no] } := by
  have hremoved : swapRemove c.slot [c.entry] = [] := by
    cases c.slot <;> rfl
  have hyes : (commitOf g.commits.length c).yes.entries = [] := by
    rw [← hremoved, ← hentries]
    rfl
  have hno : (commitOf g.commits.length c).no.entries = [] := by
    rw [← hremoved, ← hentries]
    rfl
  have hnext : g.queue.next? = some (c, .empty) := by
    rw [hqueue]
    rfl
  have hcommit : g.commit? scorer source step = some
      { g.carryOut c .empty with
        opened := g.opened ++
          [(commitOf g.commits.length c).yes, (commitOf g.commits.length c).no] } := by
    refine commit?_eq_some_iff.2 ⟨c, .empty, hnext, ?_⟩
    have hopened : (g.carryOut c .empty).opened = g.opened := rfl
    rw [offer_of_entries_nil hall hyes, offer_of_entries_nil hall hno, hopened, List.append_assoc,
      List.singleton_append]
  rw [splitAll, if_pos hbudget, hcommit]
  exact splitAll_of_empty rfl maxLeaves

/-- A step with one question that splits a single leaf makes one commit. -/
theorem runSplit_of_single (source : DrawSource γ) {maxLeaves : Nat} {left right : List (Leaf ν)}
    {q : Handle Question} {c : Candidate ν} (hpool : step.pool.members = [q])
    (hempty : g.queue = .empty) (hopened : g.opened = left ++ l :: right)
    (hbudget : g.opened.length < maxLeaves)
    (hc : c.Admitted scorer step) (hleaf : c.leaf = { l with entries := [c.entry] })
    (hentry : c.entry = ⟨g.offered.length, q⟩)
    (hrefused : ∀ k ∈ left ++ right,
      ({ k with entries := [c.entry] } : Leaf ν).attempt scorer step 0 c.entry = .refused) :
    (g.runSplit scorer source maxLeaves step).root = g.root ∧
    (g.runSplit scorer source maxLeaves step).commits =
      g.commits ++ [commitOf g.commits.length c] ∧
    (g.runSplit scorer source maxLeaves step).opened =
      (left ++ right).map (fun k => { k with entries := [c.entry] }) ++
        [(commitOf g.commits.length c).yes, (commitOf g.commits.length c).no] ∧
    (g.runSplit scorer source maxLeaves step).queue = .empty ∧
    (g.runSplit scorer source maxLeaves step).offered = g.offered ++ [c.entry] := by
  have hsingle : c.leaf.entries = [c.entry] := by rw [hleaf]
  let relabel := fun k : Leaf ν => ({ k with entries := [c.entry] } : Leaf ν)
  let warned := { g with events := g.events ++ stepWarnings step g.root.mass }
  have hentered : warned.enter scorer source step =
      { warned with
        opened := (left ++ right).map relabel
        queue := .item c .empty .empty
        offered := g.offered ++ [c.entry] } := by
    have hentries : warned.entriesOf step = [c.entry] := by
      rw [entriesOf, hpool, hentry]
      rfl
    have hfold : warned.enter scorer source step = warned.opened.foldl
        (fun g' l => g'.offer scorer source step { l with entries := warned.entriesOf step })
        { warned with opened := [], offered := warned.offered ++ warned.entriesOf step } := rfl
    have hleaves : warned.opened = left ++ l :: right := hopened
    have hwaiting : warned.queue = .empty := hempty
    have hinsert : (Queue.empty : Queue (Candidate ν)).insert c = .item c .empty .empty := rfl
    obtain ⟨hleft, hright⟩ := List.forall_mem_append.1 hrefused
    rw [hfold, hentries, hleaves, List.foldl_append, foldl_offer_of_refused hall rfl hleft,
      List.foldl_cons, ← hleaf, offer_of_admitted hall hc hsingle,
      foldl_offer_of_refused hall rfl hright, hwaiting, hinsert, List.nil_append, List.map_append]
  have hsplit : g.runSplit scorer source maxLeaves step =
      ((warned.enter scorer source step).splitAll scorer source step maxLeaves).leave g step := rfl
  rw [hsplit]
  generalize warned.enter scorer source step = entered at hentered
  have hroot : entered.root = g.root := by rw [hentered]
  have hcommits : entered.commits = g.commits := by rw [hentered]
  have hleaves : entered.opened = (left ++ right).map relabel := by rw [hentered]
  have hqueue : entered.queue = .item c .empty .empty := by rw [hentered]
  have hoffered : entered.offered = g.offered ++ [c.entry] := by rw [hentered]
  have hcount : entered.leafCount < maxLeaves := by
    rw [leafCount, hleaves, hqueue, List.length_map]
    rw [hopened] at hbudget
    simpa [Queue.size, Nat.add_assoc] using hbudget
  have hlast : (entered.splitAll scorer source step maxLeaves).queue = .empty := by
    rw [splitAll_of_single hall hqueue hcount hsingle]
    rfl
  obtain ⟨e, hleave⟩ := leave_of_empty hlast g step
  rw [hleave, splitAll_of_single hall hqueue hcount hsingle, ← hroot, ← hcommits, ← hleaves,
    ← hoffered]
  exact ⟨rfl, rfl, rfl, rfl, rfl⟩

omit hall in
theorem runSteps_of_split {maxLeaves : Nat} (todo : List (Step ν))
    (hbudget : ¬ maxLeaves ≤ g.opened.length) (haction : step.action = .split) :
    runSteps scorer source maxLeaves (step :: todo) g = runSteps scorer source maxLeaves todo
      ((g.note (.stepEntered step)).runSplit scorer source maxLeaves step) := by
  rw [runSteps, if_neg hbudget, haction]

end Growth

end QuestionTree
