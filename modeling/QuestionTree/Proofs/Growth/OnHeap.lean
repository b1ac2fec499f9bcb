import QuestionTree.Proofs.Growth.Candidate
import QuestionTree.Proofs.Growth.Stage
import QuestionTree.Proofs.Queue.Heap

/-!
# Growth on any heap

A step that splits asks little of its queue, so any heap can stand in for it. `Growth.runSplitOn` is
the step with a heap of choice: leaves are offered by the same operation to a growing tree whose own
queue is empty, and what this puts into the queue goes to the heap. On the queue by gain it is
`Growth.runSplit`.
-/

namespace QuestionTree

variable {ν γ : Type} [Arithmetic ν]

/-- A growing tree whose splits wait in a heap. -/
structure HeapGrowth (H : Heap (Candidate ν)) (γ : Type) where
  growth : Growth ν γ
  store : H.Store
  queue_eq : growth.queue = .empty

namespace HeapGrowth

variable {H : Heap (Candidate ν)}

def leafCount (s : HeapGrowth H γ) : Nat := s.growth.opened.length + H.size s.store

variable (scorer : Scorer ν) (source : DrawSource γ) (step : Step ν)

/-- Searches the best split of a leaf and puts it into the heap, or leaves the leaf open. -/
def offer (s : HeapGrowth H γ) (l : Leaf ν) : HeapGrowth H γ :=
  let g := s.growth.offer scorer source step l
  ⟨{ g with queue := .empty }, g.queue.toList.foldr H.insert s.store, rfl⟩

/-- Carries out the split that the heap serves next and searches the best splits of its children. -/
def commit? (s : HeapGrowth H γ) : Option (HeapGrowth H γ) :=
  (H.next? s.store).map fun (c, store) =>
    let commit := Growth.commitOf s.growth.commits.length c
    let s : HeapGrowth H γ := ⟨s.growth.carryOut c .empty, store, rfl⟩
    (s.offer scorer source step commit.yes).offer scorer source step commit.no

variable {scorer source step}

theorem offer_cases (scorer : Scorer ν) (source : DrawSource γ) (step : Step ν)
    (s : HeapGrowth H γ) (l : Leaf ν) :
    (∃ draws events, s.offer scorer source step l =
        ⟨{ s.growth with draws := draws, events := events, opened := s.growth.opened ++ [l] },
          s.store, s.queue_eq⟩) ∨
    ∃ draws events c, c.Admitted scorer step ∧ c.leaf = l ∧ s.offer scorer source step l =
      ⟨{ s.growth with draws := draws, events := events }, H.insert c s.store, s.queue_eq⟩ := by
  obtain ⟨g, store, hqueue⟩ := s
  rcases Growth.offer_cases scorer source step g l with
    ⟨draws, events, heq⟩ | ⟨draws, events, c, hc, hleaf, heq⟩
  · refine .inl ⟨draws, events, ?_⟩
    simp only [offer, heq, hqueue]
    rfl
  · refine .inr ⟨draws, events, c, hc, hleaf, ?_⟩
    simp only [offer, heq, hqueue]
    rfl

theorem leafCount_offer (s : HeapGrowth H γ) (l : Leaf ν) :
    (s.offer scorer source step l).leafCount = s.leafCount + 1 := by
  rcases offer_cases scorer source step s l with ⟨_, _, heq⟩ | ⟨_, _, c, _, _, heq⟩
  · rw [heq, leafCount, leafCount, List.length_append, List.length_singleton]
    exact Nat.add_right_comm ..
  · rw [heq, leafCount, leafCount, H.size_eq, H.size_eq, (H.drain_insert c s.store).length_eq,
      List.length_cons]
    rfl

theorem leafCount_of_commit? {s s' : HeapGrowth H γ} (h : s.commit? scorer source step = some s') :
    s'.leafCount = s.leafCount + 1 := by
  obtain ⟨⟨c, store⟩, hnext, rfl⟩ := Option.map_eq_some_iff.1 h
  have hsize := (H.served hnext).1.length_eq
  rw [List.length_cons, ← H.size_eq, ← H.size_eq] at hsize
  rw [leafCount_offer, leafCount_offer, leafCount, leafCount, hsize]
  rfl

/-- Carries out the waiting splits while there are fewer leaves than the budget allows. -/
def splitAll (scorer : Scorer ν) (source : DrawSource γ) (step : Step ν) (maxLeaves : Nat)
    (s : HeapGrowth H γ) : HeapGrowth H γ :=
  if s.leafCount < maxLeaves then
    match _h : s.commit? scorer source step with
    | some s' => splitAll scorer source step maxLeaves s'
    | none => s
  else s
termination_by maxLeaves - s.leafCount
decreasing_by
  have := leafCount_of_commit? _h
  omega

/-- Puts the questions of a step on offer and searches the best splits of the open leaves. -/
def enter (H : Heap (Candidate ν)) (store : H.Store) (scorer : Scorer ν) (source : DrawSource γ)
    (step : Step ν) (g : Growth ν γ) : HeapGrowth H γ :=
  g.opened.foldl
    (fun s l => s.offer scorer source step { l with entries := g.entriesOf step })
    ⟨{ g.takeOpen step with queue := .empty }, store, rfl⟩

/-- The growing tree when the leaves of the heap are opened in the order in which it gives them
away. -/
def close (s : HeapGrowth H γ) : Growth ν γ :=
  { s.growth with opened := s.growth.opened ++ (H.drain s.store).map Candidate.leaf }

end HeapGrowth

namespace Growth

/-- A step that splits, on a heap whose store is given. -/
def runSplitOn (H : Heap (Candidate ν)) (store : H.Store) (scorer : Scorer ν)
    (source : DrawSource γ) (maxLeaves : Nat) (step : Step ν) (g : Growth ν γ) : Growth ν γ :=
  let entered := HeapGrowth.enter H store scorer source step g
  let after := (entered.splitAll scorer source step maxLeaves).close
  after.note
    (.stepLeft step (after.commits.length - g.commits.length) (after.totalGain - g.totalGain)
      after.finalScore after.opened.length)

end Growth

/-! ### The queue by gain -/

namespace HeapGrowth

variable [Std.TransOrd ν] {scorer : Scorer ν} {source : DrawSource γ} {step : Step ν}

/-- The growing tree with its heap as its queue. -/
def toGrowth (s : HeapGrowth (Queue.heap (Candidate ν)) γ) : Growth ν γ :=
  { s.growth with queue := s.store.1 }

theorem leafCount_toGrowth (s : HeapGrowth (Queue.heap (Candidate ν)) γ) :
    s.toGrowth.leafCount = s.leafCount := rfl

theorem toGrowth_offer (s : HeapGrowth (Queue.heap (Candidate ν)) γ) (l : Leaf ν) :
    (s.offer scorer source step l).toGrowth = s.toGrowth.offer scorer source step l := by
  obtain ⟨g, store, hqueue⟩ := s
  simp only [offer, toGrowth, Growth.offer]
  split
  · simp only [hqueue]
    rfl
  · split
    · simp only [hqueue]
      rfl
    · simp only [hqueue]
      rfl

theorem map_toGrowth_commit? (s : HeapGrowth (Queue.heap (Candidate ν)) γ) :
    (s.commit? scorer source step).map toGrowth = s.toGrowth.commit? scorer source step := by
  have hnext : s.toGrowth.queue.next? =
      ((Queue.heap (Candidate ν)).next? s.store).map fun s => (s.1, s.2.1) :=
    (Queue.map_nextHeaped? s.store).symm
  rw [commit?, Growth.commit?, hnext, Option.map_map, Option.map_map]
  congr 1
  funext served
  simp only [Function.comp, toGrowth_offer]
  rfl

theorem toGrowth_splitAll (s : HeapGrowth (Queue.heap (Candidate ν)) γ) (maxLeaves : Nat) :
    (s.splitAll scorer source step maxLeaves).toGrowth =
      s.toGrowth.splitAll scorer source step maxLeaves := by
  induction s using splitAll.induct scorer source step maxLeaves with
  | case1 s hbudget s' hcommit ih =>
    have hcommit' : (s.commit? scorer source step).map toGrowth =
        s.toGrowth.commit? scorer source step := map_toGrowth_commit? s
    rw [hcommit, Option.map_some] at hcommit'
    rw [splitAll, if_pos hbudget, hcommit, Growth.splitAll, leafCount_toGrowth, if_pos hbudget,
      ← hcommit']
    exact ih
  | case2 s hbudget hcommit =>
    have hcommit' : (s.commit? scorer source step).map toGrowth =
        s.toGrowth.commit? scorer source step := map_toGrowth_commit? s
    rw [hcommit, Option.map_none] at hcommit'
    rw [splitAll, if_pos hbudget, hcommit, Growth.splitAll, leafCount_toGrowth, if_pos hbudget,
      ← hcommit']
  | case3 s hbudget =>
    rw [splitAll, if_neg hbudget, Growth.splitAll, leafCount_toGrowth, if_neg hbudget]

theorem toGrowth_foldl_offer (entries : List Entry) (ls : List (Leaf ν))
    (s : HeapGrowth (Queue.heap (Candidate ν)) γ) :
    (ls.foldl (fun s l => s.offer scorer source step { l with entries := entries }) s).toGrowth =
      ls.foldl (fun g l => g.offer scorer source step { l with entries := entries })
        s.toGrowth := by
  induction ls generalizing s with
  | nil => rfl
  | cons l ls ih => rw [List.foldl_cons, ih, toGrowth_offer, List.foldl_cons]

theorem close_eq (s : HeapGrowth (Queue.heap (Candidate ν)) γ) : s.close = s.toGrowth.close := by
  obtain ⟨g, store, hqueue⟩ := s
  rw [close, Growth.close, toGrowth, ← hqueue]
  rfl

end HeapGrowth

/-- On the queue by gain a step is the step of a run. -/
theorem Growth.runSplitOn_heap [Std.TransOrd ν] (scorer : Scorer ν) (source : DrawSource γ)
    (maxLeaves : Nat) (step : Step ν) {g : Growth ν γ} (hempty : g.queue = .empty) :
    g.runSplitOn (Queue.heap _) (Queue.heap _).empty scorer source maxLeaves step =
      g.runSplit scorer source maxLeaves step := by
  have htaken : (⟨{ g.takeOpen step with queue := .empty }, (Queue.heap _).empty, rfl⟩ :
      HeapGrowth (Queue.heap (Candidate ν)) γ).toGrowth = g.takeOpen step := by
    rw [HeapGrowth.toGrowth, takeOpen, hempty]
    rfl
  simp only [runSplitOn, HeapGrowth.close_eq, HeapGrowth.toGrowth_splitAll, HeapGrowth.enter,
    HeapGrowth.toGrowth_foldl_offer, htaken]
  rfl

end QuestionTree
