import QuestionTree.Growth.Outcome
import QuestionTree.Proofs.Growth.Sound
import QuestionTree.Scorer

/-!
# Where the leaves of a run are

At every moment of a run a node that no commit has split is in exactly one place: among the open
leaves, in the queue with its best split, or, while a step opens, among the leaves that wait to be
offered. `Stage.Accounted` says so for a single moment in terms of the nodes made so far, together
with what the splits in the queue hold and what becomes of them when a step is left, and
`accounted_of_reaches` says that it is true of every moment that a run goes through.
-/

namespace QuestionTree

variable {ν γ : Type}

namespace Stage

/-- The nodes made so far, in the order of their indices. -/
def nodes (s : Stage ν γ) : List (Leaf ν) := nodesBelow s.growth.root s.growth.commits

/-- The leaves wherever they are: open, in the queue, or waiting to be offered. -/
def unsplit (s : Stage ν γ) : List (Leaf ν) :=
  s.growth.opened ++ s.growth.queue.toList.map Candidate.leaf ++ s.waiting

variable [Arithmetic ν]

/-- What is true of the leaves at a moment of a run. -/
structure Accounted (scorer : Scorer ν) (source : DrawSource γ) (maxLeaves : Nat)
    (examples : List (Handle (Example ν))) (s : Stage ν γ) : Prop where
  /-- No leaf is in two places. -/
  distinct : (s.unsplit.map Leaf.index).Nodup
  /-- The leaves are the nodes that no commit has split. -/
  index_iff : ∀ i, i ∈ s.unsplit.map Leaf.index ↔
    i < s.nodes.length ∧ ∀ c ∈ s.growth.commits, c.target ≠ i
  /-- There is one leaf more than there are commits. -/
  count : s.unsplit.length = s.growth.commits.length + 1
  /-- A leaf has the depth, the mass, the score and the examples of its node. -/
  kept : ∀ l ∈ s.unsplit, ∃ n, s.nodes[l.index]? = some n ∧ n.bare = l.bare
  /-- The question of a split in the queue stands at its slot, and the sides of the split are the
  examples of the node that answer yes and the rest, both in their order. -/
  queued : ∀ c ∈ s.growth.queue.toList, c.leaf.entries[c.slot]? = some c.entry ∧
    ∃ n, s.nodes[c.leaf.index]? = some n ∧
      c.yes.members = n.members.filter
        (fun e => decide (c.entry.question.item.evaluate e.item.record = .yes)) ∧
      c.no.members = n.members.filter
        (fun e => decide (c.entry.question.item.evaluate e.item.record ≠ .yes))
  /-- The leaves share out the examples. -/
  shared : (s.unsplit.flatMap Leaf.members).Perm examples
  /-- No split is in the queue unless a step is under way. -/
  at_rest : s.step? = none → s.growth.queue = .empty
  /-- When a step is left, the leaves whose splits were in the queue are open as they were, and the
  nodes are the same. -/
  given_back : ∀ s', s.next? scorer source maxLeaves = some s' → s'.step? = none →
    (∀ c ∈ s.growth.queue.toList, c.leaf ∈ s'.growth.opened) ∧ s'.nodes = s.nodes

variable {scorer : Scorer ν} {source : DrawSource γ} {maxLeaves : Nat}
  {examples : List (Handle (Example ν))} {steps : List (Step ν)} {s : Stage ν γ}

omit [Arithmetic ν] in
theorem coe_unsplit (s : Stage ν γ) :
    (s.unsplit : Multiset (Leaf ν)) = s.growth.leaves + s.waiting := by
  rw [unsplit, ← Multiset.coe_add, ← Multiset.coe_add, Growth.leaves, Queue.items, Multiset.map_coe]

omit [Arithmetic ν] in
theorem mem_unsplit_of_queued {c : Candidate ν} (hc : c ∈ s.growth.queue.toList) :
    c.leaf ∈ s.unsplit :=
  List.mem_append_left _ (List.mem_append_right _ (List.mem_map_of_mem hc))

omit [Arithmetic ν] in
theorem queue_eq_empty_of_items_eq_zero {α : Type} {q : Queue α} (h : q.items = 0) :
    q = .empty := by
  cases q with
  | empty => rfl
  | item a left right =>
    rw [Queue.items_item] at h
    exact absurd h (Multiset.cons_ne_zero)

theorem queue_eq_empty_of_sound (h : s.Sound scorer examples steps) (hrest : s.step? = none) :
    s.growth.queue = .empty := by
  refine queue_eq_empty_of_items_eq_zero (Multiset.eq_zero_of_forall_notMem fun c hc => ?_)
  obtain ⟨step, hstep, _⟩ := h.growing.queued c hc
  rw [hrest] at hstep
  cases hstep

/-- Leaving a step opens the leaves of the queue and makes no node. -/
theorem given_back_of_next? {s s' : Stage ν γ} (hrest : s.step? = none → s.growth.queue = .empty)
    (hnext : s.next? scorer source maxLeaves = some s') (hnone : s'.step? = none) :
    (∀ c ∈ s.growth.queue.toList, c.leaf ∈ s'.growth.opened) ∧ s'.nodes = s.nodes := by
  have hempty : s.step? = none → ∀ c ∈ s.growth.queue.toList, c.leaf ∈ s'.growth.opened := by
    intro hidle c hc
    rw [hrest hidle] at hc
    cases hc
  cases transition_of_next? hnext with
  | finish g => exact ⟨hempty rfl, rfl⟩
  | stop step todo g _ => exact ⟨hempty rfl, rfl⟩
  | skip step todo g tag _ _ => exact ⟨hempty rfl, rfl⟩
  | leave step before todo g _ =>
    refine ⟨fun c hc => ?_, rfl⟩
    have hold : c ∈ g.queue.byAge := g.queue.byAge_perm.mem_iff.2 hc
    exact List.mem_append_right _ (List.mem_map_of_mem hold)
  | enter step todo g _ _ => cases hnone
  | offer step entries before todo l waiting g => cases hnone
  | begin step entries before todo g => cases hnone
  | commit step before todo g g' _ _ => cases hnone

/-- Wherever a run is, its leaves are accounted for. -/
theorem accounted_of_reaches {draws : γ}
    (h : Reaches scorer source maxLeaves (between steps (Growth.start scorer draws examples)) s) :
    s.Accounted scorer source maxLeaves examples := by
  have hsound := (sound_of_reaches h).growing
  have hledger := hsound.ledger
  rw [← coe_unsplit] at hledger
  have hnode : ∀ l ∈ s.unsplit, ∃ n, s.nodes[l.index]? = some n ∧ n.bare = l.bare :=
    fun l hl => hledger.node_at_index (Multiset.mem_coe.2 hl)
  have hrest : s.step? = none → s.growth.queue = .empty := by
    intro hnone
    refine queue_eq_empty_of_items_eq_zero (Multiset.eq_zero_of_forall_notMem fun c hc => ?_)
    obtain ⟨step, hstep, _⟩ := hsound.queued c hc
    rw [hnone] at hstep
    cases hstep
  refine ⟨?_, ?_, ?_, hnode, ?_, ?_, hrest, fun _ => given_back_of_next? hrest⟩
  · exact Multiset.coe_nodup.1 (Multiset.map_coe .. ▸ hledger.nodup_indices)
  · intro i
    have hindex := hledger.mem_indices_iff (i := i)
    rwa [Multiset.map_coe, Multiset.mem_coe, ← length_nodesBelow s.growth.root] at hindex
  · have hcard := hledger.card_unsplit
    rwa [Multiset.coe_card] at hcard
  · intro c hc
    obtain ⟨step, _, hadmitted⟩ := hsound.queued c hc
    obtain ⟨n, hn, hbare⟩ := hnode c.leaf (mem_unsplit_of_queued hc)
    refine ⟨hadmitted.entry_at_slot, n, hn, ?_, ?_⟩
    · rw [Leaf.members_of_bare_eq hbare]
      exact hadmitted.yes_members
    · rw [Leaf.members_of_bare_eq hbare, hadmitted.no_members]
      exact List.filter_congr fun e _ => (decide_not).symm
  · have hshared := hledger.shared
    rw [Multiset.coe_bind] at hshared
    exact Multiset.coe_eq_coe.1 hshared

end Stage

/-! ### Two things of different colors -/

namespace Sample

/-- One key with two values. -/
def schema : Schema := ⟨[⟨"color", ⟨["red", "blue"]⟩⟩]⟩

/-- A red thing that shows a zero and a blue thing that shows a one. -/
def things : List (Handle (Example Float)) :=
  Handle.ofList 0
    [⟨⟨schema, [some 0]⟩, Box.single 0, 1⟩, ⟨⟨schema, [some 1]⟩, Box.single 1, 1⟩]

/-- Asks whether a thing is red. -/
def step : Step Float :=
  Step.ofPool "colors" (QuestionPool.ofQuestions 0 [⟨0, .single 0, ""⟩])

/-- Draws the first places. -/
def firstPlaces : DrawSource Unit := ⟨fun size items state => (items.take size, state)⟩

end Sample

namespace Stage

open Sample

/-- The moment in which the split of the red thing from the blue thing is in the queue. -/
theorem accounted_of_red_in_queue : ∃ s : Stage Float Unit,
    Reaches Variance.scorer firstPlaces 2
      (between [step] (Growth.start Variance.scorer () things)) s ∧
    s.growth.queue.size = 1 ∧ s.Accounted Variance.scorer firstPlaces 2 things := by
  let start : Growth Float Unit := (Growth.start Variance.scorer () things).note (.stepEntered step)
  have hopen : Reaches Variance.scorer firstPlaces 2
      (between [step] (Growth.start Variance.scorer () things))
      (opening step (start.entriesOf step) start [] start.opened (start.takeOpen step)) :=
    Reaches.of_next rfl Relation.ReflTransGen.refl
  have hsplit := hopen.trans (reaches_splitting step (start.entriesOf step) start [] start.opened
    (start.takeOpen step))
  exact ⟨_, hsplit, by decide +kernel, accounted_of_reaches hsplit⟩

end Stage

end QuestionTree
