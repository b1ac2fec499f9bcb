import QuestionTree.Growth.State
import QuestionTree.Proofs.Queue
import Mathlib.Data.Multiset.MapFold

/-!
# What one operation of growth does

An accepted split is described by `Candidate.Admitted`: the question stands at the slot of the leaf,
the sides are the examples that answer yes and the rest, each in its order, and every test of the
step is passed. Offering a leaf either opens it or queues an admitted split of it, and a commit
serves one split of the queue and offers its two children. Later modules reach the operations
through `offer_cases` and `commit?_eq_some_iff` and do not unfold them.
-/

namespace QuestionTree

variable {ν γ : Type}

/-- Whether an example answers a question by yes. -/
def Question.affirms (q : Question) (e : Handle (Example ν)) : Bool :=
  decide (q.evaluate e.item.record = .yes)

theorem Trial.eq_accepted {trial : Trial ν} {c : Candidate ν} (h : trial.candidate? = some c) :
    trial = .accepted c := by
  cases trial with
  | accepted d => exact congrArg Trial.accepted (Option.some.inj h)
  | _ => cases h

namespace Leaf

/-- The leaf without the questions that it may be split by. -/
def bare (l : Leaf ν) : Leaf ν := { l with entries := [] }

theorem divide_eq (l : Leaf ν) (q : Question) :
    l.divide q = (l.members.filter q.affirms, l.members.filter fun e => !q.affirms e) := by
  rw [divide, List.partition_eq_filter_filter]
  rfl

end Leaf

variable [Arithmetic ν]

/-- A split that passes every test of a step. -/
structure Candidate.Admitted (scorer : Scorer ν) (step : Step ν) (c : Candidate ν) : Prop where
  leaf_mass : ¬ c.leaf.mass < step.minObs + step.minObs
  entry_at_slot : c.leaf.entries[c.slot]? = some c.entry
  /-- One side holds the examples that answer yes, in their order. -/
  yes_members : c.yes.members = c.leaf.members.filter c.entry.question.item.affirms
  /-- The other side holds the other examples, in their order. -/
  no_members : c.no.members = c.leaf.members.filter fun e => !c.entry.question.item.affirms e
  /-- The mass of one side is that of its examples. -/
  yes_mass : c.yes.mass = Example.totalMass (c.yes.members.map Handle.item)
  /-- The mass of the other side is that of its examples. -/
  no_mass : c.no.mass = Example.totalMass (c.no.members.map Handle.item)
  rating : scorer.split (c.yes.members.map Handle.item) (c.no.members.map Handle.item) c.leaf.score
    = ⟨c.gain, c.yes.score, c.no.score⟩
  /-- Both sides reach the least mass of the step. -/
  reaches : ¬ (c.yes.mass < step.minObs ∨ c.no.mass < step.minObs)
  massive : ¬ (c.yes.mass ≤ 0 ∨ c.no.mass ≤ 0)
  no_loss : ¬ c.gain < 0
  /-- More is gained than the step asks for, and more than nothing. -/
  gains : step.minGain < c.gain ∧ 0 < c.gain

namespace Leaf

theorem admitted_of_attempt {scorer : Scorer ν} {step : Step ν} {l : Leaf ν} {slot : Nat}
    {entry : Entry} {c : Candidate ν} (hmass : ¬ l.mass < step.minObs + step.minObs)
    (hentry : l.entries[slot]? = some entry)
    (h : l.attempt scorer step slot entry = .accepted c) :
    c.Admitted scorer step ∧ c.leaf = l := by
  simp only [attempt, divide_eq] at h
  split at h
  · cases h
  · rename_i hreaches
    split at h
    · cases h
    · rename_i hmassive
      split at h
      · cases h
      · rename_i hloss
        split at h
        · rename_i hgains
          cases h
          exact ⟨⟨hmass, hentry, rfl, rfl, rfl, rfl, rfl, hreaches, hmassive, hloss, hgains⟩, rfl⟩
        · cases h

theorem better_eq_some {best : Option (Candidate ν)} {c d : Candidate ν}
    (h : better best c = some d) : best = some d ∨ d = c := by
  cases best with
  | none => exact .inr (Option.some.inj h).symm
  | some b =>
    simp only [better] at h
    split at h
    · exact .inr (Option.some.inj h).symm
    · exact .inl h

theorem mem_of_foldl_better {best : Option (Candidate ν)} {cs : List (Candidate ν)}
    {d : Candidate ν} (h : cs.foldl better best = some d) : best = some d ∨ d ∈ cs := by
  induction cs generalizing best with
  | nil => exact .inl h
  | cons c cs ih =>
    rcases ih h with hbest | hmem
    · rcases better_eq_some hbest with hbest | rfl
      · exact .inl hbest
      · exact .inr (List.mem_cons_self ..)
    · exact .inr (List.mem_cons_of_mem c hmem)

theorem accepted_of_best {trials : List (Trial ν)} {c : Candidate ν} (h : best trials = some c) :
    Trial.accepted c ∈ trials := by
  rcases mem_of_foldl_better h with hnone | hmem
  · cases hnone
  · obtain ⟨trial, htrial, hc⟩ := List.mem_filterMap.1 hmem
    exact Trial.eq_accepted hc ▸ htrial

theorem mem_trials {scorer : Scorer ν} {step : Step ν} {l : Leaf ν} {slots : List Nat}
    {trial : Trial ν} (h : trial ∈ l.trials scorer step slots) :
    ∃ slot ∈ slots, ∃ entry, l.entries[slot]? = some entry ∧
      l.attempt scorer step slot entry = trial := by
  obtain ⟨slot, hslot, hmap⟩ := List.mem_filterMap.1 h
  obtain ⟨entry, hentry, htrial⟩ := Option.map_eq_some_iff.1 hmap
  exact ⟨slot, hslot, entry, hentry, htrial⟩

theorem admitted_of_best {scorer : Scorer ν} {step : Step ν} {l : Leaf ν} {slots : List Nat}
    {c : Candidate ν} (hmass : ¬ l.mass < step.minObs + step.minObs)
    (h : best (l.trials scorer step slots) = some c) :
    c.Admitted scorer step ∧ c.leaf = l := by
  obtain ⟨slot, _, entry, hentry, hattempt⟩ := mem_trials (accepted_of_best h)
  exact admitted_of_attempt hmass hentry hattempt

end Leaf

namespace Growth

/-- The leaves of a growing tree: the open ones and those whose split waits. -/
def leaves (g : Growth ν γ) : Multiset (Leaf ν) := g.opened + g.queue.items.map Candidate.leaf

omit [Arithmetic ν] in
theorem card_leaves (g : Growth ν γ) : g.leaves.card = g.leafCount := by
  rw [leaves, Multiset.card_add, Multiset.card_map, Queue.card_items, Multiset.coe_card, leafCount]

omit [Arithmetic ν] in
theorem leaves_of_empty {g : Growth ν γ} (hempty : g.queue = .empty) : g.leaves = g.opened := by
  rw [leaves, hempty, Queue.items_empty, Multiset.map_zero, Multiset.add_zero]

/-- The growth with a split taken from the queue and carried out, its children not yet offered. -/
def carryOut (g : Growth ν γ) (c : Candidate ν) (queue : Queue (Candidate ν)) : Growth ν γ :=
  let commit := commitOf g.commits.length c
  let g := { g with queue := queue, commits := g.commits ++ [commit] }
  g.note (.split commit g.finalScore)

variable {scorer : Scorer ν} {source : DrawSource γ} {step : Step ν}

/-- Offering a leaf opens it or queues an admitted split of it. -/
theorem offer_cases (scorer : Scorer ν) (source : DrawSource γ) (step : Step ν) (g : Growth ν γ)
    (l : Leaf ν) :
    (∃ draws events, g.offer scorer source step l =
        { g with draws := draws, events := events, opened := g.opened ++ [l] }) ∨
    ∃ draws events c, c.Admitted scorer step ∧ c.leaf = l ∧ g.offer scorer source step l =
        { g with draws := draws, events := events, queue := g.queue.insert c } := by
  simp only [offer]
  split
  · exact .inl ⟨_, _, rfl⟩
  · rename_i hmass
    split
    · rename_i c hbest
      obtain ⟨hadmitted, hleaf⟩ := Leaf.admitted_of_best hmass hbest
      exact .inr ⟨_, _, c, hadmitted, hleaf, rfl⟩
    · exact .inl ⟨_, _, rfl⟩

theorem commit?_eq_some_iff {g g' : Growth ν γ} :
    g.commit? scorer source step = some g' ↔
      ∃ c queue, g.queue.next? = some (c, queue) ∧
        ((g.carryOut c queue).offer scorer source step (commitOf g.commits.length c).yes).offer
          scorer source step (commitOf g.commits.length c).no = g' := by
  simp only [commit?, carryOut, Option.map_eq_some_iff, Prod.exists]

theorem leaves_offer (g : Growth ν γ) (l : Leaf ν) :
    (g.offer scorer source step l).leaves = l ::ₘ g.leaves := by
  rcases offer_cases scorer source step g l with
    ⟨draws, events, heq⟩ | ⟨draws, events, c, _, rfl, heq⟩
  · have hopened : ((g.opened ++ [l] : List (Leaf ν)) : Multiset (Leaf ν)) = l ::ₘ ↑g.opened := by
      rw [← Multiset.coe_add, Multiset.coe_singleton, Multiset.add_comm, Multiset.singleton_add]
    rw [heq, leaves, leaves, hopened, Multiset.cons_add]
  · rw [heq, leaves, leaves, Queue.items_insert, Multiset.map_cons, Multiset.add_cons]

theorem leaves_of_next? {g : Growth ν γ} {c : Candidate ν} {queue : Queue (Candidate ν)}
    (h : g.queue.next? = some (c, queue)) : g.leaves = c.leaf ::ₘ (g.carryOut c queue).leaves := by
  rw [leaves, Queue.items_of_next? h, Multiset.map_cons, Multiset.add_cons]
  rfl

omit [Arithmetic ν] in
theorem leaves_close (g : Growth ν γ) : g.close.leaves = g.leaves := by
  have hperm := Multiset.coe_eq_coe.2 (g.queue.byAge_perm.map Candidate.leaf)
  rw [leaves, leaves, close, ← Multiset.coe_add, hperm, Queue.items_empty, Multiset.map_zero,
    Multiset.add_zero]
  rfl

end Growth

end QuestionTree
