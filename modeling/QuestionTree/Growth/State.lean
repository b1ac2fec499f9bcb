import QuestionTree.Example
import QuestionTree.Growth.Queue
import QuestionTree.Plan
import QuestionTree.Question
import QuestionTree.Sampling
import QuestionTree.Scorer

/-!
# The state of growth

A run starts from a single leaf with all examples. A leaf without a split to wait for is open; the
best split of every other leaf waits in a queue. Committing the split with the greatest gain makes
two new leaves, so the commits, in the order of time, are the whole record of a run: the children of
the commit number `i`, counted from zero, have the indices `2 * i + 1` and `2 * i + 2`. What is
worth reporting is kept as a list of events.
-/

namespace QuestionTree

/-! ### Leaves

A leaf holds the examples that reached it with their mass and score, and the questions that it may
still be split by. The nodes of a run are numbered as they are made; what a tree and a queue show of
this number is the word of thirty-two bits that counts it. Every question that a run has on offer is
an entry with a number of its own, so equal questions of one pool stay apart.
-/

/-- A question on offer in a run. -/
structure Entry where
  /-- The place among all questions that the run has had on offer. -/
  id : Nat
  question : Handle Question
  deriving DecidableEq, Repr

/-- A node that has not been split. -/
structure Leaf (ν : Type) where
  /-- The number of the node among the nodes of the run. -/
  index : Nat
  depth : Nat
  mass : ν
  score : ν
  members : List (Handle (Example ν))
  entries : List Entry

/-- The place of the node in the order in which the nodes were made, as a word. -/
def Leaf.order {ν : Type} (l : Leaf ν) : Nat := l.index % UInt32.size

/-- The list without the item at a place, which the last item moves to. -/
def swapRemove {α : Type} (place : Nat) (items : List α) : List α :=
  match items.getLast? with
  | none => []
  | some last => (items.set place last).dropLast

/-! ### Splits of a leaf

A question splits the examples of a leaf into those that answer yes and the rest. A split is
accepted if both sides reach the least mass of the step and have some mass, and if it gains more
than the step asks for and more than nothing. Of several accepted splits the one with the greatest
gain is the best, and of equally good ones the one tried first.
-/

structure Side (ν : Type) where
  mass : ν
  score : ν
  members : List (Handle (Example ν))

/-- An accepted split of a leaf. -/
structure Candidate (ν : Type) where
  leaf : Leaf ν
  slot : Nat
  entry : Entry
  gain : ν
  yes : Side ν
  no : Side ν

instance {ν : Type} : Prioritized (Candidate ν) ν := ⟨fun c => ⟨c.gain, c.leaf.order⟩⟩

/-- What comes of trying a question at a leaf. -/
inductive Trial (ν : Type) where
  | refused
  | loss (gain : ν)
  | accepted (c : Candidate ν)

namespace Trial

variable {ν : Type}

def candidate? : Trial ν → Option (Candidate ν)
  | accepted c => some c
  | _ => none

def loss? : Trial ν → Option ν
  | loss gain => some gain
  | _ => none

end Trial

namespace Leaf

variable {ν : Type}

/-- The examples that answer a question by yes, and the others, each in their order. -/
def divide (l : Leaf ν) (q : Question) :
    List (Handle (Example ν)) × List (Handle (Example ν)) :=
  l.members.partition fun e => decide (q.evaluate e.item.record = .yes)

variable [Arithmetic ν]

def attempt (scorer : Scorer ν) (step : Step ν) (l : Leaf ν) (slot : Nat) (entry : Entry) :
    Trial ν :=
  let (yes, no) := l.divide entry.question.item
  let yesExamples := yes.map Handle.item
  let noExamples := no.map Handle.item
  let yesMass := Example.totalMass yesExamples
  let noMass := Example.totalMass noExamples
  if yesMass < step.minObs ∨ noMass < step.minObs then .refused
  else if yesMass ≤ 0 ∨ noMass ≤ 0 then .refused
  else
    let rating := scorer.split yesExamples noExamples l.score
    if rating.gain < 0 then .loss rating.gain
    else if step.minGain < rating.gain ∧ 0 < rating.gain then
      .accepted
        { leaf := l
          slot := slot
          entry := entry
          gain := rating.gain
          yes := ⟨yesMass, rating.left, yes⟩
          no := ⟨noMass, rating.right, no⟩ }
    else .refused

/-- Tries the questions at the given places one after the other. -/
def trials (scorer : Scorer ν) (step : Step ν) (l : Leaf ν) (slots : List Nat) :
    List (Trial ν) :=
  slots.filterMap fun slot => l.entries[slot]?.map (l.attempt scorer step slot)

/-- The better of two splits, the first one if they are equally good. -/
def better (best : Option (Candidate ν)) (c : Candidate ν) : Option (Candidate ν) :=
  match best with
  | none => some c
  | some b => if b.gain < c.gain then some c else some b

def best (trials : List (Trial ν)) : Option (Candidate ν) :=
  (trials.filterMap Trial.candidate?).foldl better none

end Leaf

/-! ### Growth -/

/-- A split that was carried out. -/
structure Commit (ν : Type) where
  candidate : Candidate ν
  yes : Leaf ν
  no : Leaf ν

/-- What is worth reporting of a run. -/
inductive Event (ν : Type) where
  | started (exampleCount : Nat) (scorer : String)
  | rated (score mass : ν)
  | budgetReached (maxLeaves : Nat)
  | stepEntered (step : Step ν)
  | actionSkipped (step : Step ν) (tag : String)
  | noQuestions (step : Step ν)
  | massTooSmall (step : Step ν) (mass : ν)
  | loss (gain : ν)
  | split (commit : Commit ν) (finalScore : ν)
  | stepLeft (step : Step ν) (splitCount : Nat) (gain finalScore : ν) (leafCount : Nat)

structure Growth (ν γ : Type) where
  root : Leaf ν
  draws : γ
  opened : List (Leaf ν)
  queue : Queue (Candidate ν)
  offered : List Entry
  commits : List (Commit ν)
  events : List (Event ν)

namespace Growth

variable {ν γ : Type} [Arithmetic ν]

def rootLeaf (scorer : Scorer ν) (examples : List (Handle (Example ν))) : Leaf ν :=
  let items := examples.map Handle.item
  { index := 0
    depth := 0
    mass := Example.totalMass items
    score := scorer.score items
    members := examples
    entries := [] }

def start (scorer : Scorer ν) (draws : γ) (examples : List (Handle (Example ν))) : Growth ν γ :=
  let root := rootLeaf scorer examples
  { root := root
    draws := draws
    opened := [root]
    queue := .empty
    offered := []
    commits := []
    events := [.started examples.length scorer.name, .rated root.score root.mass] }

def note (g : Growth ν γ) (e : Event ν) : Growth ν γ := { g with events := g.events ++ [e] }

def leafCount (g : Growth ν γ) : Nat := g.opened.length + g.queue.size

def totalGain (g : Growth ν γ) : ν :=
  g.commits.foldl (fun total c => total + c.candidate.gain) 0

def finalScore (g : Growth ν γ) : ν := g.root.score - g.totalGain

/-- Searches the best split of a leaf and puts it into the queue, or leaves the leaf open if there
is none. A leaf without the mass for two sides is not searched. -/
def offer (scorer : Scorer ν) (source : DrawSource γ) (step : Step ν) (g : Growth ν γ)
    (l : Leaf ν) : Growth ν γ :=
  if l.mass < step.minObs + step.minObs then { g with opened := g.opened ++ [l] }
  else
    let (slots, draws) := source.sample step.drawSize (List.range l.entries.length) g.draws
    let trials := l.trials scorer step slots
    let g := { g with
      draws := draws
      events := g.events ++ (trials.filterMap Trial.loss?).map Event.loss }
    match Leaf.best trials with
    | some c => { g with queue := g.queue.insert c }
    | none => { g with opened := g.opened ++ [l] }

/-- Puts the questions of a step on offer and searches the best splits of the open leaves. -/
def enter (scorer : Scorer ν) (source : DrawSource γ) (step : Step ν) (g : Growth ν γ) :
    Growth ν γ :=
  let entries := (step.pool.members.zipIdx g.offered.length).map fun (q, id) => ⟨id, q⟩
  g.opened.foldl (fun g l => g.offer scorer source step { l with entries := entries })
    { g with opened := [], offered := g.offered ++ entries }

/-- The commit number `i` of a split. The children may be split by the questions that are left. -/
def commitOf (i : Nat) (c : Candidate ν) : Commit ν :=
  let entries := swapRemove c.slot c.leaf.entries
  { candidate := c
    yes :=
      { index := 2 * i + 1
        depth := c.leaf.depth + 1
        mass := c.yes.mass
        score := c.yes.score
        members := c.yes.members
        entries := entries }
    no :=
      { index := 2 * i + 2
        depth := c.leaf.depth + 1
        mass := c.no.mass
        score := c.no.score
        members := c.no.members
        entries := entries } }

/-- Carries out the split that is served next and searches the best splits of its children. -/
def commit? (scorer : Scorer ν) (source : DrawSource γ) (step : Step ν) (g : Growth ν γ) :
    Option (Growth ν γ) :=
  g.queue.next?.map fun (c, queue) =>
    let commit := commitOf g.commits.length c
    let g := { g with queue := queue, commits := g.commits ++ [commit] }
    let g := g.note (.split commit g.finalScore)
    (g.offer scorer source step commit.yes).offer scorer source step commit.no

/-- Opens the leaves whose splits are still waiting, the oldest first. -/
def close (g : Growth ν γ) : Growth ν γ :=
  { g with opened := g.opened ++ g.queue.byAge.map Candidate.leaf, queue := .empty }

omit [Arithmetic ν] in
@[simp] theorem leafCount_note (g : Growth ν γ) (e : Event ν) :
    (g.note e).leafCount = g.leafCount := rfl

theorem leafCount_offer (scorer : Scorer ν) (source : DrawSource γ) (step : Step ν)
    (g : Growth ν γ) (l : Leaf ν) :
    (g.offer scorer source step l).leafCount = g.leafCount + 1 := by
  unfold offer
  split
  · simp [leafCount]
    omega
  · dsimp only
    split <;> (simp [leafCount]; omega)

theorem leafCount_of_commit? {scorer : Scorer ν} {source : DrawSource γ} {step : Step ν}
    {g g' : Growth ν γ} (h : g.commit? scorer source step = some g') :
    g'.leafCount = g.leafCount + 1 := by
  obtain ⟨⟨c, queue⟩, hnext, rfl⟩ := Option.map_eq_some_iff.1 h
  have hsize := Queue.size_of_next? hnext
  simp only [leafCount_offer, leafCount_note]
  simp only [leafCount]
  omega

end Growth

end QuestionTree
