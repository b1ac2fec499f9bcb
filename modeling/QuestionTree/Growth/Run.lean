import QuestionTree.DecisionTree
import QuestionTree.Growth.State

/-!
# Running a plan

The steps of a plan are run in order until the tree has as many leaves as the budget allows. A step
that splits searches the best splits of the open leaves and carries out the best split of all as
long as the budget lasts; every split makes one leaf more, so the splitting ends.
-/

namespace QuestionTree

namespace Growth

variable {ν γ : Type} [Arithmetic ν]

/-- Carries out the waiting splits, the best one first, while there are fewer leaves than the budget
allows. -/
def splitAll (scorer : Scorer ν) (source : DrawSource γ) (step : Step ν) (maxLeaves : Nat)
    (g : Growth ν γ) : Growth ν γ :=
  if g.leafCount < maxLeaves then
    match _h : g.commit? scorer source step with
    | some g' => splitAll scorer source step maxLeaves g'
    | none => g
  else g
termination_by maxLeaves - g.leafCount
decreasing_by
  have := leafCount_of_commit? _h
  omega

def stepWarnings (step : Step ν) (mass : ν) : List (Event ν) :=
  (if step.pool.size = 0 then [.noQuestions step] else []) ++
    (if mass < step.minObs + step.minObs then [.massTooSmall step mass] else [])

def runSplit (scorer : Scorer ν) (source : DrawSource γ) (maxLeaves : Nat) (step : Step ν)
    (g : Growth ν γ) : Growth ν γ :=
  let before := { g with events := g.events ++ stepWarnings step g.root.mass }
  let after := ((before.enter scorer source step).splitAll scorer source step maxLeaves).close
  after.note
    (.stepLeft step (after.commits.length - g.commits.length) (after.totalGain - g.totalGain)
      after.finalScore after.opened.length)

/-- Runs steps in order while there are fewer leaves than the budget allows. -/
def runSteps (scorer : Scorer ν) (source : DrawSource γ) (maxLeaves : Nat) :
    List (Step ν) → Growth ν γ → Growth ν γ
  | [], g => g
  | step :: rest, g =>
    if maxLeaves ≤ g.opened.length then g.note (.budgetReached maxLeaves)
    else
      let g := g.note (.stepEntered step)
      match step.action with
      | .reserved tag => runSteps scorer source maxLeaves rest (g.note (.actionSkipped step tag))
      | .split =>
        runSteps scorer source maxLeaves rest (g.runSplit scorer source maxLeaves step)

def run (scorer : Scorer ν) (source : DrawSource γ) (draws : γ) (plan : TrainingPlan ν)
    (examples : List (Handle (Example ν))) : Growth ν γ :=
  runSteps scorer source plan.maxLeaves plan.steps (start scorer draws examples)

end Growth

/-! ### The tree of a run

The commits of a run are replayed on its first leaf: each one splits the leaf of the index that it
names. In the decision tree an inner node carries the rank of its question among the questions that
were used, and the leaves are numbered from left to right.
-/

/-- A tree whose inner nodes are commits. -/
inductive GrownTree (ν : Type) where
  | leaf (l : Leaf ν)
  | split (c : Commit ν) (yes no : GrownTree ν)

namespace GrownTree

variable {ν : Type}

def apply (c : Commit ν) : GrownTree ν → GrownTree ν
  | leaf l => if l.index = c.candidate.leaf.index then split c (leaf c.yes) (leaf c.no) else leaf l
  | split d yes no => split d (yes.apply c) (no.apply c)

def infoOf (l : Leaf ν) : NodeInfo ν := ⟨l.order, l.mass, l.score⟩

/-- The node of a decision tree, with the number of the next leaf after it. The first argument gives
the rank of the question of an inner node. -/
def toNode (rank : Entry → Except Error Nat) (next : Nat) :
    GrownTree ν → Except Error (Node (NodeInfo ν) × Nat)
  | leaf l => .ok (.leaf next (infoOf l), next + 1)
  | split c yes no => do
    let id ← rank c.candidate.entry
    let (yes, next) ← yes.toNode rank next
    let (no, next) ← no.toNode rank next
    return (.internal id (infoOf c.candidate.leaf) yes no, next)

end GrownTree

namespace Growth

variable {ν γ : Type}

def tree (g : Growth ν γ) : GrownTree ν :=
  g.commits.foldl (fun t c => t.apply c) (.leaf g.root)

def commitsOf (g : Growth ν γ) (entry : Entry) : List (Commit ν) :=
  g.commits.filter (·.candidate.entry.id == entry.id)

/-- The questions that were used, in the order in which they were put on offer. -/
def used (g : Growth ν γ) : List Entry := g.offered.filter fun e => !(g.commitsOf e).isEmpty

def rank (g : Growth ν γ) (entry : Entry) : Except Error Nat :=
  match g.used.findIdx? (·.id == entry.id) with
  | some place => .ok place
  | none => .error (.questionOutOfRange entry.id g.offered.length)

end Growth

end QuestionTree
