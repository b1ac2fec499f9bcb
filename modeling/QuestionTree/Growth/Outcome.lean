import QuestionTree.DecisionTree
import QuestionTree.Example
import QuestionTree.Growth.Run
import QuestionTree.Json.Text
import QuestionTree.Number.Binary64
import QuestionTree.Question
import QuestionTree.Schema

/-!
# Training

Training runs a plan on examples of the same schema, makes the decision tree of the run, and puts
every example into the cluster of the class that the tree gives it. The totals of the run are summed
up, and what happened is reported.
-/

namespace QuestionTree

/-! ### Use of a question

The sum of the depths is a word of sixty-four bits, which starts again from zero when it is
exceeded.
-/

/-- How often and how well a question was used. -/
structure Statistic (ν : Type) where
  count : Nat
  sumGain : ν
  minGain : ν
  maxGain : ν
  sumDepth : Nat
  minDepth : Nat
  maxDepth : Nat

namespace Statistic

variable {ν : Type} [Arithmetic ν]

def blank : Statistic ν := ⟨0, 0, 0, 0, 0, 0, 0⟩

def record (s : Statistic ν) (gain : ν) (depth : Nat) : Statistic ν :=
  { count := s.count + 1
    sumGain := s.sumGain + gain
    minGain := if s.count = 0 then gain else Arithmetic.least s.minGain gain
    maxGain := if s.count = 0 then gain else Arithmetic.greatest s.maxGain gain
    sumDepth := (s.sumDepth + depth) % UInt64.size
    minDepth := if s.count = 0 then depth else min s.minDepth depth
    maxDepth := if s.count = 0 then depth else max s.maxDepth depth }

def meanGain? (s : Statistic Float) : Option Float :=
  if s.count = 0 then none else some (s.sumGain / Float.ofNat s.count)

def meanDepth? (s : Statistic Float) : Option Float :=
  if s.count = 0 then none else some (Float.ofNat s.sumDepth / Float.ofNat s.count)

def toJson (s : Statistic Float) : Json :=
  Json.ofFields
    [("count", Json.ofNat s.count), ("sum_gain", Json.ofFloat s.sumGain),
     ("min_gain", Json.ofFloat s.minGain), ("max_gain", Json.ofFloat s.maxGain),
     ("sum_depth", Json.ofNat s.sumDepth), ("min_depth", Json.ofNat s.minDepth),
     ("max_depth", Json.ofNat s.maxDepth)]

/-- The gains and the depths of the splits, least, mean and greatest. -/
def text (s : Statistic Float) : String :=
  "count=" ++ s.count.repr ++
    match s.meanGain?, s.meanDepth? with
    | some meanGain, some meanDepth =>
      " gain=[" ++ fixedList [s.minGain, meanGain, s.maxGain] ++ "] depth=[" ++
        s.minDepth.repr ++ ", " ++ fixedText 2 meanDepth ++ ", " ++ s.maxDepth.repr ++ "]"
    | _, _ => ""

end Statistic

/-! ### Summaries -/

structure Summary (ν : Type) where
  initialScore : ν
  totalGain : ν
  mass : ν
  splitCount : Nat
  leafCount : Nat
  statistics : List (Handle Question × Statistic ν)

namespace Summary

def finalScore {ν : Type} [Arithmetic ν] (s : Summary ν) : ν := s.initialScore - s.totalGain

def text (s : Summary Float) : String :=
  "initial-score=" ++ fixedText 4 s.initialScore ++ " total-gain=" ++ fixedText 4 s.totalGain ++
    " total-score=" ++ fixedText 4 s.finalScore ++ " nObs=" ++
    NumberStyle.plain.render s.mass ++ " nSplit=" ++ s.splitCount.repr ++ " nLeaf=" ++
    s.leafCount.repr

def statisticsText (s : Summary Float) (schema : Schema) : String :=
  Text.lines <|
    ("question statistics: " ++ s.statistics.length.repr) ::
    s.statistics.zipIdx.map fun ((q, statistic), i) =>
      Text.flushRight 3 i.repr ++ ". " ++ q.item.describe schema ++ " " ++ statistic.text

end Summary

/-! ### What comes of a run -/

structure Outcome (ν : Type) where
  tree : DecisionTree ν
  clusters : ClusterList ν
  summary : Summary ν

namespace Growth

variable {ν γ : Type} [Arithmetic ν]

def statisticOf (g : Growth ν γ) (entry : Entry) : Statistic ν :=
  (g.commitsOf entry).foldl
    (fun s c => s.record c.candidate.gain c.candidate.leaf.depth) Statistic.blank

/-- The totals of a run whose tree has a number of leaves. -/
def summary (g : Growth ν γ) (leafCount : Nat) : Summary ν where
  initialScore := g.root.score
  totalGain := g.totalGain
  mass := g.root.mass
  splitCount := g.commits.length
  leafCount := leafCount
  statistics := g.offered.map fun e => (e.question, g.statisticOf e)

/-- The decision tree of a run, with the number of its leaves. -/
def decisionTree (g : Growth ν γ) (schema : Schema) : Except Error (DecisionTree ν × Nat) := do
  let (root, leafCount) ← g.tree.toNode g.rank 0
  let tree ← DecisionTree.ofParts schema ⟨g.used.map Entry.question⟩ (some root)
  return (tree, leafCount)

end Growth

namespace DecisionTree

variable {ν : Type}

def clusters (t : DecisionTree ν) (examples : List (Handle (Example ν))) (classCount : Nat) :
    Except Error (ClusterList ν) := do
  let classes ← examples.mapM fun e => return (← t.classify e.item.record, e)
  return ⟨t.schema, (List.range classCount).map fun classId =>
    ⟨classId, (classes.filter (·.1 == classId)).map Prod.snd⟩⟩

end DecisionTree

/-- A plan with the scorer and the seed it is run with. -/
structure Trainer (ν : Type) where
  plan : TrainingPlan ν
  scorer : Scorer ν
  seed : Nat

namespace Trainer

variable {ν γ : Type} [Arithmetic ν]

def grow (t : Trainer ν) (source : DrawSource γ) (draws : γ) (examples : ExampleList ν) :
    Growth ν γ :=
  Growth.run t.scorer source draws t.plan examples.members

def finish (t : Trainer ν) (g : Growth ν γ) (examples : ExampleList ν) :
    Except Error (Outcome ν) := do
  let (tree, leafCount) ← g.decisionTree t.plan.schema
  let clusters ← tree.clusters examples.members leafCount
  return ⟨tree, clusters, g.summary leafCount⟩

/-- Trains on examples, which must be of the schema of the plan. -/
def train (t : Trainer ν) (source : DrawSource γ) (draws : γ) (examples : ExampleList ν) :
    Except Error (Outcome ν) := do
  t.plan.schema.requireSame examples.schema
  t.finish (t.grow source draws examples) examples

end Trainer

/-! ### Reports

The events of a run are reported as log lines. A loss that is no more than rounding noise is not
reported. After the run come the warnings of the walks by which the examples are put into clusters,
and the totals.
-/

namespace Event

def lossTolerance : Float := -1e-9

/-- One side of a split in the line of the split. -/
def sideText (l : Leaf Float) : String :=
  "order=" ++ l.order.repr ++ " score=" ++ fixedText 4 l.score ++ " nObs=" ++
    NumberStyle.plain.render l.mass

def splitText (schema : Schema) (c : Commit Float) (finalScore : Float) : String :=
  let l := c.candidate.leaf
  "split node " ++ l.order.repr ++ " (depth=" ++ l.depth.repr ++ " score=" ++
    fixedText 4 l.score ++ " nObs=" ++ NumberStyle.plain.render l.mass ++ ") with " ++
    Difference.quoted (c.candidate.entry.question.item.describe schema) ++ ": gain=" ++
    fixedText 4 c.candidate.gain ++ " yes: " ++ sideText c.yes ++ " no: " ++ sideText c.no ++
    " total-score=" ++ fixedText 4 finalScore

def stepName (step : Step Float) : String := "step " ++ Difference.quoted step.name

def line? (schema : Schema) : Event Float → Option LogLine
  | started exampleCount scorer =>
    some ⟨.info, "train decision tree on " ++ exampleCount.repr ++ " examples with " ++ scorer ++
      " scorer"⟩
  | rated score mass =>
    some ⟨.info, "initial-score=" ++ fixedText 4 score ++ " nObs=" ++
      NumberStyle.plain.render mass⟩
  | budgetReached maxLeaves =>
    some ⟨.info, "leaf budget of " ++ maxLeaves.repr ++
      " reached, remaining steps are skipped"⟩
  | stepEntered step => some ⟨.info, step.text⟩
  | actionSkipped step tag =>
    some ⟨.warning, stepName step ++ ": action " ++ Difference.quoted tag ++
      " is not supported, step skipped"⟩
  | noQuestions step => some ⟨.warning, stepName step ++ " has no questions"⟩
  | massTooSmall step mass =>
    some ⟨.warning, stepName step ++ ": min-obs " ++ NumberStyle.plain.render step.minObs ++
      " cannot be reached with " ++ NumberStyle.plain.render mass ++ " observations"⟩
  | loss gain =>
    if gain < lossTolerance then
      some ⟨.error, "negative split gain of " ++ NumberStyle.plain.render gain ++
        "; gain must be positive"⟩
    else none
  | split commit finalScore => some ⟨.debug, splitText schema commit finalScore⟩
  | stepLeft step splitCount gain finalScore leafCount =>
    some ⟨.info, stepName step ++ ": nSplit=" ++ splitCount.repr ++ " gain=" ++
      fixedText 4 gain ++ " total-score=" ++ fixedText 4 finalScore ++ " nLeaf=" ++
      leafCount.repr⟩

end Event

namespace Trainer

def trainLogged {γ : Type} (t : Trainer Float) (source : DrawSource γ) (draws : γ)
    (examples : ExampleList Float) : Logged (Outcome Float) :=
  match t.plan.schema.requireSame examples.schema with
  | .error e => .fail e
  | .ok () =>
    let g := t.grow source draws examples
    let lines := g.events.filterMap (Event.line? t.plan.schema)
    match t.finish g examples with
    | .error e => ⟨lines, .error e⟩
    | .ok outcome =>
      { lines :=
          lines ++ examples.examples.flatMap (fun e => outcome.tree.warnings e.record) ++
            [⟨.info, outcome.summary.text⟩]
        result := .ok outcome }

end Trainer

end QuestionTree
