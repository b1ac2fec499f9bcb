import QuestionTree.Error
import QuestionTree.Json.Decoder
import QuestionTree.Json.Text
import QuestionTree.Question
import QuestionTree.Text

/-!
# Training plans

A plan is a sequence of steps against one schema. Each step brings its own questions and thresholds;
the budget of leaves is shared by all steps. A step is checked when it is added.
-/

namespace QuestionTree

/-! ### Actions of steps

A step splits leaves, or carries another tag that plans may use and growth leaves alone. Blanks
around the tag of an action do not count, and neither does the case of the word for splitting.
-/

/-- What a step does with the open leaves. -/
inductive StepAction where
  | split
  | reserved (tag : String)
  deriving DecidableEq, Repr

namespace StepAction

def text : StepAction → String
  | split => "split"
  | reserved tag => tag

def ofText (s : String) : Except Refusal StepAction :=
  let tag := Text.trim s
  if tag.isEmpty then
    .error (.unknownWord tag "StepAction" "split or a reserved action name")
  else if tag.toLower = "split" then .ok split
  else .ok (reserved tag)

def decoder : Decoder StepAction := Decoder.string.refine ofText

def toJson (a : StepAction) : Json := Json.ofString a.text

end StepAction

/-! ### Steps and plans -/

structure Step (ν : Type) where
  name : String
  action : StepAction
  minObs : ν
  minGain : ν
  /-- How many questions are drawn for a leaf; one asks all of them. -/
  drawSize : Nat
  pool : QuestionPool

namespace Step

def isRandomized {ν : Type} (s : Step ν) : Bool := decide (1 < s.drawSize)

/-- The step that splits by the given questions with the usual thresholds. -/
def ofPool (name : String) (pool : QuestionPool) : Step Float :=
  ⟨name, .split, 1.0, 0.0, 1, pool⟩

/-- Refuses thresholds out of range and questions that do not fit the schema. -/
def check (s : Step Float) (schema : Schema) : Except Error Unit := do
  Parameter.checkPositive s.minObs "min_obs"
  Parameter.checkPositive s.minGain "min_gain"
  Parameter.checkCount s.drawSize 1 "n_random_question"
  s.pool.questions.forM (·.validate schema)

def text (s : Step Float) : String :=
  "step " ++ Difference.quoted s.name ++ ": action=" ++ s.action.text ++ " min-obs=" ++
    NumberStyle.plain.render s.minObs ++ " min-gain=" ++ NumberStyle.plain.render s.minGain ++
    " questions=" ++ s.pool.size.repr ++
    (if s.isRandomized then " randomize=" ++ s.drawSize.repr else "")

end Step

/-- Steps that are run in order. -/
structure TrainingPlan (ν : Type) where
  schema : Schema
  maxLeaves : Nat
  steps : List (Step ν)

namespace TrainingPlan

def unlimited : Nat := UInt64.size - 1

def blank {ν : Type} (schema : Schema) : Except Error (TrainingPlan ν) := do
  schema.requireSet
  return ⟨schema, unlimited, []⟩

def addStep (p : TrainingPlan Float) (s : Step Float) : Except Error (TrainingPlan Float) := do
  s.check p.schema
  return { p with steps := p.steps ++ [s] }

def text (p : TrainingPlan Float) : String :=
  Text.lines <|
    ["training plan:"] ++
    (if p.maxLeaves = unlimited then [] else ["  max-leaves: " ++ p.maxLeaves.repr]) ++
    p.steps.map fun s => "  " ++ s.text

end TrainingPlan

end QuestionTree
