import QuestionTree.Error
import QuestionTree.Growth.Outcome
import QuestionTree.Plan
import QuestionTree.Question
import QuestionTree.Schema
import QuestionTree.Scorer

/-!
# Described plans and trainers

A step is described by its settings and the templates of its questions, a plan by its schema, its
budget and its steps, and a trainer by its scorer, its seed and its plan.
-/

namespace QuestionTree

/-! ### Templates of questions

A template stands for one question or for several. It is about one key, or about each of the listed
keys, an empty list meaning every key of the schema. For each key there is one question that accepts
the values of the template, or one question for each of the listed values, an empty list meaning the
whole vocabulary of the key; a key with two values then gets a single question, since the other one
would be its negation. A template without values asks whether the value is `true`, with a warning.
-/

structure QuestionTemplate where
  description : String := ""
  key : Option String := none
  values : List String := []
  forEachKey : Option (List String) := none
  forEachValue : Option (List String) := none
  deriving DecidableEq, Repr

namespace QuestionTemplate

def predicateValue : String := "true"

def keys (t : QuestionTemplate) (schema : Schema) : Except Error (List String) :=
  match t.forEachKey, t.key with
  | some [], _ => .ok schema.keys
  | some keys, _ => .ok keys
  | none, some key => .ok [key]
  | none, none => .error (.invalidParameter "question" "a key or for_each_key" "neither")

/-- The question about a key that accepts the values of the template. -/
def combined (t : QuestionTemplate) (schema : Schema) (key : String) : Logged Question :=
  match t.values with
  | [] => do
    Logged.report ⟨.warning,
      "no values for question on key " ++ Difference.quoted key ++ ", assume predicate"⟩
    Question.single schema key predicateValue t.description
  | [value] => Question.single schema key value t.description
  | values => Question.oneOf schema key values t.description

def separateValues (schema : Schema) (key : String) : List String → Except Error (List String)
  | [] => do
    let vocabulary ← schema.requireVocabulary (← schema.requireKey key)
    return if vocabulary.size = 2 then vocabulary.symbols.take 1 else vocabulary.symbols
  | values => .ok values

def questionsOn (t : QuestionTemplate) (schema : Schema) (key : String) :
    Logged (List Question) :=
  match t.forEachValue with
  | none => do return [← t.combined schema key]
  | some values => Logged.ofExcept do
    (← separateValues schema key values).mapM fun value =>
      Question.single schema key value t.description

/-- Does a logged operation for each item, and joins the lists that come of it. -/
def collect {α β : Type} (f : α → Logged (List β)) : List α → Logged (List β)
  | [] => pure []
  | a :: rest => do
    let first ← f a
    let others ← collect f rest
    return first ++ others

def build (t : QuestionTemplate) (schema : Schema) : Logged (List Question) := do
  schema.requireSet
  let keys ← t.keys schema
  collect (t.questionsOn schema) keys

def buildAll (templates : List QuestionTemplate) (schema : Schema) : Logged (List Question) :=
  collect (·.build schema) templates

structure Draft where
  description : Option String := none
  key : Option (Option String) := none
  values : Option (List String) := none
  forEachKey : Option (Option (List String)) := none
  forEachValue : Option (Option (List String)) := none

def fields (room : Nat) : List (Decoder.Field Draft) :=
  let texts := Decoder.list Decoder.string
  [(Decoder.field "description" Draft.description (fun d description => { d with description })
     (Decoder.string room)).withDefault,
   (Decoder.field "key" Draft.key (fun d key => { d with key })
     (Decoder.string.option room)).withDefault,
   (Decoder.field "values" Draft.values (fun d values => { d with values })
     (texts room)).withDefault,
   (Decoder.field "for_each_key" Draft.forEachKey (fun d forEachKey => { d with forEachKey })
     (texts.option room)).withDefault,
   (Decoder.field "for_each_value" Draft.forEachValue
     (fun d forEachValue => { d with forEachValue }) (texts.option room)).withDefault]

def decoder : Decoder QuestionTemplate :=
  Decoder.structured fields {} fun d => .ok
    { description := d.description.getD ""
      key := d.key.join
      values := d.values.getD []
      forEachKey := d.forEachKey.join
      forEachValue := d.forEachValue.join }

def toJson (t : QuestionTemplate) : Json :=
  let texts := Json.ofList Json.ofString
  Json.ofFields
    [("description", Json.ofString t.description), ("key", Json.ofOption Json.ofString t.key),
     ("values", texts t.values), ("for_each_key", Json.ofOption texts t.forEachKey),
     ("for_each_value", Json.ofOption texts t.forEachValue)]

end QuestionTemplate

/-! ### Steps and plans -/

/-- The number of questions drawn for a leaf. -/
structure DrawSetup where
  questionCount : Nat := 5
  deriving DecidableEq, Repr

namespace DrawSetup

structure Draft where
  questionCount : Option Nat := none

def fields (room : Nat) : List (Decoder.Field Draft) :=
  [(Decoder.field "n_question" Draft.questionCount (fun d questionCount => { d with questionCount })
     (Decoder.word room)).withDefault]

def decoder : Decoder DrawSetup :=
  Decoder.structured fields {} fun d => .ok ⟨d.questionCount.getD 5⟩

def toJson (d : DrawSetup) : Json := Json.ofFields [("n_question", Json.ofNat d.questionCount)]

end DrawSetup

structure StepSetup where
  name : String := ""
  action : StepAction := .split
  minObs : Float := 1.0
  minGain : Float := 0.0
  /-- The draw of the questions for a leaf, if there is one. -/
  randomize : Option DrawSetup := none
  questions : List QuestionTemplate
  deriving BEq, Repr

namespace StepSetup

/-- The described step, its questions tagged from a first tag on. -/
def build (s : StepSetup) (schema : Schema) (first : Nat) : Logged (Step Float) := do
  let questions ← QuestionTemplate.buildAll s.questions schema
  return {
      name := s.name
      action := s.action
      minObs := s.minObs
      minGain := s.minGain
      drawSize := (s.randomize.map fun d => max d.questionCount 1).getD 1
      pool := QuestionPool.ofQuestions first questions }

structure Draft where
  name : Option String := none
  action : Option StepAction := none
  minObs : Option Float := none
  minGain : Option Float := none
  randomize : Option (Option DrawSetup) := none
  questions : Option (List QuestionTemplate) := none

def fields (room : Nat) : List (Decoder.Field Draft) :=
  [(Decoder.field "name" Draft.name (fun d name => { d with name })
     (Decoder.string room)).withDefault,
   (Decoder.field "action" Draft.action (fun d action => { d with action })
     (StepAction.decoder room)).withDefault,
   (Decoder.field "min_obs" Draft.minObs (fun d minObs => { d with minObs })
     (Decoder.float room)).withDefault,
   (Decoder.field "min_gain" Draft.minGain (fun d minGain => { d with minGain })
     (Decoder.float room)).withDefault,
   (Decoder.field "randomize" Draft.randomize (fun d randomize => { d with randomize })
     (DrawSetup.decoder.option room)).withDefault,
   Decoder.field "questions" Draft.questions (fun d questions => { d with questions })
     (Decoder.list QuestionTemplate.decoder room)]

def decoder : Decoder StepSetup :=
  Decoder.structured fields {} fun d => do
    let questions ← Decoder.required "questions" d.questions
    return {
        name := d.name.getD ""
        action := d.action.getD .split
        minObs := d.minObs.getD 1.0
        minGain := d.minGain.getD 0.0
        randomize := d.randomize.join
        questions := questions }

def toJson (s : StepSetup) : Json :=
  Json.ofFields
    [("name", Json.ofString s.name), ("action", s.action.toJson),
     ("min_obs", Json.ofFloat s.minObs), ("min_gain", Json.ofFloat s.minGain),
     ("randomize", Json.ofOption DrawSetup.toJson s.randomize),
     ("questions", Json.ofList QuestionTemplate.toJson s.questions)]

end StepSetup

structure PlanSetup where
  schema : Schema
  maxLeaves : Option Nat := none
  steps : List StepSetup
  deriving BEq, Repr

namespace PlanSetup

/-- Builds steps one after the other and adds them to a plan. The questions of all steps are tagged
in one row, from a first tag on. -/
def addAll (first : Nat) : List StepSetup → TrainingPlan Float → Logged (TrainingPlan Float)
  | [], plan => pure plan
  | s :: rest, plan => do
    let step ← s.build plan.schema first
    let plan ← (plan.addStep step : Except Error (TrainingPlan Float))
    addAll (first + step.pool.size) rest plan

/-- The described plan, made for a schema that has to be the described one. -/
def build (p : PlanSetup) (schema : Schema) : Logged (TrainingPlan Float) := do
  schema.requireSame p.schema
  let blank ← (TrainingPlan.blank schema : Except Error (TrainingPlan Float))
  addAll 0 p.steps { blank with maxLeaves := p.maxLeaves.getD TrainingPlan.unlimited }

structure Draft where
  properties : Option Schema := none
  maxLeaves : Option (Option Nat) := none
  steps : Option (List StepSetup) := none

def fields (room : Nat) : List (Decoder.Field Draft) :=
  [Decoder.field "properties" Draft.properties (fun d properties => { d with properties })
     (Schema.decoder room),
   (Decoder.field "max_leaves" Draft.maxLeaves (fun d maxLeaves => { d with maxLeaves })
     (Decoder.word.option room)).withDefault,
   Decoder.field "steps" Draft.steps (fun d steps => { d with steps })
     (Decoder.list StepSetup.decoder room)]

def decoder : Decoder PlanSetup :=
  Decoder.structured fields {} fun d => do
    let schema ← Decoder.required "properties" d.properties
    let steps ← Decoder.required "steps" d.steps
    return { schema, maxLeaves := d.maxLeaves.join, steps }

def toJson (p : PlanSetup) : Json :=
  Json.ofFields
    [("properties", p.schema.toJson), ("max_leaves", Json.ofOption Json.ofNat p.maxLeaves),
     ("steps", Json.ofList StepSetup.toJson p.steps)]

end PlanSetup

/-! ### Trainers -/

structure TrainerSetup where
  scorer : ScorerKind := .id3
  seed : Nat := 0
  plan : PlanSetup
  deriving BEq, Repr

namespace TrainerSetup

/-- The described trainer, made for a schema that has to be the described one. -/
def build (t : TrainerSetup) (schema : Schema) : Logged (Trainer Float) := do
  let plan ← t.plan.build schema
  return ⟨plan, t.scorer.scorer, t.seed⟩

structure Draft where
  scorer : Option ScorerKind := none
  seed : Option Nat := none
  plan : Option PlanSetup := none

def fields (room : Nat) : List (Decoder.Field Draft) :=
  [(Decoder.field "scorer" Draft.scorer (fun d scorer => { d with scorer })
     (ScorerKind.decoder room)).withDefault,
   (Decoder.field "seed" Draft.seed (fun d seed => { d with seed })
     (Decoder.word room)).withDefault,
   Decoder.field "plan" Draft.plan (fun d plan => { d with plan }) (PlanSetup.decoder room)]

def decoder : Decoder TrainerSetup :=
  Decoder.structured fields {} fun d => do
    let plan ← Decoder.required "plan" d.plan
    return { scorer := d.scorer.getD .id3, seed := d.seed.getD 0, plan }

def toJson (t : TrainerSetup) : Json :=
  Json.ofFields
    [("scorer", t.scorer.toJson), ("seed", Json.ofNat t.seed), ("plan", t.plan.toJson)]

end TrainerSetup

end QuestionTree
