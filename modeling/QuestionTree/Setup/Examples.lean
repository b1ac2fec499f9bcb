import QuestionTree.Example
import QuestionTree.Schema

/-!
# Described examples

An example is described by the names of its keys with their values, the rows of its observations and
its mass. A list of examples is described with its schema.
-/

namespace QuestionTree

structure ExampleSetup where
  /-- The known keys with their values, each key once, in any order. -/
  properties : List (String × String)
  matrix : List (List Float) := []
  mass : Float := 1.0
  deriving BEq, Repr

namespace ExampleSetup

def inOrder (properties : List (String × String)) : List (String × String) :=
  properties.mergeSort fun a b => decide (a.1 ≤ b.1)

/-- The described example. Its keys are set in ascending order, so that of several unknown names the
same one is refused in whatever order they are listed. -/
def build (e : ExampleSetup) (memory : Memory) (schema : Schema) :
    Except Error (Example Float) := do
  let record ← Record.ofPairs schema (inOrder e.properties)
  let box ← Box.ofRows memory e.matrix
  return ⟨record, box, e.mass⟩

structure Draft where
  properties : Option (List (String × String)) := none
  matrix : Option (List (List Float)) := none
  mass : Option Float := none

def fields (room : Nat) : List (Decoder.Field Draft) :=
  [Decoder.field "properties" Draft.properties (fun d properties => { d with properties })
     (Decoder.dictionary Decoder.string room),
   (Decoder.field "matrix" Draft.matrix (fun d matrix => { d with matrix })
     (Decoder.list (Decoder.list Decoder.float) room)).withDefault,
   (Decoder.field "n_obs" Draft.mass (fun d mass => { d with mass })
     (Decoder.float room)).withDefault]

def decoder : Decoder ExampleSetup :=
  Decoder.structured fields {} fun d => do
    let properties ← Decoder.required "properties" d.properties
    return { properties, matrix := d.matrix.getD [], mass := d.mass.getD 1.0 }

def toJson (e : ExampleSetup) : Json :=
  Json.ofFields
    [("properties", Json.ofFields (e.properties.map fun (key, value) =>
        (key, Json.ofString value))),
     ("matrix", Json.ofList (Json.ofList Json.ofFloat) e.matrix),
     ("n_obs", Json.ofFloat e.mass)]

end ExampleSetup

structure ExampleListSetup where
  schema : Schema
  examples : List ExampleSetup
  deriving BEq, Repr

namespace ExampleListSetup

/-- Builds examples one after the other and adds them to a list, each with the next tag. -/
def addAll (memory : Memory) (schema : Schema) :
    List ExampleSetup → ExampleList Float → Except Error (ExampleList Float)
  | [], list => .ok list
  | e :: rest, list => do
    let item ← e.build memory schema
    addAll memory schema rest (← list.add ⟨list.size, item⟩)

/-- The described examples, made for a schema that has to be the described one. -/
def build (l : ExampleListSetup) (memory : Memory) (schema : Schema) :
    Except Error (ExampleList Float) := do
  schema.requireSame l.schema
  addAll memory schema l.examples (← ExampleList.blank schema)

structure Draft where
  properties : Option Schema := none
  examples : Option (List ExampleSetup) := none

def fields (room : Nat) : List (Decoder.Field Draft) :=
  [Decoder.field "properties" Draft.properties (fun d properties => { d with properties })
     (Schema.decoder room),
   Decoder.field "examples" Draft.examples (fun d examples => { d with examples })
     (Decoder.list ExampleSetup.decoder room)]

def decoder : Decoder ExampleListSetup :=
  Decoder.structured fields {} fun d => do
    let schema ← Decoder.required "properties" d.properties
    let examples ← Decoder.required "examples" d.examples
    return { schema, examples }

def toJson (l : ExampleListSetup) : Json :=
  Json.ofFields
    [("properties", l.schema.toJson), ("examples", Json.ofList ExampleSetup.toJson l.examples)]

end ExampleListSetup

end QuestionTree
