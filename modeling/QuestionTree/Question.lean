import QuestionTree.Json.Decoder
import QuestionTree.Json.Text
import QuestionTree.Record

/-!
# Questions

A question asks whether the value of one key is an accepted one. It accepts a single value, or the
values of a set; the set is kept in ascending order without repetitions. Keys and values are
addressed by their places in the schema that the question was made for.
-/

namespace QuestionTree

/-! ### Answers

A question is answered by yes, by no, or not at all if the record does not know the value it asks
for. A walk that reaches an answer that is not defined either goes on as if it were no, or follows
both branches.
-/

inductive Answer where
  | yes
  | no
  | undefined
  deriving DecidableEq, Repr

/-- What a walk does where an answer is not defined. -/
inductive UndefinedPolicy where
  | assumeNo
  | followBoth
  deriving DecidableEq, Repr

/-- The branches that a walk follows. -/
inductive Branches where
  | yes
  | no
  | both
  deriving DecidableEq, Repr

namespace Answer

def branches : Answer → UndefinedPolicy → Branches
  | yes, _ => .yes
  | no, _ => .no
  | undefined, .assumeNo => .no
  | undefined, .followBoth => .both

def text : Answer → String
  | yes => "Yes!"
  | no => "No!"
  | undefined => "Maybe, maybe not ..."

def name : Answer → String
  | yes => "True"
  | no => "False"
  | undefined => "Undef"

/-- An answer by its name. Several names are refused, whichever they are. -/
def decoder : Decoder Answer :=
  Decoder.sole (Decoder.variant ([yes, no, undefined].map fun a => (a.name, .nothing a)))

def toJson (a : Answer) : Json := Json.ofString a.name

end Answer

/-! ### Asking -/

/-- Inserts a number into an ascending list, unless it is there already. -/
def insertAscending (n : Nat) : List Nat → List Nat
  | [] => [n]
  | m :: rest =>
    if n < m then n :: m :: rest else if n = m then m :: rest else m :: insertAscending n rest

def ascending (ns : List Nat) : List Nat := ns.foldr insertAscending []

/-- The values that a question accepts. -/
inductive Acceptance where
  | single (value : Nat)
  | set (values : List Nat)
  deriving DecidableEq, Repr

namespace Acceptance

def values : Acceptance → List Nat
  | single value => [value]
  | set values => values

def accepts (a : Acceptance) (value : Nat) : Bool := a.values.contains value

/-- Puts a set in ascending order and refuses the empty one. -/
def normalize : Acceptance → Except Refusal Acceptance
  | single value => .ok (single value)
  | set [] => .error (.emptyValueSet "set")
  | set values => .ok (set (ascending values))

end Acceptance

/-- A question about the value of one key. -/
structure Question where
  key : Nat
  acceptance : Acceptance
  description : String
  deriving DecidableEq, Repr

namespace Question

/-- Asks whether the value of a key is the given one. -/
def single (schema : Schema) (key value description : String) : Except Error Question := do
  let (k, v) ← schema.requireValue key value
  return ⟨k, .single v, description⟩

/-- Asks whether the value of a key is among the given ones, of which there must be one. -/
def oneOf (schema : Schema) (key : String) (values : List String) (description : String) :
    Except Error Question := do
  if values.isEmpty then throw (.refused (.emptyValueSet key))
  let indices ← values.mapM (schema.requireValue key ·)
  let k := (indices.getLast?.map Prod.fst).getD 0
  return ⟨k, .set (ascending (indices.map Prod.snd)), description⟩

def accepts (q : Question) (value : Nat) : Bool := q.acceptance.accepts value

/-- Refuses a question whose key or values the schema does not have. -/
def validate (q : Question) (schema : Schema) : Except Error Unit := do
  let vocabulary ← schema.requireVocabulary q.key
  match q.acceptance.values.find? (vocabulary.size ≤ ·) with
  | some v => throw (.valueOutOfRange (schema.keyName q.key) v)
  | none => return ()

def evaluate (q : Question) (record : Record) : Answer :=
  match record.value? q.key with
  | none => .undefined
  | some v => if q.accepts v then .yes else .no

/-- The name of an accepted value, or its place if the schema does not have the key. -/
def valueName (q : Question) (schema : Schema) (v : Nat) : String :=
  match schema.requireVocabulary q.key with
  | .ok vocabulary => vocabulary.symbol v
  | .error _ => v.repr

def describe (q : Question) (schema : Schema) : String :=
  let lead := if q.description.isEmpty then "" else "[" ++ q.description ++ "] "
  let key := Difference.quoted (schema.keyName q.key)
  match q.acceptance with
  | .single v =>
    lead ++ "Does the value of " ++ key ++ " equal " ++
      Difference.quoted (q.valueName schema v) ++ "?"
  | .set values =>
    lead ++ "Is the value of " ++ key ++ " in " ++
      Difference.braced (values.map (q.valueName schema)) ++ "?"

end Question

/-! ### Questions as texts

A question is written with the places of its key and values. A set is put in order when it is read,
and the empty set is refused. The description may be left out.
-/

namespace Acceptance

def wireDecoder : Decoder Acceptance :=
  Decoder.variant
    [("Scalar", .value fun room j => single <$> Decoder.word room j),
     ("Set", .value fun room j => set <$> Decoder.list Decoder.word room j)]

def decoder : Decoder Acceptance := wireDecoder.refine normalize

def toJson : Acceptance → Json
  | single value => Json.ofFields [("Scalar", Json.ofNat value)]
  | set values => Json.ofFields [("Set", Json.ofList Json.ofNat values)]

end Acceptance

namespace Question

structure Draft where
  key : Option Nat := none
  kind : Option Acceptance := none
  description : Option String := none

def fields (room : Nat) : List (Decoder.Field Draft) :=
  [Decoder.field "key" Draft.key (fun d key => { d with key }) (Decoder.word room),
   Decoder.field "kind" Draft.kind (fun d kind => { d with kind }) (Acceptance.decoder room),
   (Decoder.field "description" Draft.description (fun d description => { d with description })
     (Decoder.string room)).withDefault]

def decoder : Decoder Question :=
  Decoder.structured fields {} fun d => do
    let key ← Decoder.required "key" d.key
    let acceptance ← Decoder.required "kind" d.kind
    return { key, acceptance, description := d.description.getD "" }

def toJson (q : Question) : Json :=
  Json.ofFields
    [("key", Json.ofNat q.key), ("kind", q.acceptance.toJson),
     ("description", Json.ofString q.description)]

end Question

/-! ### Pools of questions

A pool is an ordered list of question handles. A handle may stand in it several times, and its index
is the first place where it stands.
-/

structure QuestionPool where
  members : List (Handle Question)
  deriving DecidableEq, Repr

namespace QuestionPool

def empty : QuestionPool := ⟨[]⟩

/-- The pool with a handle for each of the given questions, tagged from a first tag on. -/
def ofQuestions (first : Nat) (questions : List Question) : QuestionPool :=
  ⟨Handle.ofList first questions⟩

def push (pool : QuestionPool) (q : Handle Question) : QuestionPool := ⟨pool.members ++ [q]⟩

def size (pool : QuestionPool) : Nat := pool.members.length

def questions (pool : QuestionPool) : List Question := pool.members.map Handle.item

def indexOf? (pool : QuestionPool) (q : Handle Question) : Option Nat :=
  pool.members.findIdx? (·.same q)

def get? (pool : QuestionPool) (index : Nat) : Option (Handle Question) := pool.members[index]?

def require (pool : QuestionPool) (index : Nat) : Except Error (Handle Question) :=
  match pool.get? index with
  | some q => .ok q
  | none => .error (.questionOutOfRange index pool.size)

def text (pool : QuestionPool) (schema : Schema) : String :=
  Text.lines <| "questions:" :: pool.questions.zipIdx.map fun (q, i) =>
    Text.flushRight 3 i.repr ++ ". " ++ q.describe schema

end QuestionPool

end QuestionTree
