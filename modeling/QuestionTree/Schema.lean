import QuestionTree.Json.Decoder
import QuestionTree.Json.Text

/-!
# Schemas

A schema is an ordered list of keys, each with its vocabulary: the symbols that its values are named
by. Keys and values are addressed by their places. A schema without keys counts as unset, and
operations that need one refuse it.
-/

namespace QuestionTree

/-! ### Vocabularies -/

/-- The name shown for a key or a value that is not defined. -/
def undefinedName : String := "<undef>"

/-- The index that stands for a key or a value that is not defined. -/
def undefinedIndex : Nat := UInt64.size - 1

/-- The first item of a list that stands there, or among the items seen before, already. -/
def firstRepeated? {α : Type} [BEq α] (seen : List α) : List α → Option α
  | [] => none
  | a :: rest => if seen.contains a then some a else firstRepeated? (a :: seen) rest

structure Vocabulary where
  symbols : List String
  deriving DecidableEq, Repr

namespace Vocabulary

/-- The vocabulary of a key, refused if a symbol is listed twice. -/
def ofList (key : String) (symbols : List String) : Except Refusal Vocabulary :=
  match firstRepeated? [] symbols with
  | some symbol => .error (.repeatedValue key symbol)
  | none => .ok ⟨symbols⟩

def size (v : Vocabulary) : Nat := v.symbols.length

def index? (v : Vocabulary) (symbol : String) : Option Nat := v.symbols.idxOf? symbol

/-- The symbol at a place, or the name of what is not defined. -/
def symbol (v : Vocabulary) (index : Nat) : String := v.symbols[index]?.getD undefinedName

def entries (v : Vocabulary) : List (Nat × String) :=
  v.symbols.zipIdx.map fun (symbol, index) => (index, symbol)

def text (v : Vocabulary) : String := Text.spaced v.symbols

def decoder : Decoder Vocabulary :=
  (Decoder.list Decoder.string).refine (ofList undefinedName)

def toJson (v : Vocabulary) : Json := Json.ofList Json.ofString v.symbols

end Vocabulary

/-! ### Keys and their vocabularies -/

/-- A key with the symbols of its vocabulary, as a schema is defined by. -/
structure Definition where
  key : String
  values : List String
  deriving DecidableEq, Repr

structure Property where
  key : String
  vocabulary : Vocabulary
  deriving DecidableEq, Repr

structure Schema where
  properties : List Property
  deriving DecidableEq, Repr

namespace Schema

/-- The properties of the definitions. Each definition is checked in turn: that there are two
symbols at least, then that the key is new, then that no symbol is listed twice. -/
def propertiesOf (seen : List String) : List Definition → Except Refusal (List Property)
  | [] => .ok []
  | d :: rest => do
    if d.values.length < 2 then throw (.tooFewValues d.key d.values.length)
    if seen.contains d.key then throw (.repeatedKey d.key)
    let vocabulary ← Vocabulary.ofList d.key d.values
    let properties ← propertiesOf (d.key :: seen) rest
    return ⟨d.key, vocabulary⟩ :: properties

def ofDefinitions (definitions : List Definition) : Except Refusal Schema :=
  Schema.mk <$> propertiesOf [] definitions

def ofLists (keys : List String) (values : List (List String)) : Except Error Schema :=
  if keys.length ≠ values.length then .error (.mismatchedCounts keys.length values.length)
  else
    match ofDefinitions (List.zipWith Definition.mk keys values) with
    | .ok schema => .ok schema
    | .error refusal => .error refusal

def definitions (s : Schema) : List Definition :=
  s.properties.map fun p => ⟨p.key, p.vocabulary.symbols⟩

def keys (s : Schema) : List String := s.properties.map Property.key

def size (s : Schema) : Nat := s.properties.length

def isSet (s : Schema) : Bool := !s.properties.isEmpty

def requireSet (s : Schema) : Except Error Unit :=
  if s.isSet then .ok () else .error .unsetSchema

def key? (s : Schema) (name : String) : Option Nat := s.keys.idxOf? name

def contains (s : Schema) (name : String) : Bool := (s.key? name).isSome

/-- The name of the key at a place, or the name of what is not defined. -/
def keyName (s : Schema) (index : Nat) : String := s.keys[index]?.getD undefinedName

def vocabulary? (s : Schema) (index : Nat) : Option Vocabulary :=
  s.properties[index]?.map Property.vocabulary

/-- The vocabulary of the key at a place, which must be there. -/
def requireVocabulary (s : Schema) (index : Nat) : Except Error Vocabulary := do
  s.requireSet
  match s.vocabulary? index with
  | some vocabulary => return vocabulary
  | none => throw (.keyOutOfRange index s.size)

def requireKey (s : Schema) (name : String) : Except Error Nat := do
  s.requireSet
  match s.key? name with
  | some index => return index
  | none => throw (.unknownKey name)

/-- The places of a key and of one of its values, which must be there. -/
def requireValue (s : Schema) (key value : String) : Except Error (Nat × Nat) := do
  let k ← s.requireKey key
  let vocabulary := (s.vocabulary? k).getD ⟨[]⟩
  match vocabulary.index? value with
  | some v => return (k, v)
  | none => throw (.unknownValue key value vocabulary.symbols)

def text (s : Schema) : String :=
  Text.lines ("properties:" :: s.properties.map fun p => "  " ++ p.key ++ ": " ++ p.vocabulary.text)

/-! ### Comparing schemas

The differences between two schemas are listed key by key: first those at the keys of the first
schema in their order, then the keys that only the second one has.
-/

/-- The differences at the key at place `i` of the first schema. -/
def differencesAt (other : Schema) (i : Nat) (p : Property) : List Difference :=
  match other.key? p.key with
  | none => [.onlyInFirst p.key]
  | some j =>
    let vocabulary := (other.vocabulary? j).getD ⟨[]⟩
    (if i = j then [] else [.index p.key i j]) ++
      (if p.vocabulary = vocabulary then []
       else [.values p.key p.vocabulary.symbols vocabulary.symbols])

def differences (s other : Schema) : List Difference :=
  s.properties.zipIdx.flatMap (fun (p, i) => differencesAt other i p) ++
    (other.keys.filter (!s.contains ·)).map Difference.onlyInSecond

def requireSame (s other : Schema) : Except Error Unit :=
  match s.differences other with
  | [] => .ok ()
  | differences => .error (.schemaMismatch differences)

end Schema

/-! ### Schemas as texts

A schema is written as the list of its definitions and checked when it is read.
-/

namespace Definition

structure Draft where
  key : Option String := none
  values : Option (List String) := none

def fields (room : Nat) : List (Decoder.Field Draft) :=
  [Decoder.field "key" Draft.key (fun d key => { d with key }) (Decoder.string room),
   Decoder.field "values" Draft.values (fun d values => { d with values })
     (Decoder.list Decoder.string room)]

def decoder : Decoder Definition :=
  Decoder.structured fields {} fun d => do
    let key ← Decoder.required "key" d.key
    let values ← Decoder.required "values" d.values
    return { key, values }

def toJson (d : Definition) : Json :=
  Json.ofFields [("key", Json.ofString d.key), ("values", Json.ofList Json.ofString d.values)]

end Definition

namespace Schema

def decoder : Decoder Schema := (Decoder.list Definition.decoder).refine ofDefinitions

def toJson (s : Schema) : Json := Json.ofList Definition.toJson s.definitions

end Schema

end QuestionTree
