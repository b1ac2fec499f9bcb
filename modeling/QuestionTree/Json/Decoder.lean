import QuestionTree.Error
import QuestionTree.Json.Text

/-!
# Reading values off a tree

A `Decoder` reads a value of some type and reports the first fault in the order of the text. Its
first argument is the nesting that is still allowed: a list or an object uses up one level, and none
may be entered when no level is left. An object is read field by field into a draft, which is
finished at its closing brace: a field that occurs twice is a fault where it occurs again, a field
that is lacking one at the brace, and fields of other names are passed over. The same value may be
written as the list of its fields in the order of their declaration.
-/

namespace QuestionTree

/-- Reads a value, given how many levels of lists and objects may still be entered. -/
abbrev Decoder (α : Type) := Nat → Json → Except ReadError α

namespace Decoder

/-- The levels of lists and objects that a text may have. -/
def maxNesting : Nat := 127

def fail {α : Type} : Decoder α := fun _ _ => .error .malformed

def string : Decoder String
  | _, .str spelling =>
    match Quoted.unescape? spelling with
    | some s => .ok s
    | none => .error .malformed
  | _, _ => .error .malformed

def natBelow (limit : Nat) : Decoder Nat
  | _, .num spelling =>
    match Numeral.nat? spelling with
    | some n => if n < limit then .ok n else .error .malformed
    | none => .error .malformed
  | _, _ => .error .malformed

/-- A size, an index or a seed: a natural number of sixty-four bits. -/
def word : Decoder Nat := natBelow UInt64.size

def float : Decoder Float
  | _, .num spelling =>
    match Numeral.float? spelling with
    | some x => .ok x
    | none => .error .malformed
  | _, _ => .error .malformed

def list {α : Type} (item : Decoder α) : Decoder (List α)
  | room + 1, .arr items closed => do
    let values ← items.mapM (item room)
    if closed then return values else throw .malformed
  | _, _ => .error .malformed

def option {α : Type} (value : Decoder α) : Decoder (Option α)
  | _, .null => .ok none
  | room, j => some <$> value room j

/-- A value that is built from another one, and may be refused. -/
def refine {α β : Type} (value : Decoder α) (build : α → Except Refusal β) : Decoder β :=
  fun room j => do
    let a ← value room j
    match build a with
    | .ok b => return b
    | .error refusal => throw (.refused refusal)

/-- The values of an object whose names are free. Of two values under one name the last is kept. -/
def dictionary {α : Type} (value : Decoder α) : Decoder (List (String × α))
  | room + 1, .obj members closed => do
    let entries ← members.foldlM (fun entries (name, j) => do
      let key ← string room (.str name)
      let a ← value room j
      return entries.filter (·.1 != key) ++ [(key, a)]) []
    if closed then return entries else throw .malformed
  | _, _ => .error .malformed

/-- One named field of an object that is read into a draft of type `σ`. -/
structure Field (σ : Type) where
  name : String
  hasDefault : Bool
  isSet : σ → Bool
  read : σ → Json → Except ReadError σ

/-- A field whose value one decoder reads and whose draft is a component. -/
def field {σ α : Type} (name : String) (get : σ → Option α) (set : σ → Option α → σ)
    (value : Json → Except ReadError α) : Field σ where
  name := name
  hasDefault := false
  isSet draft := (get draft).isSome
  read draft j := do return set draft (some (← value j))

/-- The same field, which a list of fields may leave out at its end. -/
def Field.withDefault {σ : Type} (f : Field σ) : Field σ := { f with hasDefault := true }

def readMember {σ : Type} (fields : List (Field σ)) (draft : σ) (member : String × Json) :
    Except ReadError σ :=
  match Quoted.unescape? member.1 with
  | none => .error .malformed
  | some name =>
    match fields.find? (·.name == name) with
    | none => if member.2.whole then .ok draft else .error .malformed
    | some f =>
      if f.isSet draft then .error (.duplicateField name) else f.read draft member.2

/-- Takes the items of a list into the draft, one field after the other. -/
def readItems {σ : Type} : List (Field σ) → σ → List Json → Except ReadError σ
  | [], draft, [] => .ok draft
  | [], _, _ :: _ => .error .malformed
  | f :: fields, draft, [] =>
    if f.hasDefault then readItems fields draft [] else .error .malformed
  | f :: fields, draft, item :: items => do
    readItems fields (← f.read draft item) items

/-- A value that is written as an object or as the list of its fields. -/
def ofFields {σ α : Type} (fields : List (Field σ)) (draft : σ) (finish : σ → Except ReadError α) :
    Json → Except ReadError α
  | .obj members closed => do
    let draft ← members.foldlM (readMember fields) draft
    if closed then finish draft else throw .malformed
  | .arr items closed => do
    let draft ← readItems fields draft items
    if closed then finish draft else throw .malformed
  | _ => .error .malformed

/-- A value that is written as an object or as the list of its fields, which are read with one level
of nesting less. -/
def structured {σ α : Type} (fields : Nat → List (Field σ)) (draft : σ)
    (finish : σ → Except ReadError α) : Decoder α
  | 0, _ => .error .malformed
  | room + 1, j => ofFields (fields room) draft finish j

def required {α : Type} (name : String) : Option α → Except ReadError α
  | some a => .ok a
  | none => .error (.missingField name)

/-- What stands behind the name of a case. -/
inductive Content (α : Type) where
  | nothing (a : α)
  | value (read : Decoder α)

/-- One of several cases, written as its name, or as an object with its name and content. -/
def variant {α : Type} (cases : List (String × Content α)) : Decoder α :=
  let select (spelling : String) : Except ReadError (Content α) :=
    match Quoted.unescape? spelling with
    | none => .error .malformed
    | some name =>
      match cases.lookup name with
      | some content => .ok content
      | none => .error (.unknownVariant name (cases.map (·.1)))
  fun
  | _, .str spelling => do
    match ← select spelling with
    | .nothing a => return a
    | .value _ => throw .malformed
  | room + 1, .obj (member :: others) closed => do
    let a ← match ← select member.1 with
      | .nothing a =>
        match member.2 with
        | .null => Except.ok a
        | _ => throw ReadError.malformed
      | .value read => read room member.2
    if others.isEmpty && closed then return a else throw .malformed
  | _, _ => .error .malformed

/-- A case of which no other case may be listed: an object with several members is refused before
the first of them is looked at. -/
def sole {α : Type} (value : Decoder α) : Decoder α
  | _, .obj (_ :: _ :: _) _ => .error .malformed
  | room, j => value room j

def ofText {α : Type} (value : Decoder α) (text : String) : Except ReadError α := do
  let document := Json.Document.ofText text
  let a ← value maxNesting document.tree
  if document.ended then return a else throw .malformed

def load {α : Type} (value : Decoder α) (text : String) : Except Error α :=
  match value.ofText text with
  | .ok a => .ok a
  | .error cause => .error (.unableToRead cause)

end Decoder

end QuestionTree
