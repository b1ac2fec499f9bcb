import QuestionTree.Schema

/-!
# Records

A record says which value a thing has for each key of a schema, as far as that is known. Keys are
set and unset by name; a write that is refused leaves the record as it was. What lists hold of
records and questions is told apart by handles.
-/

namespace QuestionTree

/-! ### Handles

Two handles may carry equal items and still be different members.
-/

/-- An item with an identity of its own. -/
structure Handle (α : Type) where
  tag : Nat
  item : α
  deriving DecidableEq, Repr

namespace Handle

variable {α : Type}

def same (a b : Handle α) : Bool := a.tag == b.tag

/-- Handles for a list of items, tagged in order from a first tag on. -/
def ofList (first : Nat) (items : List α) : List (Handle α) :=
  (items.zipIdx first).map fun (item, tag) => ⟨tag, item⟩

end Handle

/-! ### Values of keys -/

/-- What is known of a thing. -/
structure Record where
  schema : Schema
  /-- For each key the place of its value, if it is known. -/
  values : List (Option Nat)
  deriving DecidableEq, Repr

namespace Record

def blank (schema : Schema) : Except Error Record := do
  schema.requireSet
  return ⟨schema, List.replicate schema.size none⟩

def set (r : Record) (key value : String) : Except Error Record := do
  let (k, v) ← r.schema.requireValue key value
  return { r with values := r.values.set k (some v) }

def unset (r : Record) (key : String) : Except Error Record := do
  let k ← r.schema.requireKey key
  return { r with values := r.values.set k none }

/-- The record in which the pairs of key and value are set one after the other. -/
def ofPairs (schema : Schema) (pairs : List (String × String)) : Except Error Record := do
  pairs.foldlM (fun r (key, value) => r.set key value) (← blank schema)

/-- Refuses an index that is defined and has no value in the vocabulary of its key. -/
def checkIndex (schema : Schema) (k index : Nat) : Except Error (Option Nat) :=
  if index = undefinedIndex then .ok none
  else if index < ((schema.vocabulary? k).getD ⟨[]⟩).size then .ok (some index)
  else .error (.valueOutOfRange (schema.keyName k) index)

def ofIndices (schema : Schema) (indices : List Nat) : Except Error Record := do
  schema.requireSet
  if indices.length ≠ schema.size then throw (.mismatchedCounts schema.size indices.length)
  return ⟨schema, ← indices.zipIdx.mapM fun (index, k) => checkIndex schema k index⟩

/-- The place of the value of a key, if it is known. -/
def value? (r : Record) (k : Nat) : Option Nat := (r.values[k]?).join

/-- The place of the value of a key, or the index of what is not defined. -/
def index (r : Record) (k : Nat) : Nat := (r.value? k).getD undefinedIndex

def symbolAt (r : Record) (k v : Nat) : String := ((r.schema.vocabulary? k).getD ⟨[]⟩).symbol v

/-- The symbol of the value of a key, if it is known. -/
def symbol? (r : Record) (key : String) : Option String := do
  let k ← r.schema.key? key
  let v ← r.value? k
  return r.symbolAt k v

/-- The names of the known keys with the symbols of their values. -/
def pairs (r : Record) : List (String × String) :=
  r.values.zipIdx.filterMap fun (value, k) =>
    value.map fun v => (r.schema.keyName k, r.symbolAt k v)

def text (r : Record) : String :=
  Text.spaced (r.pairs.map fun (key, value) => key ++ "=" ++ value)

end Record

end QuestionTree
