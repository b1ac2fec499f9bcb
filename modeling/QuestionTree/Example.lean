import QuestionTree.Error
import QuestionTree.Number.Decimal
import QuestionTree.Record
import QuestionTree.Schema
import QuestionTree.Text

/-!
# Examples

An example is a record that questions are asked about, with the observations that are to be grouped
and the mass of observations that it stands for. The examples of a list share one schema, their
masses are finite and not negative, and no handle is held twice.
-/

namespace QuestionTree

/-! ### Boxes of observations

A box holds values row by row. It can be read as a single value, as a vector or as a matrix. Cells
and rows are found by their places among the values alone, and places are counted in words of
sixty-four bits: the place after the last word is the first one again. Boxes are ranked by their
shapes and then value by value, and two boxes are equal when nothing tells their values apart, so
that a box with values that are not numbers equals itself. Whether there is room for the values of a
matrix is up to the memory, which is left open.
-/

/-- What answers whether there is room for a number of bytes. -/
structure Memory where
  grants : Nat → Bool

/-- A memory with room for so many bytes at a time. -/
def Memory.ofSize (bytes : Nat) : Memory := ⟨fun n => decide (n ≤ bytes)⟩

/-- A matrix of values, row by row. -/
structure Box (ν : Type) where
  rows : Nat
  columns : Nat
  data : List ν
  deriving Repr

namespace Box

variable {ν : Type} [Arithmetic ν]

def placeCount : Nat := UInt64.size

def maxCount : Nat := placeCount - 1

/-- The bytes that a memory can be asked for at a time. -/
def maxBytes : Nat := Nat.pow 2 63 - 1

def valueBytes : Nat := 8

/-- Whether there is room for a number of values. The memory is not asked for nothing, nor for more
than it can be asked for. -/
def roomFor (memory : Memory) (count : Nat) : Bool :=
  count == 0 || decide (count * valueBytes ≤ maxBytes) && memory.grants (count * valueBytes)

def zeros (memory : Memory) (rows columns : Nat) : Except Error (Box ν) :=
  let count := rows * columns
  if maxCount < count then .error (.allocationFailed maxCount)
  else if roomFor memory count then .ok ⟨rows, columns, List.replicate count 0⟩
  else .error (.allocationFailed count)

def single (value : ν) : Box ν := ⟨1, 1, [value]⟩

def vector (values : List ν) : Box ν := ⟨1, values.length, values⟩

/-- The box of a shape, which the values have to fill. -/
def ofValues (rows columns : Nat) (values : List ν) : Except Error (Box ν) :=
  if rows * columns = values.length then .ok ⟨rows, columns, values⟩
  else .error (.invalidShape rows columns values.length)

def first (b : Box ν) : ν := b.data.head?.getD 0

def size (b : Box ν) : Nat := b.data.length

def position (b : Box ν) (i j : Nat) : Nat := (i * b.columns + j) % placeCount

/-- The value of a cell, if there is a value at its place. -/
def at? (b : Box ν) (i j : Nat) : Option ν := b.data[b.position i j]?

/-- The box with another value in a cell, if there is a value at its place. -/
def setAt? (b : Box ν) (i j : Nat) (value : ν) : Option (Box ν) :=
  if b.position i j < b.size then some { b with data := b.data.set (b.position i j) value }
  else none

/-- The box with other values in the cells of a row from a column on, if there are values at their
places. -/
def writeRow? (b : Box ν) (i j : Nat) : List ν → Option (Box ν)
  | [] => some b
  | value :: rest => do (← b.setAt? i j value).writeRow? i (j + 1) rest

/-- Fills the rows of a box from one row on. A row of another length than the columns is refused. -/
def fillRows (b : Box ν) (i : Nat) : List (List ν) → Except Error (Box ν)
  | [] => .ok b
  | row :: rest =>
    if row.length ≠ b.columns then .error (.invalidShape b.rows b.columns row.length)
    else
      match b.writeRow? i 0 row with
      | some b => b.fillRows (i + 1) rest
      | none => .error (.invalidShape b.rows b.columns row.length)

/-- The box of the given rows, as wide as the first of them. -/
def ofRows (memory : Memory) (rows : List (List ν)) : Except Error (Box ν) := do
  (← zeros memory rows.length ((rows.head?.map List.length).getD 0)).fillRows 0 rows

/-- The values from the first place of a row to the first place of the next one, if these are places
of the box in this order. -/
def row? (b : Box ν) (i : Nat) : Option (List ν) :=
  let start := b.position i 0
  let stop := b.position (i + 1) 0
  if start ≤ stop ∧ stop ≤ b.size then some ((b.data.take stop).drop start) else none

def compareValues : List ν → List ν → Ordering
  | a :: as, b :: bs => (compare a b).then (compareValues as bs)
  | _, _ => .eq

instance : Ord (Box ν) where
  compare a b :=
    (compare a.rows b.rows).then
      ((compare a.columns b.columns).then (compareValues a.data b.data))

def same (a b : Box ν) : Bool := compare a b == .eq

def distinct (boxes : List (Box ν)) : List (Box ν) :=
  boxes.foldl (fun seen b => if seen.any (·.same b) then seen else seen ++ [b]) []

/-- The items in the order of their boxes; items with equal boxes keep their order. -/
def sortBy {α : Type} (box : α → Box ν) (items : List α) : List α :=
  items.mergeSort fun a b => compare (box a) (box b) != .gt

def hashData (b : Box Float) : Nat × Nat × List UInt64 :=
  (b.rows, b.columns, b.data.map Float.toBits)

def text (b : Box Float) : String :=
  String.intercalate "\n" <| (List.range b.rows).map fun i =>
    String.intercalate " " (((b.row? i).getD []).map NumberStyle.plain.render)

end Box

/-! ### Examples and their lists -/

structure Example (ν : Type) where
  record : Record
  box : Box ν
  mass : ν

namespace Example

variable {ν : Type} [Arithmetic ν]

def totalMass (examples : List (Example ν)) : ν :=
  Arithmetic.compensatedSum (examples.map mass)

def text (e : Example Float) : String :=
  "[" ++ e.record.text ++ "] nObs=" ++ NumberStyle.plain.render e.mass ++ " values=" ++ e.box.text

end Example

structure ExampleList (ν : Type) where
  schema : Schema
  members : List (Handle (Example ν))

namespace ExampleList

variable {ν : Type}

def blank (schema : Schema) : Except Error (ExampleList ν) := do
  schema.requireSet
  return ⟨schema, []⟩

def size (l : ExampleList ν) : Nat := l.members.length

def examples (l : ExampleList ν) : List (Example ν) := l.members.map Handle.item

def holds (l : ExampleList ν) (e : Handle (Example ν)) : Bool := l.members.any (·.same e)

def totalMass [Arithmetic ν] (l : ExampleList ν) : ν := Example.totalMass l.examples

def maxMass : Float := 1.7976931348623157e308

def add (l : ExampleList Float) (e : Handle (Example Float)) :
    Except Error (ExampleList Float) := do
  l.schema.requireSame e.item.record.schema
  Parameter.checkRange e.item.mass 0.0 maxMass "n_obs"
  if l.holds e then throw (.duplicateExample l.size)
  return { l with members := l.members ++ [e] }

end ExampleList

/-! ### Clusters of examples

A cluster holds the examples of one class. The clusters of a list are found by the place that equals
the number of their class, and they partition a list of examples if they hold each of its handles
exactly once and no other.
-/

structure Cluster (ν : Type) where
  classId : Nat
  members : List (Handle (Example ν))

namespace Cluster

variable {ν : Type}

def size (c : Cluster ν) : Nat := c.members.length

def totalMass [Arithmetic ν] (c : Cluster ν) : ν := Example.totalMass (c.members.map Handle.item)

def push (c : Cluster ν) (e : Handle (Example ν)) : Cluster ν :=
  { c with members := c.members ++ [e] }

end Cluster

/-- Clusters in the order of their classes. -/
structure ClusterList (ν : Type) where
  schema : Schema
  clusters : List (Cluster ν)

namespace ClusterList

variable {ν : Type}

def size (l : ClusterList ν) : Nat := l.clusters.length

def add (l : ClusterList ν) (c : Cluster ν) : ClusterList ν :=
  { l with clusters := l.clusters ++ [c] }

/-- The cluster of a class, if it stands at its place. -/
def get? (l : ClusterList ν) (classId : Nat) : Option (Cluster ν) :=
  l.clusters[classId]?.filter (·.classId == classId)

/-- Adds an example to the cluster of a class, if it stands at its place. -/
def push? (l : ClusterList ν) (classId : Nat) (e : Handle (Example ν)) : Option (ClusterList ν) :=
  (l.get? classId).map fun c => { l with clusters := l.clusters.set classId (c.push e) }

def members (l : ClusterList ν) : List (Handle (Example ν)) := l.clusters.flatMap Cluster.members

/-- Whether the clusters hold each example of a list once and nothing else. -/
def isPartitionOf (l : ClusterList ν) (examples : ExampleList ν) : Bool :=
  let tags := l.members.map Handle.tag
  (firstRepeated? [] tags).isNone && tags.length == examples.size &&
    examples.members.all (tags.contains ·.tag)

/-- The sizes and masses of the clusters, one in each line. -/
def text (l : ClusterList Float) : String :=
  Text.lines <| ("clusters: " ++ l.size.repr) :: l.clusters.map fun c =>
    Text.flushRight 5 c.classId.repr ++ ": " ++ c.size.repr ++ " examples, nObs=" ++
      NumberStyle.plain.render c.totalMass

end ClusterList

end QuestionTree
