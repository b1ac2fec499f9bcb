import QuestionTree.BinaryTree.Basic
import QuestionTree.BinaryTree.Drawing
import QuestionTree.Error
import QuestionTree.Number.Binary64
import QuestionTree.Question
import QuestionTree.Schema

/-!
# Decision trees

A decision tree is a binary tree whose inner nodes carry places in a pool of questions and whose
leaves carry the numbers of classes. It is checked when it is made: the schema is set, every
question fits it, and every inner node names a question.
-/

namespace QuestionTree

def invalidOrder : Nat := UInt32.size - 1

/-- What growth notes down at a node. -/
structure NodeInfo (ν : Type) where
  /-- The place of the node in the order in which the nodes were made. -/
  order : Nat
  size : ν
  score : ν
  deriving BEq, Repr

def NodeInfo.blank {ν : Type} [Arithmetic ν] : NodeInfo ν := ⟨invalidOrder, 0, 0⟩

/-- Questions and the tree that asks them. -/
structure DecisionTree (ν : Type) where
  schema : Schema
  pool : QuestionPool
  tree : BinaryTree (NodeInfo ν)

namespace DecisionTree

variable {ν : Type}

def checkQuestions (schema : Schema) (pool : QuestionPool) : Except Error Unit :=
  pool.questions.forM (·.validate schema)

def checkNodes (pool : QuestionPool) (root? : Option (Node (NodeInfo ν))) : Except Error Unit :=
  match root? with
  | none => .ok ()
  | some root => (root.preorder.filter (!·.isLeaf)).forM fun n => do
    let _ ← pool.require n.id

def ofParts (schema : Schema) (pool : QuestionPool) (root? : Option (Node (NodeInfo ν))) :
    Except Error (DecisionTree ν) := do
  schema.requireSet
  checkQuestions schema pool
  checkNodes pool root?
  return ⟨schema, pool, ⟨root?⟩⟩

def root? (t : DecisionTree ν) : Option (Node (NodeInfo ν)) := t.tree.root?

def leaf? (t : DecisionTree ν) (classId : Nat) : Option (Node (NodeInfo ν)) := do
  (← t.root?).leaves.find? (·.id == classId)

end DecisionTree

/-! ### Walks

A record is led from the root to one leaf by the answers to the questions on its way, an answer that
is not defined counting as no. The way itself is a `Path`. The walk that follows both branches of
such an answer visits every node that the record could reach if more were known of it.
-/

/-- The way of a record through a tree. -/
structure Path (ν : Type) where
  steps : List (Handle Question × Answer)
  leaf : Node (NodeInfo ν)

namespace Node

variable {ν : Type}

/-- The leaf below a node that a record is led to. -/
def walk (pool : QuestionPool) (record : Record) : Node (NodeInfo ν) →
    Except Error (Node (NodeInfo ν))
  | .leaf id info => .ok (.leaf id info)
  | .internal id _ yes no => do
    let q ← pool.require id
    match (q.item.evaluate record).branches .assumeNo with
    | .yes => yes.walk pool record
    | _ => no.walk pool record

/-- The way of a record from a node to a leaf. -/
def pathFrom (pool : QuestionPool) (record : Record) : Node (NodeInfo ν) → Except Error (Path ν)
  | .leaf id info => .ok ⟨[], .leaf id info⟩
  | .internal id _ yes no => do
    let q ← pool.require id
    let answer := q.item.evaluate record
    let rest ← match answer.branches .assumeNo with
      | .yes => yes.pathFrom pool record
      | _ => no.pathFrom pool record
    return { rest with steps := (q, answer) :: rest.steps }

/-- The children that a record could go on to. -/
def followed (pool : QuestionPool) (record : Record) : Node (NodeInfo ν) →
    Except Error (List (Node (NodeInfo ν)))
  | .leaf _ _ => .ok []
  | .internal id _ yes no => do
    let q ← pool.require id
    match (q.item.evaluate record).branches .followBoth with
    | .yes => return [yes]
    | .no => return [no]
    | .both => return [yes, no]

theorem sublist_childList_of_followed {pool : QuestionPool} {record : Record}
    {n : Node (NodeInfo ν)} {next : List (Node (NodeInfo ν))}
    (h : n.followed pool record = .ok next) : next.Sublist n.childList := by
  cases n with
  | leaf id info =>
    cases h
    exact .slnil
  | internal id info yes no =>
    simp only [followed, bind, Except.bind] at h
    split at h
    · cases h
    · split at h <;> cases h
      · exact .cons_cons yes (List.nil_sublist [no])
      · exact .cons yes (.refl [no])
      · exact .refl [yes, no]

/-- The nodes that a record could reach from those on a stack, in the order in which they are
visited. -/
def explore (pool : QuestionPool) (record : Record) : List (Node (NodeInfo ν)) →
    Except Error (List (Node (NodeInfo ν)))
  | [] => .ok []
  | n :: stack =>
    match _h : n.followed pool record with
    | .error e => .error e
    | .ok next => (n :: ·) <$> explore pool record (next ++ stack)
termination_by stack => totalWeight stack
decreasing_by
  have hle := totalWeight_le_of_sublist ((sublist_childList_of_followed _h).append (.refl stack))
  exact Nat.lt_of_le_of_lt hle (totalWeight_childList_append n stack)

end Node

namespace DecisionTree

variable {ν : Type}

def find (t : DecisionTree ν) (record : Record) : Except Error (Node (NodeInfo ν)) := do
  (← t.tree.requireRoot).walk t.pool record

def classify (t : DecisionTree ν) (record : Record) : Except Error Nat :=
  Node.id <$> t.find record

def findPath (t : DecisionTree ν) (record : Record) : Except Error (Path ν) := do
  (← t.tree.requireRoot).pathFrom t.pool record

/-- The nodes that a record could reach, in the order in which they are visited. -/
def findAll (t : DecisionTree ν) (record : Record) : Except Error (List (Node (NodeInfo ν))) := do
  Node.explore t.pool record [← t.tree.requireRoot]

def findLeaves (t : DecisionTree ν) (record : Record) : Except Error (List (Node (NodeInfo ν))) :=
  (·.filter Node.isLeaf) <$> t.findAll record

def undefinedAnswer (t : DecisionTree ν) (q : Question) : LogLine :=
  ⟨.warning,
    "undefined answer to " ++ Difference.quoted (q.describe t.schema) ++ ", assume false"⟩

/-- The warnings of the walk of a record to its leaf. -/
def warnings (t : DecisionTree ν) (record : Record) : List LogLine :=
  match t.findPath record with
  | .ok path => (path.steps.filter (·.2 = .undefined)).map fun (q, _) => t.undefinedAnswer q.item
  | .error _ => []

/-- The questions of a way with their answers, one in each line, and the class at the end. -/
def pathText (t : DecisionTree ν) (path : Path ν) : String :=
  Text.lines <|
    path.steps.map (fun (q, answer) => q.item.describe t.schema ++ " " ++ answer.text) ++
    ["class id: " ++ path.leaf.id.repr]

/-! ### Listings -/

def text (t : DecisionTree ν) : String :=
  t.schema.text ++ "\n" ++ t.pool.text t.schema ++ "\ndecision tree:\n" ++ t.tree.text

def drawingText (t : DecisionTree ν) : String := t.tree.drawingText "decision-tree"

end DecisionTree

/-! ### Decision trees as texts

A tree is written with its schema, its questions and its nodes. What is read is checked as a tree
made of these parts would be.
-/

namespace NodeInfo

structure Draft where
  order : Option Nat := none
  size : Option Float := none
  score : Option Float := none

def fields (room : Nat) : List (Decoder.Field Draft) :=
  [Decoder.field "order" Draft.order (fun d order => { d with order })
     (Decoder.natBelow UInt32.size room),
   Decoder.field "size" Draft.size (fun d size => { d with size }) (Decoder.float room),
   Decoder.field "score" Draft.score (fun d score => { d with score }) (Decoder.float room)]

def decoder : Decoder (NodeInfo Float) :=
  Decoder.structured fields {} fun d => do
    let order ← Decoder.required "order" d.order
    let size ← Decoder.required "size" d.size
    let score ← Decoder.required "score" d.score
    return { order, size, score }

def toJson (i : NodeInfo Float) : Json :=
  Json.ofFields
    [("order", Json.ofNat i.order), ("size", Json.ofFloat i.size),
     ("score", Json.ofFloat i.score)]

end NodeInfo

namespace DecisionTree

/-- The parts of a tree as they are written. -/
structure Dump where
  schema : Schema
  questions : List Question
  tree : BinaryTree (NodeInfo Float)
  deriving BEq, Repr

namespace Dump

structure Draft where
  properties : Option Schema := none
  questions : Option (List Question) := none
  tree : Option (BinaryTree (NodeInfo Float)) := none

def fields (room : Nat) : List (Decoder.Field Draft) :=
  [Decoder.field "properties" Draft.properties (fun d properties => { d with properties })
     (Schema.decoder room),
   Decoder.field "questions" Draft.questions (fun d questions => { d with questions })
     (Decoder.list Question.decoder room),
   Decoder.field "tree" Draft.tree (fun d tree => { d with tree })
     (BinaryTree.decoder NodeInfo.decoder room)]

def decoder : Decoder Dump :=
  Decoder.structured fields {} fun d => do
    let schema ← Decoder.required "properties" d.properties
    let questions ← Decoder.required "questions" d.questions
    let tree ← Decoder.required "tree" d.tree
    return { schema, questions, tree }

def toJson (d : Dump) : Json :=
  Json.ofFields
    [("properties", d.schema.toJson), ("questions", Json.ofList Question.toJson d.questions),
     ("tree", d.tree.toJson NodeInfo.toJson)]

end Dump

def dump (t : DecisionTree Float) : Dump := ⟨t.schema, t.pool.questions, t.tree⟩

/-- The tree of dumped parts, each question with a new handle. It is made without nodes, and the
nodes are put in once they are checked. -/
def ofDump (d : Dump) : Except Error (DecisionTree Float) := do
  let t : DecisionTree Float ← ofParts d.schema (QuestionPool.ofQuestions 0 d.questions) none
  checkNodes t.pool d.tree.root?
  return { t with tree := d.tree }

def write (t : DecisionTree Float) : String := t.dump.toJson.write

def read (text : String) : Except Error (DecisionTree Float) := do
  ofDump (← Dump.decoder.load text)

end DecisionTree

end QuestionTree
