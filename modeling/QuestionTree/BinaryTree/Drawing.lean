import QuestionTree.BinaryTree.Basic
import QuestionTree.Text

/-!
# Listings and drawings of binary trees

A tree is shown in two ways: as lines for its nodes, and as a directed graph.
-/

namespace QuestionTree

/-! ### Listings

Each node gets a line, in the order in which the nodes are visited. The line is indented by twice
the depth of the node, and says whether the number of the node is that of a question or of a class.
-/

namespace Node

variable {ι : Type}

def line (n : Node ι) (depth : Nat) : String :=
  Text.blanks (2 * depth) ++ (if n.isLeaf then "class id" else "question id") ++ ": " ++ n.id.repr

/-- The lines of a subtree whose root has the given depth. -/
def lines (depth : Nat) : Node ι → List String
  | leaf id info => [(leaf id info).line depth]
  | internal id info yes no =>
    (internal id info yes no).line depth :: (yes.lines (depth + 1) ++ no.lines (depth + 1))

end Node

namespace BinaryTree

variable {ι : Type}

/-- The lines of the nodes, or one line for the empty tree. -/
def text (t : BinaryTree ι) : String :=
  match t.root? with
  | some root => Text.lines (root.lines 0)
  | none => Text.lines ["[empty]"]

end BinaryTree

/-! ### Drawings

The nodes are named in the order in which they are visited and labelled by their numbers, leaves are
double circles, and an edge to a child is declared before the child itself.
-/

inductive DrawingStatement where
  /-- The node of a name, its label and whether it is a leaf. -/
  | node (name label : Nat) (isLeaf : Bool)
  /-- The edge between two nodes, and whether it is the edge of yes. -/
  | edge (source target : Nat) (yes : Bool)
  deriving DecidableEq, Repr

namespace DrawingStatement

def text : DrawingStatement → String
  | node name label isLeaf =>
    "n" ++ name.repr ++ " [shape=" ++ (if isLeaf then "doublecircle" else "circle") ++
      " label=" ++ label.repr ++ "]"
  | edge source target yes =>
    "n" ++ source.repr ++ " -> n" ++ target.repr ++ "[label=" ++
      (if yes then "yes" else "no") ++ "]"

end DrawingStatement

namespace Node

variable {ι : Type}

/-- The statements of a subtree whose root gets the name `next`. -/
def drawing (next : Nat) : Node ι → List DrawingStatement
  | leaf id _ => [.node next id true]
  | internal id _ yes no =>
    let yesName := next + 1
    let noName := yesName + yes.weight
    .node next id false ::
      (.edge next yesName true :: yes.drawing yesName ++
        .edge next noName false :: no.drawing noName)

end Node

namespace BinaryTree

variable {ι : Type}

def drawing (t : BinaryTree ι) : List DrawingStatement :=
  match t.root? with
  | some root => root.drawing 0
  | none => []

def drawingText (t : BinaryTree ι) (name : String) : String :=
  Text.lines <|
    ["digraph \"" ++ name ++ "\" \x7b", "node [fontname=\"Helvetica\"]",
      "edge [fontname=\"Helvetica\"]"] ++
    t.drawing.map DrawingStatement.text ++ ["\x7d"]

end BinaryTree

end QuestionTree
