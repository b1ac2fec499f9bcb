import QuestionTree.Error
import QuestionTree.Json.Decoder
import QuestionTree.Json.Text

/-!
# Binary trees

A node carries a number and some information, and has either two children or none. Traversals visit
a node before its children and the child of yes before the child of no. They keep the subtrees still
to be visited on a stack, so that a whole forest can be visited in one go.
-/

namespace QuestionTree

/-- A node with the subtree below it. -/
inductive Node (ι : Type) where
  | leaf (id : Nat) (info : ι)
  /-- A node with a child for the answer yes and a child for every other answer. -/
  | internal (id : Nat) (info : ι) (yes no : Node ι)
  deriving BEq, Repr

namespace Node

variable {ι : Type}

def id : Node ι → Nat
  | leaf id _ => id
  | internal id _ _ _ => id

def info : Node ι → ι
  | leaf _ info => info
  | internal _ info _ _ => info

def children? : Node ι → Option (Node ι × Node ι)
  | leaf _ _ => none
  | internal _ _ yes no => some (yes, no)

def isLeaf (n : Node ι) : Bool := n.children?.isNone

def setId (id : Nat) : Node ι → Node ι
  | leaf _ info => leaf id info
  | internal _ info yes no => internal id info yes no

def mapInfo (f : ι → ι) : Node ι → Node ι
  | leaf id info => leaf id (f info)
  | internal id info yes no => internal id (f info) yes no

/-- The node with the given children in place of its own. -/
def setChildren (n yes no : Node ι) : Node ι := internal n.id n.info yes no

def prune (n : Node ι) : Node ι := leaf n.id n.info

def childList : Node ι → List (Node ι)
  | leaf _ _ => []
  | internal _ _ yes no => [yes, no]

def weight : Node ι → Nat
  | leaf _ _ => 1
  | internal _ _ yes no => 1 + yes.weight + no.weight

def totalWeight (forest : List (Node ι)) : Nat := forest.foldr (fun n total => n.weight + total) 0

theorem totalWeight_childList_append (n : Node ι) (stack : List (Node ι)) :
    totalWeight (n.childList ++ stack) < totalWeight (n :: stack) := by
  cases n with
  | leaf id info => simp [childList, totalWeight, weight]
  | internal id info yes no =>
    simp only [childList, totalWeight, weight, List.cons_append, List.nil_append, List.foldr_cons]
    omega

theorem totalWeight_le_of_sublist {forest forest' : List (Node ι)} (h : forest.Sublist forest') :
    totalWeight forest ≤ totalWeight forest' := by
  induction h with
  | slnil => exact Nat.le_refl _
  | cons n _ ih => exact Nat.le_add_left_of_le ih
  | cons_cons n _ ih => exact Nat.add_le_add_left ih n.weight

/-- The nodes of the subtrees on a stack, in the order in which they are visited. -/
def visit : List (Node ι) → List (Node ι)
  | [] => []
  | n :: stack => n :: visit (n.childList ++ stack)
termination_by stack => totalWeight stack
decreasing_by exact totalWeight_childList_append n stack

def preorder (n : Node ι) : List (Node ι) := visit [n]

def leaves (n : Node ι) : List (Node ι) := n.preorder.filter isLeaf

def nodeCount (n : Node ι) : Nat := n.preorder.length

def leafCount (n : Node ι) : Nat := n.leaves.length

/-- The nodes of the subtrees on a stack with their depths. -/
def visitDepths : List (Node ι × Nat) → List (Node ι × Nat)
  | [] => []
  | (n, depth) :: stack =>
    (n, depth) :: visitDepths (n.childList.map (·, depth + 1) ++ stack)
termination_by stack => totalWeight (stack.map Prod.fst)
decreasing_by
  simpa [Function.comp_def] using totalWeight_childList_append n (stack.map Prod.fst)

/-- The number of edges on the longest way to a leaf. -/
def height (n : Node ι) : Nat := (visitDepths [(n, 0)]).foldl (fun h visited => max h visited.2) 0

end Node

/-- A tree, which may have no node at all. -/
structure BinaryTree (ι : Type) where
  root? : Option (Node ι)
  deriving BEq, Repr

namespace BinaryTree

variable {ι : Type}

def empty : BinaryTree ι := ⟨none⟩

def requireRoot (t : BinaryTree ι) : Except Error (Node ι) :=
  match t.root? with
  | some root => .ok root
  | none => .error .emptyTree

def isEmpty (t : BinaryTree ι) : Bool := t.root?.isNone

def nodeCount (t : BinaryTree ι) : Nat := (t.root?.map Node.nodeCount).getD 0

def leafCount (t : BinaryTree ι) : Nat := (t.root?.map Node.leafCount).getD 0

/-- The number of edges on the longest way to a leaf. -/
def height (t : BinaryTree ι) : Nat := (t.root?.map Node.height).getD 0

end BinaryTree

/-! ### Binary trees as texts

A node is written with its number, its information and the pair of its children, or `null` for a
node without children. Each level of a tree takes up two levels of nesting, which bounds the height
of the trees that can be read.
-/

namespace Node

variable {ι : Type}

structure Draft (ι : Type) where
  id : Option Nat := none
  info : Option ι := none
  children : Option (Option (Node ι × Node ι)) := none

/-- A pair of children, each read by `child`, or `null` for none. -/
def childrenDecoder (child : Json → Except ReadError (Node ι)) :
    Decoder (Option (Node ι × Node ι))
  | _, .null => .ok none
  | _ + 1, .arr (yes :: no :: others) closed => do
    let yes ← child yes
    let no ← child no
    if others.isEmpty && closed then return some (yes, no) else throw .malformed
  | _ + 1, .arr (yes :: _) _ => do
    let _ ← child yes
    throw .malformed
  | _, _ => .error .malformed

def fields (info : Decoder ι) (child : Json → Except ReadError (Node ι)) (room : Nat) :
    List (Decoder.Field (Draft ι)) :=
  [Decoder.field "id" Draft.id (fun d id => { d with id }) (Decoder.word room),
   Decoder.field "info" Draft.info (fun d info => { d with info }) (info room),
   Decoder.field "children" Draft.children (fun d children => { d with children })
     (childrenDecoder child room)]

def finish (d : Draft ι) : Except ReadError (Node ι) := do
  let id ← Decoder.required "id" d.id
  let info ← Decoder.required "info" d.info
  match d.children.join with
  | some (yes, no) => return internal id info yes no
  | none => return leaf id info

def decoder (info : Decoder ι) : Decoder (Node ι)
  | 0 => Decoder.fail 0
  | 1 => Decoder.ofFields (fields info (Decoder.fail 0) 0) {} finish
  | room + 2 => Decoder.ofFields (fields info (decoder info room) (room + 1)) {} finish

def toJson (info : ι → Json) : Node ι → Json
  | leaf id i =>
    Json.ofFields [("id", Json.ofNat id), ("info", info i), ("children", .null)]
  | internal id i yes no =>
    Json.ofFields
      [("id", Json.ofNat id), ("info", info i),
       ("children", Json.list [yes.toJson info, no.toJson info])]

end Node

namespace BinaryTree

variable {ι : Type}

structure Draft (ι : Type) where
  root : Option (Option (Node ι)) := none

def fields (info : Decoder ι) (room : Nat) : List (Decoder.Field (Draft ι)) :=
  [Decoder.field "root" Draft.root (fun d root => { d with root })
     ((Node.decoder info).option room)]

def decoder (info : Decoder ι) : Decoder (BinaryTree ι) :=
  Decoder.structured (fields info) {} fun d => .ok ⟨d.root.join⟩

def toJson (info : ι → Json) (t : BinaryTree ι) : Json :=
  Json.ofFields [("root", Json.ofOption (Node.toJson info) t.root?)]

end BinaryTree

end QuestionTree
