import QuestionTree.BinaryTree.Drawing
import QuestionTree.Proofs.BinaryTree.Listing

/-!
# What a drawing shows

The nodes of a tree are named by their places in the order of a traversal, so that the name of the
child for no is told by the size of the subtree for yes. `Node.draw` does not know these sizes. It
takes the names from a counter, and announces the name of a child as the one that is taken next.
Both come to the same, and `Node.Draws` says what is drawn: each node once under its name, and from
each inner node an edge to either child. The edges come in the order of the names they lead to.
-/

namespace QuestionTree

namespace DrawingStatement

/-- The name, the label and the kind of a node. -/
def node? : DrawingStatement → Option (Nat × Nat × Bool)
  | node name label isLeaf => some (name, label, isLeaf)
  | edge _ _ _ => none

/-- The ends of an edge, and whether it is the edge of yes. -/
def edge? : DrawingStatement → Option (Nat × Nat × Bool)
  | node _ _ _ => none
  | edge source target yes => some (source, target, yes)

end DrawingStatement

namespace Node

variable {ι : Type}

/-- The statements of a subtree, whose names are taken from a counter. -/
def draw : Node ι → StateM Nat (List DrawingStatement)
  | leaf id _ => do
    let name ← getModify (· + 1)
    return [.node name id true]
  | internal id _ yes no => do
    let name ← getModify (· + 1)
    let yesName ← get
    let drawnYes ← yes.draw
    let noName ← get
    let drawnNo ← no.draw
    return .node name id false ::
      (.edge name yesName true :: drawnYes ++ .edge name noName false :: drawnNo)

/-- The name of the node at a place: the number of nodes that are visited before it. -/
def nameOf (n : Node ι) (place : List Bool) : Nat := n.places.idxOf place

/-- The edges of a tree: from each inner node one to either child. -/
def edges (n : Node ι) : List (Nat × Nat × Bool) :=
  n.inner.flatMap fun s =>
    [(n.nameOf s.1, n.nameOf (s.1 ++ [true]), true),
      (n.nameOf s.1, n.nameOf (s.1 ++ [false]), false)]

/-- What is drawn of a tree. -/
structure Draws (n : Node ι) (statements : List DrawingStatement) : Prop where
  /-- The nodes are declared in their order, each by its name, number and kind. -/
  nodes_eq : statements.filterMap DrawingStatement.node? =
    n.preorder.zipIdx.map fun s => (s.2, s.1.id, s.1.isLeaf)
  /-- Every name is declared once. -/
  names_eq : (statements.filterMap DrawingStatement.node?).map Prod.fst = List.range n.nodeCount
  /-- The name of the node at a place is its number in the order of the nodes. -/
  named : ∀ place v, n.at? place = some v →
    n.preorder[n.nameOf place]? = some v ∧ n.places[n.nameOf place]? = some place
  edges_perm : (statements.filterMap DrawingStatement.edge?).Perm n.edges
  /-- An edge leads to every name but the first, and no two lead to the same. -/
  targets_eq : 0 :: (statements.filterMap DrawingStatement.edge?).map (fun e => e.2.1) =
    List.range n.nodeCount
  length_edges : (statements.filterMap DrawingStatement.edge?).length = 2 * n.inner.length

variable {id : Nat} {info : ι} {n yes no : Node ι}

/-! ### The counter -/

/-- The counter is left at the name after those of the subtree. -/
theorem run_draw (n : Node ι) (first : Nat) :
    n.draw.run first = (n.drawing first, first + n.weight) := by
  induction n generalizing first with
  | leaf id info => rfl
  | internal id info yes no ihYes ihNo =>
    show (yes.draw >>= fun drawnYes => get >>= fun noName => no.draw >>= fun drawnNo =>
      pure (.node first id false :: (.edge first (first + 1) true :: drawnYes ++
        .edge first noName false :: drawnNo)) : StateM Nat _).run (first + 1) = _
    rw [StateT.run_bind, ihYes]
    show (no.draw >>= fun drawnNo => pure (.node first id false ::
      (.edge first (first + 1) true :: yes.drawing (first + 1) ++
        .edge first (first + 1 + yes.weight) false :: drawnNo)) : StateM Nat _).run
          (first + 1 + yes.weight) = _
    rw [StateT.run_bind, ihNo]
    refine Prod.ext rfl ?_
    show first + 1 + yes.weight + no.weight = first + (1 + yes.weight + no.weight)
    omega

/-! ### Declared nodes -/

theorem length_listed (n : Node ι) : n.listed.length = n.weight := by
  rw [← preorder_eq_listed, ← nodeCount_eq_weight, nodeCount]

theorem filterMap_node?_drawing (n : Node ι) (first : Nat) :
    (n.drawing first).filterMap DrawingStatement.node? =
      (n.listed.zipIdx first).map fun s => (s.2, s.1.id, s.1.isLeaf) := by
  induction n generalizing first with
  | leaf id info => rfl
  | internal id info yes no ihYes ihNo =>
    rw [drawing, listed, List.zipIdx_cons, List.zipIdx_append, List.map_cons, List.map_append,
      length_listed, ← ihYes, ← ihNo, List.filterMap_cons, List.cons_append, List.filterMap_cons,
      List.filterMap_append, List.filterMap_cons]
    rfl

theorem named (n : Node ι) {place : List Bool} {v : Node ι} (hv : n.at? place = some v) :
    n.preorder[n.nameOf place]? = some v ∧ n.places[n.nameOf place]? = some place := by
  have hplace : n.places[n.nameOf place]? = some place :=
    List.getElem?_idxOf (mem_places_iff.2 (Option.isSome_iff_exists.2 ⟨v, hv⟩))
  have hnode : (n.places.map n.at?)[n.nameOf place]? = some (some v) := by
    rw [List.getElem?_map, hplace, Option.map_some, hv]
  rw [map_at?_places, List.getElem?_map] at hnode
  obtain ⟨w, hw, heq⟩ := Option.map_eq_some_iff.1 hnode
  rw [heq] at hw
  exact ⟨hw, hplace⟩

/-! ### Edges -/

/-- An edge of a subtree whose names begin at a later one. -/
def shift (first : Nat) (e : Nat × Nat × Bool) : Nat × Nat × Bool :=
  (first + e.1, first + e.2.1, e.2.2)

theorem map_shift_shift (a b : Nat) (edges : List (Nat × Nat × Bool)) :
    (edges.map (shift b)).map (shift a) = edges.map (shift (a + b)) := by
  rw [List.map_map]
  refine List.map_congr_left fun e _ => ?_
  simp only [Function.comp_apply, shift, Nat.add_assoc]

theorem nameOf_nil (n : Node ι) : n.nameOf [] = 0 := by
  cases n with
  | leaf id info => rfl
  | internal id info yes no => rw [nameOf, places_internal, List.idxOf_cons_self]

theorem idxOf_map_cons (branch : Bool) (place : List Bool) (places : List (List Bool)) :
    (places.map (branch :: ·)).idxOf (branch :: place) = places.idxOf place := by
  induction places with
  | nil => rfl
  | cons p places ih =>
    simp only [List.map_cons, List.idxOf_cons, ih, List.cons_beq_cons, beq_self_eq_true,
      Bool.true_and]

theorem nameOf_yes {place : List Bool} (h : place ∈ yes.places) :
    (internal id info yes no).nameOf (true :: place) = 1 + yes.nameOf place := by
  rw [nameOf, places_internal, List.idxOf_cons_ne _ (List.cons_ne_nil _ _).symm,
    List.idxOf_append_of_mem (List.mem_map_of_mem h), idxOf_map_cons, nameOf, Nat.add_comm]

theorem nameOf_no (place : List Bool) :
    (internal id info yes no).nameOf (false :: place) = 1 + yes.weight + no.nameOf place := by
  have hnot : false :: place ∉ yes.places.map (true :: ·) := by simp
  rw [nameOf, places_internal, List.idxOf_cons_ne _ (List.cons_ne_nil _ _).symm,
    List.idxOf_append_of_notMem hnot, idxOf_map_cons, nameOf, List.length_map, length_places,
    nodeCount_eq_weight]
  omega

theorem mem_places_of_mem_inner {s : List Bool × Node ι} (hs : s ∈ n.inner) :
    s.1 ∈ n.places ∧ ∀ branch, s.1 ++ [branch] ∈ n.places := by
  obtain ⟨hv, hinner⟩ := mem_inner_iff.1 hs
  refine ⟨mem_places_iff.2 (by rw [hv]; rfl), fun branch => mem_places_iff.2 ?_⟩
  rw [at?_append, hv, Option.bind_some]
  obtain ⟨place, v⟩ := s
  cases v with
  | leaf id info => cases hinner
  | internal id info yes no => cases branch <;> simp [at?]

theorem edges_internal (id : Nat) (info : ι) (yes no : Node ι) :
    (internal id info yes no).edges =
      (0, 1, true) :: (0, 1 + yes.weight, false) ::
        (yes.edges.map (shift 1) ++ no.edges.map (shift (1 + yes.weight))) := by
  have hyes : (internal id info yes no).nameOf [true] = 1 := by
    rw [nameOf_yes (mem_places_iff.2 (by rw [at?_nil]; rfl)), nameOf_nil]
  have hno : (internal id info yes no).nameOf [false] = 1 + yes.weight := by
    rw [nameOf_no, nameOf_nil, Nat.add_zero]
  rw [edges, inner_internal, List.flatMap_cons, List.flatMap_append, List.flatMap_map,
    List.flatMap_map, nameOf_nil, List.nil_append, List.nil_append, hyes, hno, edges, edges,
    List.map_flatMap, List.map_flatMap, List.cons_append, List.cons_append, List.nil_append]
  congr 3
  · refine List.flatMap_congr fun s hs => ?_
    obtain ⟨hplace, hbelow⟩ := mem_places_of_mem_inner hs
    simp only [under, List.cons_append, nameOf_yes hplace, nameOf_yes (hbelow _), List.map_cons,
      List.map_nil, shift]
  · refine List.flatMap_congr fun s _ => ?_
    simp only [under, List.cons_append, nameOf_no, List.map_cons, List.map_nil, shift]

theorem filterMap_edge?_internal (id : Nat) (info : ι) (yes no : Node ι) (first : Nat) :
    ((internal id info yes no).drawing first).filterMap DrawingStatement.edge? =
      (first, first + 1, true) :: ((yes.drawing (first + 1)).filterMap DrawingStatement.edge? ++
        (first, first + 1 + yes.weight, false) ::
          (no.drawing (first + 1 + yes.weight)).filterMap DrawingStatement.edge?) := by
  rw [drawing, List.filterMap_cons, List.cons_append, List.filterMap_cons, List.filterMap_append,
    List.filterMap_cons]
  rfl

theorem filterMap_edge?_drawing (n : Node ι) (first : Nat) :
    ((n.drawing first).filterMap DrawingStatement.edge?).Perm (n.edges.map (shift first)) := by
  induction n generalizing first with
  | leaf id info => exact .refl _
  | internal id info yes no ihYes ihNo =>
    have hno : shift first (0, 1 + yes.weight, false) = (first, first + 1 + yes.weight, false) := by
      rw [shift, Nat.add_zero, Nat.add_assoc]
    rw [filterMap_edge?_internal, edges_internal, List.map_cons, List.map_cons, List.map_append,
      map_shift_shift, map_shift_shift, ← Nat.add_assoc, hno]
    refine .cons _ (List.perm_middle.trans (.cons _ ?_))
    exact (ihYes (first + 1)).append (ihNo (first + 1 + yes.weight))

/-- The edges come in the order of the names they lead to. -/
theorem map_target_drawing (n : Node ι) (first : Nat) :
    first :: ((n.drawing first).filterMap DrawingStatement.edge?).map (fun e => e.2.1) =
      List.range' first n.weight := by
  induction n generalizing first with
  | leaf id info => rfl
  | internal id info yes no ihYes ihNo =>
    have hweight : (internal id info yes no).weight = yes.weight + no.weight + 1 := by
      rw [weight, Nat.add_assoc, Nat.add_comm]
    rw [filterMap_edge?_internal, List.map_cons, List.map_append, List.map_cons, hweight,
      List.range'_succ, ← List.range'_append_1, ← ihYes, ← ihNo]
    rfl

theorem length_edges (n : Node ι) : n.edges.length = 2 * n.inner.length := by
  rw [edges, List.length_flatMap]
  simp [Nat.mul_comm]

/-- The statements of a tree draw it. -/
theorem draws (n : Node ι) : n.Draws (n.drawing 0) := by
  have hnodes := n.filterMap_node?_drawing 0
  have hedges := n.filterMap_edge?_drawing 0
  have hshift : n.edges.map (shift 0) = n.edges := by
    refine (List.map_congr_left fun e _ => ?_).trans (List.map_id _)
    simp only [shift, Nat.zero_add, id_eq]
  rw [← preorder_eq_listed] at hnodes
  rw [hshift] at hedges
  refine
    { nodes_eq := hnodes
      names_eq := ?_
      named := fun _ _ => n.named
      edges_perm := hedges
      targets_eq := ?_
      length_edges := by rw [hedges.length_eq, length_edges] }
  · rw [hnodes, List.map_map]
    show n.preorder.zipIdx.map Prod.snd = _
    rw [List.zipIdx_map_snd, nodeCount, List.range_eq_range']
  · rw [map_target_drawing, nodeCount_eq_weight, List.range_eq_range']

end Node

/-! ### Texts -/

namespace DrawingStatement

/-- The digits of a number end where a character of another kind follows. -/
theorem repr_append_cons_inj {n m : Nat} {c d : Char} {xs ys : List Char}
    (hc : c.isDigit = false) (hd : d.isDigit = false)
    (h : n.repr.toList ++ c :: xs = m.repr.toList ++ d :: ys) : n = m ∧ c = d ∧ xs = ys := by
  have hdigits : ∀ (k : Nat), ∀ a ∈ k.repr.toList, a.isDigit = true := by
    intro k a ha
    rw [Nat.toList_repr] at ha
    exact Nat.isDigit_of_mem_toDigits (by decide) (by decide) ha
  obtain ⟨hrepr, hcd, hxs⟩ := append_cons_inj_of_forall (hdigits n) (hdigits m)
    (Bool.eq_false_iff.1 hc) (Bool.eq_false_iff.1 hd) h
  exact ⟨Nat.repr_injective (String.toList_inj.1 hrepr), hcd, hxs⟩

theorem toList_text_node (name label : Nat) (isLeaf : Bool) :
    (node name label isLeaf).text.toList = 'n' :: (name.repr.toList ++ ' ' :: '[' ::
      (("shape=" ++ (if isLeaf then "doublecircle" else "circle") ++ " label=").toList ++
        (label.repr.toList ++ [']']))) := by
  simp [text]

theorem toList_text_edge (source target : Nat) (yes : Bool) :
    (edge source target yes).text.toList = 'n' :: (source.repr.toList ++ ' ' :: '-' :: '>' :: ' ' ::
      'n' :: (target.repr.toList ++ '[' ::
        ("label=" ++ (if yes then "yes" else "no") ++ "]").toList)) := by
  simp [text]

theorem text_inj {a b : DrawingStatement} : a.text = b.text ↔ a = b := by
  refine ⟨fun h => ?_, fun h => h ▸ rfl⟩
  have hspace : ' '.isDigit = false := by decide
  have hchars := String.toList_inj.2 h
  cases a with
  | node name label isLeaf =>
    cases b with
    | node name' label' isLeaf' =>
      rw [toList_text_node, toList_text_node] at hchars
      obtain ⟨rfl, _, hrest⟩ := repr_append_cons_inj hspace hspace (List.cons.inj hchars).2
      have hleaf : isLeaf = isLeaf' := by
        revert hrest
        cases isLeaf <;> cases isLeaf' <;> simp
      subst hleaf
      have hlabel := List.append_cancel_left (List.cons.inj hrest).2
      obtain ⟨rfl, _⟩ := repr_append_cons_inj (by decide) (by decide) hlabel
      rfl
    | edge source target yes =>
      rw [toList_text_node, toList_text_edge] at hchars
      obtain ⟨_, _, hrest⟩ := repr_append_cons_inj hspace hspace (List.cons.inj hchars).2
      exact absurd (List.cons.inj hrest).1 (by decide)
  | edge source target yes =>
    cases b with
    | node name label isLeaf =>
      rw [toList_text_edge, toList_text_node] at hchars
      obtain ⟨_, _, hrest⟩ := repr_append_cons_inj hspace hspace (List.cons.inj hchars).2
      exact absurd (List.cons.inj hrest).1 (by decide)
    | edge source' target' yes' =>
      rw [toList_text_edge, toList_text_edge] at hchars
      obtain ⟨rfl, _, hrest⟩ := repr_append_cons_inj hspace hspace (List.cons.inj hchars).2
      simp only [List.cons.injEq, true_and] at hrest
      obtain ⟨rfl, _, hyes⟩ := repr_append_cons_inj (by decide) (by decide) hrest
      rw [String.toList_inj, String.append_left_inj, String.append_right_inj] at hyes
      revert hyes
      cases yes <;> cases yes' <;> simp

theorem newline_notMem_text (a : DrawingStatement) : '\n' ∉ a.text.toList := by
  cases a with
  | node name label isLeaf => cases isLeaf <;> simp [text, Text.newline_notMem_toDigits]
  | edge source target yes => cases yes <;> simp [text, Text.newline_notMem_toDigits]

theorem lines_text_inj {as bs : List DrawingStatement} :
    Text.lines (as.map text) = Text.lines (bs.map text) ↔ as = bs := by
  have hnewline : ∀ cs : List DrawingStatement, ∀ x ∈ cs.map text, '\n' ∉ x.toList := by
    intro cs
    rw [List.forall_mem_map]
    exact fun c _ => c.newline_notMem_text
  rw [Text.lines_inj (hnewline as) (hnewline bs)]
  exact (List.map_injective_iff.2 fun _ _ => text_inj.1).eq_iff

end DrawingStatement

namespace BinaryTree

variable {ι κ : Type}

/-- A drawing consists of the statements between a head and a last line, and tells them. -/
theorem drawingText_eq_iff {t : BinaryTree ι} {u : BinaryTree κ} {name : String} :
    t.drawingText name = u.drawingText name ↔ t.drawing = u.drawing := by
  rw [drawingText, drawingText, Text.lines_append, Text.lines_append, Text.lines_append,
    Text.lines_append, String.append_left_inj, String.append_right_inj,
    DrawingStatement.lines_text_inj]

/-- A drawing consists of a head, the statements of the tree and a last line. It tells the
statements, each of which has a line of its own. They draw the tree, and taking the names from a
counter gives the same ones. -/
theorem drawing_shows (root : Node ι) (name : String) :
    let t : BinaryTree ι := ⟨some root⟩
    t.drawingText name = Text.lines
      (["digraph \"" ++ name ++ "\" \x7b", "node [fontname=\"Helvetica\"]",
          "edge [fontname=\"Helvetica\"]"] ++
        t.drawing.map DrawingStatement.text ++ ["\x7d"]) ∧
    (∀ a b : DrawingStatement, a.text = b.text ↔ a = b) ∧
    (∀ u : BinaryTree κ, t.drawingText name = u.drawingText name ↔ t.drawing = u.drawing) ∧
    root.Draws t.drawing ∧ root.draw.run 0 = (t.drawing, root.nodeCount) := by
  refine ⟨rfl, fun _ _ => DrawingStatement.text_inj, fun _ => drawingText_eq_iff, root.draws, ?_⟩
  rw [Node.run_draw, Node.nodeCount_eq_weight, Nat.zero_add]
  rfl

/-- The names below no go on from those below yes. -/
example : (⟨some (.internal 7 () (.internal 5 () (.leaf 0 ()) (.leaf 1 ())) (.leaf 2 ()))⟩ :
    BinaryTree Unit).drawing =
      [.node 0 7 false, .edge 0 1 true, .node 1 5 false, .edge 1 2 true, .node 2 0 true,
        .edge 1 3 false, .node 3 1 true, .edge 0 4 false, .node 4 2 true] := by
  decide

end BinaryTree

end QuestionTree
