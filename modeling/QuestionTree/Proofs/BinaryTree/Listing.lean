import Mathlib
import QuestionTree.BinaryTree.Drawing
import QuestionTree.Proofs.BinaryTree.Traversal

/-!
# What a listing tells

A line tells the depth of a node, whether it is a leaf, and its number. The lines of a tree are
those of its nodes at their places, in the order of the places. Since it is told of each node
whether children follow, the lines of a subtree end where the next one begins, so that trees with
the same listing have nodes at the same places, with the same numbers. Nothing is told of the
information.
-/

namespace QuestionTree

/-- A run of items of one kind ends where the first item of another kind stands. -/
theorem append_cons_inj_of_forall {α : Type} {p : α → Bool} {xs ys zs ws : List α} {a b : α}
    (hxs : ∀ c ∈ xs, p c = true) (hys : ∀ c ∈ ys, p c = true) (ha : ¬ p a = true)
    (hb : ¬ p b = true) (h : xs ++ a :: zs = ys ++ b :: ws) : xs = ys ∧ a = b ∧ zs = ws := by
  have heq : xs = ys := by
    have htake := congrArg (List.takeWhile p) h
    rw [List.takeWhile_append_of_pos hxs, List.takeWhile_append_of_pos hys,
      List.takeWhile_cons_of_neg ha, List.takeWhile_cons_of_neg hb, List.append_nil,
      List.append_nil] at htake
    exact htake
  subst heq
  exact ⟨rfl, List.cons.inj (List.append_cancel_left h)⟩

namespace Text

theorem toList_lines_cons (x : String) (xs : List String) :
    (lines (x :: xs)).toList = x.toList ++ '\n' :: (lines xs).toList := by
  rw [lines, lines, List.map_cons, String.join_cons, String.toList_append, String.toList_append,
    List.append_assoc]
  rfl

theorem lines_append (xs ys : List String) : lines (xs ++ ys) = lines xs ++ lines ys := by
  rw [lines, List.map_append, String.join_append, lines, lines]

theorem lines_inj {xs ys : List String} (hxs : ∀ x ∈ xs, '\n' ∉ x.toList)
    (hys : ∀ y ∈ ys, '\n' ∉ y.toList) : lines xs = lines ys ↔ xs = ys := by
  refine ⟨fun h => ?_, fun h => h ▸ rfl⟩
  have hbreak : ∀ {x : String}, '\n' ∉ x.toList → ∀ c ∈ x.toList, (c != '\n') = true :=
    fun hx c hc => bne_iff_ne.2 fun heq => hx (heq ▸ hc)
  rw [← String.toList_inj] at h
  induction xs generalizing ys with
  | nil =>
    cases ys with
    | nil => rfl
    | cons y ys =>
      rw [toList_lines_cons] at h
      exact absurd h.symm (by simp [lines])
  | cons x xs ih =>
    cases ys with
    | nil =>
      rw [toList_lines_cons] at h
      exact absurd h (by simp [lines])
    | cons y ys =>
      rw [toList_lines_cons, toList_lines_cons] at h
      obtain ⟨hx, hxs⟩ := List.forall_mem_cons.1 hxs
      obtain ⟨hy, hys⟩ := List.forall_mem_cons.1 hys
      obtain ⟨heq, _, hrest⟩ := append_cons_inj_of_forall (p := (· != '\n')) (hbreak hx)
        (hbreak hy) (by decide) (by decide) h
      rw [String.toList_inj.1 heq, ih hxs hys hrest]

theorem newline_notMem_toDigits (n : Nat) : '\n' ∉ Nat.toDigits 10 n := fun h =>
  absurd (Nat.isDigit_of_mem_toDigits (by decide) (by decide) h) (by decide)

end Text

namespace Node

variable {ι κ : Type}

/-! ### Lines -/

theorem toList_line (v : Node ι) (depth : Nat) :
    (v.line depth).toList = List.replicate (2 * depth) ' ' ++ (if v.isLeaf then 'c' else 'q') ::
      ((if v.isLeaf then "lass id: " else "uestion id: ") ++ v.id.repr).toList := by
  cases hleaf : v.isLeaf <;> simp [line, hleaf, Text.blanks]

theorem line_eq_iff {v : Node ι} {w : Node κ} {depth depth' : Nat} :
    v.line depth = w.line depth' ↔ depth = depth' ∧ v.isLeaf = w.isLeaf ∧ v.id = w.id := by
  constructor
  · intro h
    have hblank : ∀ (n : Nat), ∀ c ∈ List.replicate n ' ', (c == ' ') = true := fun n c hc =>
      beq_iff_eq.2 (List.eq_of_mem_replicate hc)
    have hfirst : ∀ leaf : Bool, ¬ ((if leaf then 'c' else 'q') == ' ') = true := by decide
    have hchars := String.toList_inj.2 h
    rw [toList_line, toList_line] at hchars
    obtain ⟨hblanks, hkind, hrest⟩ := append_cons_inj_of_forall (hblank _) (hblank _)
      (hfirst _) (hfirst _) hchars
    have hdepth : depth = depth' := by
      have hlength := congrArg List.length hblanks
      rw [List.length_replicate, List.length_replicate] at hlength
      omega
    have hleaf : v.isLeaf = w.isLeaf := by
      revert hkind
      cases v.isLeaf <;> cases w.isLeaf <;> decide
    rw [hleaf, String.toList_inj, String.append_right_inj, Nat.repr_inj] at hrest
    exact ⟨hdepth, hleaf, hrest⟩
  · rintro ⟨rfl, hleaf, hid⟩
    rw [line, line, hleaf, hid]

theorem newline_notMem_line (v : Node ι) (depth : Nat) : '\n' ∉ (v.line depth).toList := by
  cases hleaf : v.isLeaf <;> simp [toList_line, hleaf, Text.newline_notMem_toDigits]

/-! ### The lines of a tree -/

theorem lines_eq_visitDepths (n : Node ι) (depth : Nat) :
    n.lines depth = (visitDepths [(n, depth)]).map fun s => s.1.line s.2 := by
  induction n generalizing depth with
  | leaf id info => rw [lines, visitDepths_leaf, List.map_singleton]
  | internal id info yes no ihYes ihNo =>
    rw [lines, visitDepths_internal, List.map_append, List.map_append, ← ihYes, ← ihNo,
      List.map_singleton]
    rfl

theorem lines_eq_placed (n : Node ι) : n.lines 0 = n.placed.map fun s => s.2.line s.1.length := by
  rw [lines_eq_visitDepths, visitDepths_single, List.map_map]
  simp only [Function.comp_def, Nat.zero_add]

theorem newline_notMem_lines {n : Node ι} {depth : Nat} :
    ∀ x ∈ n.lines depth, '\n' ∉ x.toList := by
  rw [lines_eq_visitDepths, List.forall_mem_map]
  exact fun s _ => newline_notMem_line s.1 s.2

theorem lines_ne_empty (n : Node ι) : n.lines 0 ≠ ["[empty]"] := by
  intro h
  have hhead : n.line 0 = "[empty]" := by
    cases n <;> exact (List.cons.inj h).1
  have hchars := String.toList_inj.2 hhead
  rw [toList_line] at hchars
  cases hleaf : n.isLeaf <;> simp [hleaf] at hchars

/-! ### Trees that are told apart -/

/-- Whether two trees have nodes at the same places, with the same numbers. -/
def Alike (n : Node ι) (m : Node κ) : Prop := ∀ place, (n.at? place).map id = (m.at? place).map id

variable {id id' : Nat} {info : ι} {info' : κ} {yes no : Node ι} {yes' no' : Node κ}

theorem alike_leaf_leaf : (leaf id info).Alike (leaf id' info') ↔ id = id' := by
  refine ⟨fun h => Option.some.inj (h []), fun h place => ?_⟩
  cases place with
  | nil => exact congrArg some h
  | cons branch place => rfl

theorem not_alike_leaf_internal : ¬ (leaf id info).Alike (internal id' info' yes' no') := by
  intro h
  have hyes := h [true]
  simp [at?] at hyes

theorem not_alike_internal_leaf : ¬ (internal id info yes no).Alike (leaf id' info') := by
  intro h
  have hyes := h [true]
  simp [at?] at hyes

theorem alike_internal_internal :
    (internal id info yes no).Alike (internal id' info' yes' no') ↔
      id = id' ∧ yes.Alike yes' ∧ no.Alike no' := by
  constructor
  · intro h
    exact ⟨Option.some.inj (h []), fun place => h (true :: place), fun place => h (false :: place)⟩
  · rintro ⟨hid, hyes, hno⟩ place
    match place with
    | [] => exact congrArg some hid
    | true :: place => exact hyes place
    | false :: place => exact hno place

/-- The lines of a subtree end where the next ones begin. -/
theorem lines_append_eq_iff {n : Node ι} {m : Node κ} {depth : Nat} {rest rest' : List String} :
    n.lines depth ++ rest = m.lines depth ++ rest' ↔ n.Alike m ∧ rest = rest' := by
  induction n generalizing m depth rest rest' with
  | leaf id info =>
    cases m with
    | leaf id' info' =>
      rw [lines, lines, List.cons_append, List.cons_append, List.cons.injEq, line_eq_iff,
        alike_leaf_leaf]
      simp [isLeaf, children?, Node.id]
    | internal id' info' yes' no' =>
      refine iff_of_false (fun h => ?_) fun h => not_alike_leaf_internal h.1
      cases (line_eq_iff.1 (List.cons.inj h).1).2.1
  | internal id info yes no ihYes ihNo =>
    cases m with
    | leaf id' info' =>
      refine iff_of_false (fun h => ?_) fun h => not_alike_internal_leaf h.1
      cases (line_eq_iff.1 (List.cons.inj h).1).2.1
    | internal id' info' yes' no' =>
      rw [lines, lines, List.cons_append, List.cons_append, List.cons.injEq, line_eq_iff,
        List.append_assoc, List.append_assoc, ihYes, ihNo, alike_internal_internal]
      simp [isLeaf, children?, Node.id, and_assoc]

theorem lines_eq_iff {n : Node ι} {m : Node κ} {depth : Nat} :
    n.lines depth = m.lines depth ↔ n.Alike m := by
  have happend : n.lines depth ++ [] = m.lines depth ++ [] ↔ n.Alike m ∧ [] = [] :=
    lines_append_eq_iff
  rwa [List.append_nil, List.append_nil, and_iff_left rfl] at happend

end Node

namespace BinaryTree

variable {ι κ : Type}

/-- The nodes of a tree with their places. -/
def placed (t : BinaryTree ι) : List (List Bool × Node ι) := t.root?.elim [] Node.placed

def at? (t : BinaryTree ι) (place : List Bool) : Option (Node ι) := t.root?.bind (·.at? place)

/-- Whether two trees have nodes at the same places, with the same numbers. -/
def Alike (t : BinaryTree ι) (u : BinaryTree κ) : Prop :=
  ∀ place, (t.at? place).map Node.id = (u.at? place).map Node.id

/-- The lines of a tree, in the order in which a traversal with a stack visits its nodes. -/
def visitedLines (t : BinaryTree ι) : List String :=
  (Node.visitDepths (t.root?.toList.map (·, 0))).map fun s => s.1.line s.2

/-- What the listing of a tree is made of. -/
structure Lists (t : BinaryTree ι) : Prop where
  /-- Each node has a line, by its depth, and the empty tree has one. -/
  text_eq : t.text = Text.lines
    (if t.isEmpty then ["[empty]"] else t.placed.map fun s => s.2.line s.1.length)
  /-- The nodes are those at the places of the tree. -/
  mem_placed_iff : ∀ place v, (place, v) ∈ t.placed ↔ t.at? place = some v
  /-- Yes comes before no, and a node before those below it. -/
  before : (t.placed.map Prod.fst).Pairwise Node.Before
  byStack_eq : t.text = Text.lines (if t.isEmpty then ["[empty]"] else t.visitedLines)

theorem lists (t : BinaryTree ι) : t.Lists := by
  obtain ⟨root?⟩ := t
  cases root? with
  | none =>
    refine ⟨rfl, fun place v => ?_, List.Pairwise.nil, rfl⟩
    exact iff_of_false List.not_mem_nil (by simp [at?])
  | some root =>
    refine ⟨?_, fun _ _ => Node.mem_placed_iff, root.pairwise_places, ?_⟩
    · exact congrArg Text.lines root.lines_eq_placed
    · exact congrArg Text.lines (root.lines_eq_visitDepths 0)

theorem text_eq_iff (t : BinaryTree ι) (u : BinaryTree κ) : t.text = u.text ↔ t.Alike u := by
  have hempty : ∀ x ∈ ["[empty]"], '\n' ∉ x.toList := by decide
  obtain ⟨root?⟩ := t
  obtain ⟨root'?⟩ := u
  cases root? with
  | none =>
    cases root'? with
    | none => exact iff_of_true rfl fun _ => rfl
    | some root' =>
      rw [text, text, Text.lines_inj hempty Node.newline_notMem_lines]
      exact iff_of_false (fun h => root'.lines_ne_empty h.symm) fun h => by simpa [at?] using h []
  | some root =>
    cases root'? with
    | none =>
      rw [text, text, Text.lines_inj Node.newline_notMem_lines hempty]
      exact iff_of_false root.lines_ne_empty fun h => by simpa [at?] using h []
    | some root' =>
      rw [text, text, Text.lines_inj Node.newline_notMem_lines Node.newline_notMem_lines]
      exact Node.lines_eq_iff

/-- Listings are equal exactly if the trees have the same places and the same numbers there. They
consist of the lines of the nodes in their order, and a line tells the depth, the kind and the
number of its node. -/
theorem listing_tells (t : BinaryTree ι) (u : BinaryTree κ) :
    (t.text = u.text ↔ t.Alike u) ∧ t.Lists ∧
      ∀ (v : Node ι) (w : Node κ) (depth depth' : Nat),
        v.line depth = w.line depth' ↔ depth = depth' ∧ v.isLeaf = w.isLeaf ∧ v.id = w.id :=
  ⟨text_eq_iff t u, t.lists, fun _ _ _ _ => Node.line_eq_iff⟩

end BinaryTree

end QuestionTree
