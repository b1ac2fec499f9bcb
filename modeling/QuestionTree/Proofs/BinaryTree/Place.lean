import QuestionTree.BinaryTree.Basic
import Mathlib.Data.List.Lex
import Mathlib.Data.List.Nodup

/-!
# Places in a tree

The place of a node in a tree is the list of the branches that lead to it, so that equal nodes at
different places are kept apart. The nodes are listed with their places, which come in the order of
their branches, so that none comes twice. The traversals keep a stack of subtrees; here they are
brought into the form that recurses on the tree, and the nodes that they visit are shown to be those
at the places. In a tree whose leaves have different numbers the number of a leaf determines its
place.
-/

namespace QuestionTree

namespace Node

variable {ι : Type}

/-- The node at the end of some branches, of which `true` leads to the child for the answer yes. -/
def at? : Node ι → List Bool → Option (Node ι)
  | n, [] => some n
  | leaf _ _, _ :: _ => none
  | internal _ _ yes no, branch :: place => if branch then yes.at? place else no.at? place

@[simp] theorem at?_nil (n : Node ι) : n.at? [] = some n := by
  cases n <;> rfl

theorem at?_append (n : Node ι) (place rest : List Bool) :
    n.at? (place ++ rest) = (n.at? place).bind (·.at? rest) := by
  induction place generalizing n with
  | nil => rw [List.nil_append, at?_nil, Option.bind_some]
  | cons branch place ih =>
    cases n with
    | leaf id info => rfl
    | internal id info yes no =>
      cases branch with
      | true => exact ih yes
      | false => exact ih no

/-- A node at a place below a child, seen from above the child. -/
def under (branch : Bool) (s : List Bool × Node ι) : List Bool × Node ι :=
  (branch :: s.1, s.2)

theorem under_injective (branch : Bool) :
    Function.Injective (under branch : List Bool × Node ι → List Bool × Node ι) := fun _ _ h =>
  Prod.ext (List.cons_injective (congrArg Prod.fst h)) (congrArg (fun s => s.2) h)

theorem map_snd_under (branch : Bool) (l : List (List Bool × Node ι)) :
    (l.map (under branch)).map Prod.snd = l.map Prod.snd := by
  rw [List.map_map]
  rfl

theorem map_fst_under (branch : Bool) (l : List (List Bool × Node ι)) :
    (l.map (under branch)).map Prod.fst = (l.map Prod.fst).map (branch :: ·) := by
  rw [List.map_map, List.map_map]
  rfl

/-! ### The nodes with their places -/

/-- The nodes with their places, each before those below it, and those below yes before those below
no. -/
def placed : Node ι → List (List Bool × Node ι)
  | leaf id info => [([], leaf id info)]
  | internal id info yes no =>
    ([], internal id info yes no) :: (yes.placed.map (under true) ++ no.placed.map (under false))

def places (n : Node ι) : List (List Bool) := n.placed.map Prod.fst

/-- Whether a place is above another one, or on the side of yes where the ways to them part. -/
def Before : List Bool → List Bool → Prop := List.Lex fun a b => a = true ∧ b = false

theorem places_internal (id : Nat) (info : ι) (yes no : Node ι) :
    (internal id info yes no).places =
      [] :: (yes.places.map (true :: ·) ++ no.places.map (false :: ·)) := by
  rw [places, placed, List.map_cons, List.map_append, map_fst_under, map_fst_under]
  rfl

theorem mem_placed_iff {n v : Node ι} {place : List Bool} :
    (place, v) ∈ n.placed ↔ n.at? place = some v := by
  induction n generalizing place with
  | leaf id info =>
    rw [placed, List.mem_singleton]
    cases place with
    | nil =>
      rw [at?_nil, Option.some_inj, Prod.mk.injEq, eq_comm (a := v)]
      exact and_iff_right rfl
    | cons branch place => simp [at?]
  | internal id info yes no ihYes ihNo =>
    rw [placed, List.mem_cons, List.mem_append, List.mem_map, List.mem_map]
    match place with
    | [] => simp [under, eq_comm]
    | true :: place => simpa [under, at?] using ihYes
    | false :: place => simpa [under, at?] using ihNo

theorem mem_places_iff {n : Node ι} {place : List Bool} :
    place ∈ n.places ↔ (n.at? place).isSome = true := by
  rw [places, List.mem_map, Option.isSome_iff_exists]
  constructor
  · rintro ⟨⟨place, v⟩, hmem, rfl⟩
    exact ⟨v, mem_placed_iff.1 hmem⟩
  · rintro ⟨v, hv⟩
    exact ⟨(place, v), mem_placed_iff.2 hv, rfl⟩

/-- The places come in the order of their branches. -/
theorem pairwise_places (n : Node ι) : n.places.Pairwise Before := by
  induction n with
  | leaf id info => exact List.pairwise_singleton _ _
  | internal id info yes no ihYes ihNo =>
    have hbelow : ∀ (branch : Bool) {places : List (List Bool)}, places.Pairwise Before →
        (places.map (branch :: ·)).Pairwise Before := fun branch _ h =>
      List.pairwise_map.2 (h.imp List.Lex.cons)
    rw [places_internal, List.pairwise_cons, List.pairwise_append]
    refine ⟨?_, hbelow true ihYes, hbelow false ihNo, ?_⟩
    · intro place hplace
      rcases List.mem_append.1 hplace with hplace | hplace <;>
        obtain ⟨p, _, rfl⟩ := List.mem_map.1 hplace <;> exact List.Lex.nil
    · intro p hp q hq
      obtain ⟨p, _, rfl⟩ := List.mem_map.1 hp
      obtain ⟨q, _, rfl⟩ := List.mem_map.1 hq
      exact List.Lex.rel ⟨rfl, rfl⟩

theorem before_irrefl (place : List Bool) : ¬ Before place place := by
  induction place with
  | nil => exact List.not_lex_nil
  | cons branch place ih =>
    intro h
    cases h with
    | rel hparts => exact absurd (hparts.1.symm.trans hparts.2) (by decide)
    | cons h => exact ih h

theorem nodup_places (n : Node ι) : n.places.Nodup := by
  refine n.pairwise_places.imp ?_
  rintro p _ h rfl
  exact before_irrefl p h

/-! ### Traversals -/

theorem visit_append (xs ys : List (Node ι)) : visit (xs ++ ys) = visit xs ++ visit ys := by
  induction xs using visit.induct with
  | case1 => rw [visit, List.nil_append, List.nil_append]
  | case2 n stack ih =>
    rw [List.cons_append, visit, visit, List.cons_append, ← ih, List.append_assoc]

theorem preorder_leaf (id : Nat) (info : ι) : (leaf id info).preorder = [leaf id info] := by
  rw [preorder, visit, childList, List.append_nil, visit]

theorem preorder_internal (id : Nat) (info : ι) (yes no : Node ι) :
    (internal id info yes no).preorder =
      internal id info yes no :: (yes.preorder ++ no.preorder) := by
  have hchildren : visit [yes, no] = visit [yes] ++ visit [no] := visit_append [yes] [no]
  rw [preorder, visit, childList, List.append_nil, hchildren]
  rfl

theorem leaves_leaf (id : Nat) (info : ι) : (leaf id info).leaves = [leaf id info] := by
  rw [leaves, preorder_leaf]
  rfl

theorem leaves_internal (id : Nat) (info : ι) (yes no : Node ι) :
    (internal id info yes no).leaves = yes.leaves ++ no.leaves := by
  rw [leaves, preorder_internal, List.filter_cons_of_neg (by simp [isLeaf, children?]),
    List.filter_append]
  rfl

theorem map_snd_placed (n : Node ι) : n.placed.map Prod.snd = n.preorder := by
  induction n with
  | leaf id info => rw [preorder_leaf, placed, List.map_singleton]
  | internal id info yes no ihYes ihNo =>
    rw [placed, preorder_internal, List.map_cons, List.map_append, map_snd_under, map_snd_under,
      ihYes, ihNo]

/-- The nodes that are visited are those at the places. -/
theorem mem_preorder_iff {n v : Node ι} : v ∈ n.preorder ↔ ∃ place, n.at? place = some v := by
  simp only [← map_snd_placed, List.mem_map, Prod.exists, exists_eq_right, mem_placed_iff]

theorem mem_leaves_iff {n v : Node ι} :
    v ∈ n.leaves ↔ v.isLeaf = true ∧ ∃ place, n.at? place = some v := by
  rw [leaves, List.mem_filter, mem_preorder_iff, and_comm]

/-! ### The places of leaves -/

theorem at?_append_of_leaf {n v : Node ι} {place rest : List Bool} (hv : n.at? place = some v)
    (hleaf : v.isLeaf = true) (hrest : (n.at? (place ++ rest)).isSome) : rest = [] := by
  rw [at?_append, hv, Option.bind_some] at hrest
  cases v with
  | leaf id info =>
    cases rest with
    | nil => rfl
    | cons branch rest => cases hrest
  | internal id info yes no => cases hleaf

/-- The number of a leaf determines its place. -/
theorem place_unique {n u v : Node ι} {p q : List Bool} (hnodup : (n.leaves.map id).Nodup)
    (hp : n.at? p = some u) (hu : u.isLeaf = true) (hq : n.at? q = some v) (hv : v.isLeaf = true)
    (hid : u.id = v.id) : p = q := by
  have hmem : ∀ {m w : Node ι} {place : List Bool}, m.at? place = some w → w.isLeaf = true →
      w.id ∈ m.leaves.map id := fun hplace hleaf =>
    List.mem_map_of_mem (mem_leaves_iff.2 ⟨hleaf, _, hplace⟩)
  induction n generalizing p q with
  | leaf id info =>
    cases p with
    | nil =>
      cases q with
      | nil => rfl
      | cons branch q => cases hq
    | cons branch p => cases hp
  | internal id info yes no ihYes ihNo =>
    rw [leaves_internal, List.map_append] at hnodup
    obtain ⟨hyes, hno, hdisjoint⟩ := List.nodup_append.1 hnodup
    match p, q with
    | [], _ =>
      cases hp
      cases hu
    | _, [] =>
      cases hq
      cases hv
    | true :: p, true :: q => rw [ihYes hyes hp hq]
    | false :: p, false :: q => rw [ihNo hno hp hq]
    -- leaves of different children have different numbers
    | true :: p, false :: q => exact absurd hid (hdisjoint _ (hmem hp hu) _ (hmem hq hv))
    | false :: p, true :: q => exact absurd hid.symm (hdisjoint _ (hmem hq hv) _ (hmem hp hu))

/-! ### The inner nodes -/

theorem exists_parent {n v : Node ι} {place : List Bool} {branch : Bool}
    (hv : n.at? (place ++ [branch]) = some v) :
    ∃ id info yes no, n.at? place = some (internal id info yes no) := by
  rw [at?_append] at hv
  obtain ⟨parent, hparent, hbelow⟩ := Option.bind_eq_some_iff.1 hv
  cases parent with
  | leaf id info => cases hbelow
  | internal id info yes no => exact ⟨id, info, yes, no, hparent⟩

/-- The inner nodes with their places, each before those below it. -/
def inner : Node ι → List (List Bool × Node ι)
  | leaf _ _ => []
  | internal id info yes no => ([], internal id info yes no) ::
    (yes.inner.map (fun s => (true :: s.1, s.2)) ++ no.inner.map fun s => (false :: s.1, s.2))

theorem inner_internal (id : Nat) (info : ι) (yes no : Node ι) :
    (internal id info yes no).inner = ([], internal id info yes no) ::
      (yes.inner.map (under true) ++ no.inner.map (under false)) := rfl

theorem inner_eq_filter (n : Node ι) : n.inner = n.placed.filter fun s => !s.2.isLeaf := by
  have hunder : ∀ (branch : Bool) (l : List (List Bool × Node ι)),
      (l.map (under branch)).filter (fun s => !s.2.isLeaf) =
        (l.filter fun s => !s.2.isLeaf).map (under branch) := fun branch l => List.filter_map
  induction n with
  | leaf id info => rfl
  | internal id info yes no ihYes ihNo =>
    rw [inner_internal, placed, List.filter_cons_of_pos rfl, List.filter_append, hunder, hunder,
      ihYes, ihNo]

theorem mem_inner_iff {n v : Node ι} {place : List Bool} :
    (place, v) ∈ n.inner ↔ n.at? place = some v ∧ v.isLeaf = false := by
  rw [inner_eq_filter, List.mem_filter, mem_placed_iff, Bool.not_eq_true']

theorem nodup_inner (n : Node ι) : (n.inner.map Prod.fst).Nodup := by
  rw [inner_eq_filter]
  exact n.nodup_places.sublist (List.filter_sublist.map Prod.fst)

end Node

end QuestionTree
