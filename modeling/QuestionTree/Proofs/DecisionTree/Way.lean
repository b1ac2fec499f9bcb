import QuestionTree.DecisionTree
import QuestionTree.Proofs.BinaryTree.Place
import QuestionTree.Proofs.Failure

/-!
# The way of a record

The branches that a record takes spell the place of the leaf that it is led to. A record passes the
nodes at the prefixes of this place: `passes` says so of a single place, and `passes_cons` is how it
recurses on the tree. The way exists in every tree whose inner nodes all name a question of the
pool, which is what `checkNodes` looks for.
-/

namespace QuestionTree

variable {ν : Type}

/-- The branches taken on a way, `true` standing for the answer yes. -/
def Path.branches (p : Path ν) : List Bool := p.steps.map fun s => decide (s.2 = .yes)

namespace Node

/-- Whether the inner nodes name questions of a pool. -/
def Asks (pool : QuestionPool) : Node (NodeInfo ν) → Prop
  | leaf _ _ => True
  | internal id _ yes no => id < pool.size ∧ yes.Asks pool ∧ no.Asks pool

/-- Whether the way of a record leads through the node at a place. -/
def passes (pool : QuestionPool) (n : Node (NodeInfo ν)) (place : List Bool) (record : Record) :
    Bool :=
  match n.pathFrom pool record with
  | .ok path => place.isPrefixOf path.branches
  | .error _ => false

variable {pool : QuestionPool} {record : Record}

theorem require_eq_ok_iff {index : Nat} {q : Handle Question} :
    pool.require index = .ok q ↔ pool.get? index = some q := by
  rw [QuestionPool.require]
  split
  · rename_i q' hget
    rw [hget, Option.some.injEq, Except.ok.injEq]
  · rename_i hget
    rw [hget]
    constructor <;> (intro h; cases h)

theorem exists_require {index : Nat} (h : index < pool.size) : ∃ q, pool.require index = .ok q :=
  ⟨_, require_eq_ok_iff.2 (List.getElem?_eq_getElem h)⟩

theorem pathFrom_internal {id : Nat} {info : NodeInfo ν} {yes no : Node (NodeInfo ν)}
    {q : Handle Question} (hq : pool.require id = .ok q) (record : Record) :
    (internal id info yes no).pathFrom pool record =
      (fun rest => { rest with steps := (q, q.item.evaluate record) :: rest.steps }) <$>
        if q.item.evaluate record = .yes then yes.pathFrom pool record
        else no.pathFrom pool record := by
  simp only [pathFrom, hq, bind, Except.bind]
  cases q.item.evaluate record <;> rfl

theorem walk_internal {id : Nat} {info : NodeInfo ν} {yes no : Node (NodeInfo ν)}
    {q : Handle Question} (hq : pool.require id = .ok q) (record : Record) :
    (internal id info yes no).walk pool record =
      if q.item.evaluate record = .yes then yes.walk pool record else no.walk pool record := by
  simp only [walk, hq, bind, Except.bind]
  cases q.item.evaluate record <;> rfl

theorem exists_path {n : Node (NodeInfo ν)} (h : n.Asks pool) (record : Record) :
    ∃ path, n.pathFrom pool record = .ok path ∧ n.walk pool record = .ok path.leaf ∧
      n.at? path.branches = some path.leaf ∧ path.leaf.isLeaf = true := by
  induction n with
  | leaf id info => exact ⟨⟨[], leaf id info⟩, rfl, rfl, rfl, rfl⟩
  | internal id info yes no ihYes ihNo =>
    obtain ⟨hid, hyes, hno⟩ := h
    obtain ⟨q, hq⟩ := exists_require hid
    rw [pathFrom_internal hq, walk_internal hq]
    by_cases hanswer : q.item.evaluate record = .yes
    · obtain ⟨path, hpath, hwalk, hat, hleaf⟩ := ihYes hyes
      rw [if_pos hanswer, if_pos hanswer, hpath]
      refine ⟨_, rfl, hwalk, ?_, hleaf⟩
      rw [Path.branches, List.map_cons, decide_eq_true hanswer]
      exact hat
    · obtain ⟨path, hpath, hwalk, hat, hleaf⟩ := ihNo hno
      rw [if_neg hanswer, if_neg hanswer, hpath]
      refine ⟨_, rfl, hwalk, ?_, hleaf⟩
      rw [Path.branches, List.map_cons, decide_eq_false hanswer]
      exact hat

theorem passes_nil {n : Node (NodeInfo ν)} (h : n.Asks pool) : n.passes pool [] record = true := by
  obtain ⟨path, hpath, _⟩ := exists_path h record
  rw [passes, hpath]
  exact List.isPrefixOf_nil_left

theorem isPrefixOf_step (x : Except Error (Path ν)) (q : Handle Question) (answer : Answer)
    (branch : Bool) (place : List Bool) :
    (match (fun rest : Path ν => { rest with steps := (q, answer) :: rest.steps }) <$> x with
      | .ok path => (branch :: place).isPrefixOf path.branches
      | .error _ => false) =
      (branch == decide (answer = .yes) &&
        match x with
        | .ok path => place.isPrefixOf path.branches
        | .error _ => false) := by
  cases x with
  | ok path => exact List.isPrefixOf_cons_cons
  | error e => exact (Bool.and_false _).symm

theorem passes_cons {id : Nat} {info : NodeInfo ν} {yes no : Node (NodeInfo ν)}
    {q : Handle Question} (hq : pool.require id = .ok q) (branch : Bool) (place : List Bool) :
    (internal id info yes no).passes pool (branch :: place) record =
      (branch == decide (q.item.evaluate record = .yes) &&
        (if branch then yes else no).passes pool place record) := by
  rw [passes, pathFrom_internal hq, isPrefixOf_step, passes]
  by_cases hanswer : q.item.evaluate record = .yes
  · rw [if_pos hanswer, decide_eq_true hanswer]
    cases branch <;> rfl
  · rw [if_neg hanswer, decide_eq_false hanswer]
    cases branch <;> rfl

theorem passes_yes {id : Nat} {info : NodeInfo ν} {yes no : Node (NodeInfo ν)}
    {q : Handle Question} (hq : pool.require id = .ok q) (place : List Bool) :
    (internal id info yes no).passes pool (true :: place) record =
      (decide (q.item.evaluate record = .yes) && yes.passes pool place record) := by
  rw [passes_cons hq, Bool.true_beq, if_pos rfl]

theorem passes_no {id : Nat} {info : NodeInfo ν} {yes no : Node (NodeInfo ν)}
    {q : Handle Question} (hq : pool.require id = .ok q) (place : List Bool) :
    (internal id info yes no).passes pool (false :: place) record =
      (!decide (q.item.evaluate record = .yes) && no.passes pool place record) := by
  rw [passes_cons hq, Bool.false_beq, if_neg Bool.false_ne_true]

theorem passes_concat {n : Node (NodeInfo ν)} {id : Nat} {info : NodeInfo ν}
    {yes no : Node (NodeInfo ν)} {q : Handle Question} {place : List Bool} (hasks : n.Asks pool)
    (hv : n.at? place = some (internal id info yes no)) (hq : pool.require id = .ok q)
    (branch : Bool) :
    n.passes pool (place ++ [branch]) record =
      (n.passes pool place record && branch == decide (q.item.evaluate record = .yes)) := by
  induction place generalizing n with
  | nil =>
    rw [at?_nil] at hv
    cases hv
    have hchild : (if branch then yes else no).Asks pool := by
      cases branch with
      | true => exact hasks.2.1
      | false => exact hasks.2.2
    rw [List.nil_append, passes_cons hq, passes_nil hchild, passes_nil hasks, Bool.and_true,
      Bool.true_and]
  | cons first place ih =>
    cases n with
    | leaf id info => cases hv
    | internal id' info' yes' no' =>
      obtain ⟨q', hq'⟩ := exists_require hasks.1
      have hbelow : (if first then yes' else no').Asks pool ∧
          (if first then yes' else no').at? place = some (internal id info yes no) := by
        cases first with
        | true => exact ⟨hasks.2.1, hv⟩
        | false => exact ⟨hasks.2.2, hv⟩
      rw [List.cons_append, passes_cons hq', passes_cons hq', ih hbelow.1 hbelow.2, Bool.and_assoc]

/-- A record passes the place of a leaf exactly if the walk leads it there. -/
theorem passes_leaf_iff {n v : Node (NodeInfo ν)} {place : List Bool} (h : n.Asks pool)
    (hv : n.at? place = some v) (hleaf : v.isLeaf = true) :
    n.passes pool place record = true ↔
      ∃ path, n.pathFrom pool record = .ok path ∧ path.branches = place := by
  obtain ⟨path, hpath, _, hat, _⟩ := exists_path h record
  rw [passes, hpath]
  constructor
  · intro hprefix
    obtain ⟨rest, hrest⟩ := List.isPrefixOf_iff_prefix.1 hprefix
    have hsome : (n.at? (place ++ rest)).isSome := by
      rw [hrest, hat]
      rfl
    have hempty := at?_append_of_leaf hv hleaf hsome
    rw [hempty, List.append_nil] at hrest
    exact ⟨path, rfl, hrest.symm⟩
  · rintro ⟨path', hpath', rfl⟩
    cases hpath'
    exact List.isPrefixOf_iff_prefix.2 (List.prefix_refl _)

end Node

namespace DecisionTree

/-- The node at a place. -/
def nodeAt? (t : DecisionTree ν) (place : List Bool) : Option (Node (NodeInfo ν)) :=
  t.root?.bind (·.at? place)

/-- Whether the way of a record leads through the node at a place. -/
def passes (t : DecisionTree ν) (place : List Bool) (record : Record) : Bool :=
  match t.findPath record with
  | .ok path => place.isPrefixOf path.branches
  | .error _ => false

variable {t : DecisionTree ν} {root : Node (NodeInfo ν)}

theorem find_eq_walk (h : t.root? = some root) (record : Record) :
    t.find record = root.walk t.pool record := by
  rw [root?] at h
  rw [find, BinaryTree.requireRoot, h]
  rfl

theorem findPath_eq_pathFrom (h : t.root? = some root) (record : Record) :
    t.findPath record = root.pathFrom t.pool record := by
  rw [root?] at h
  rw [findPath, BinaryTree.requireRoot, h]
  rfl

theorem passes_eq (h : t.root? = some root) (place : List Bool) (record : Record) :
    t.passes place record = root.passes t.pool place record := by
  rw [passes, findPath_eq_pathFrom h]
  rfl

theorem nodeAt?_eq (h : t.root? = some root) (place : List Bool) :
    t.nodeAt? place = root.at? place := by
  rw [nodeAt?, h]
  rfl

end DecisionTree

end QuestionTree
