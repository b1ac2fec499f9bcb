import QuestionTree.Proofs.BinaryTree.Height
import QuestionTree.Proofs.DecisionTree.Completion

/-!
# Walks that agree

A record is led to its leaf, its way is noted down, and all the nodes that it may lead to are
visited: three walks, of which the first two take an answer that is not defined as no and the third
follows both of its branches. They tell of the same way. The steps noted down are the questions of
the inner nodes on it, no more of them than the tree is high; the nodes on it are visited in their
order, and no other node is visited exactly if every visited question has an answer. The way depends
on no other key than those of its questions.
-/

namespace QuestionTree

variable {ν : Type}

namespace Node

variable {pool : QuestionPool} {p p' : Record} {n : Node (NodeInfo ν)} {path : Path ν}

/-- Whether a step notes down the question of an inner node with the answer of a record. -/
def NotedAt (pool : QuestionPool) (p : Record) (s : List Bool × Node (NodeInfo ν))
    (step : Handle Question × Answer) : Prop :=
  s.2.isLeaf = false ∧ pool.require s.2.id = .ok step.1 ∧ step.2 = step.1.item.evaluate p

theorem exists_asked (h : n.Asks pool) (hpath : n.pathFrom pool p = .ok path) :
    ∃ asked, n.way pool p = asked ++ [(path.branches, path.leaf)] ∧
      List.Forall₂ (NotedAt pool p) asked path.steps := by
  induction n generalizing path with
  | leaf id info =>
    cases hpath
    exact ⟨[], rfl, .nil⟩
  | internal id info yes no ihYes ihNo =>
    obtain ⟨hid, hyes, hno⟩ := h
    obtain ⟨q, hq⟩ := exists_require hid
    rw [pathFrom_internal hq] at hpath
    obtain ⟨rest, hrest, rfl⟩ := map_eq_ok_iff.1 hpath
    have hunder : ∀ (branch : Bool) {asked : List (List Bool × Node (NodeInfo ν))},
        List.Forall₂ (NotedAt pool p) asked rest.steps →
        List.Forall₂ (NotedAt pool p) (([], internal id info yes no) :: asked.map (under branch))
          ((q, q.item.evaluate p) :: rest.steps) := fun branch asked hasked =>
      .cons ⟨rfl, hq, rfl⟩ (List.forall₂_map_left_iff.2 hasked)
    rw [way_internal hq, Path.branches, List.map_cons]
    by_cases hanswer : q.item.evaluate p = .yes
    · rw [if_pos hanswer] at hrest
      obtain ⟨asked, hway, hasked⟩ := ihYes hyes hrest
      rw [if_pos hanswer, hway, List.map_append, decide_eq_true hanswer]
      exact ⟨_, rfl, hunder true hasked⟩
    · rw [if_neg hanswer] at hrest
      obtain ⟨asked, hway, hasked⟩ := ihNo hno hrest
      rw [if_neg hanswer, hway, List.map_append, decide_eq_false hanswer]
      exact ⟨_, rfl, hunder false hasked⟩

theorem length_steps_le_height (h : n.Asks pool) (hpath : n.pathFrom pool p = .ok path) :
    path.steps.length ≤ n.height := by
  induction n generalizing path with
  | leaf id info =>
    cases hpath
    exact Nat.zero_le _
  | internal id info yes no ihYes ihNo =>
    obtain ⟨hid, hyes, hno⟩ := h
    obtain ⟨q, hq⟩ := exists_require hid
    rw [pathFrom_internal hq] at hpath
    obtain ⟨rest, hrest, rfl⟩ := map_eq_ok_iff.1 hpath
    rw [height_internal, List.length_cons]
    split at hrest
    · have := ihYes hyes hrest
      omega
    · have := ihNo hno hrest
      omega

/-- A record that has the same values of the keys asked for takes the same way. -/
theorem pathFrom_of_agree (h : n.Asks pool) (hpath : n.pathFrom pool p = .ok path)
    (hagree : ∀ s ∈ path.steps, p'.value? s.1.item.key = p.value? s.1.item.key) :
    n.pathFrom pool p' = .ok path := by
  induction n generalizing path with
  | leaf id info => exact hpath
  | internal id info yes no ihYes ihNo =>
    obtain ⟨hid, hyes, hno⟩ := h
    obtain ⟨q, hq⟩ := exists_require hid
    rw [pathFrom_internal hq] at hpath
    obtain ⟨rest, hrest, rfl⟩ := map_eq_ok_iff.1 hpath
    obtain ⟨hkey, hbelow⟩ := List.forall_mem_cons.1 hagree
    have hanswer : q.item.evaluate p' = q.item.evaluate p := by
      rw [Question.evaluate, Question.evaluate, hkey]
    rw [pathFrom_internal hq, hanswer]
    split at hrest
    · rename_i hyesAnswer
      rw [if_pos hyesAnswer, ihYes hyes hrest hbelow]
      rfl
    · rename_i hother
      rw [if_neg hother, ihNo hno hrest hbelow]
      rfl

/-! ### When nothing else is visited -/

/-- Whether every question of the inner nodes of a list has an answer. -/
def Answered (pool : QuestionPool) (p : Record) (l : List (List Bool × Node (NodeInfo ν))) : Prop :=
  ∀ s ∈ l, s.2.isLeaf = false → ∀ q, pool.require s.2.id = .ok q → q.item.evaluate p ≠ .undefined

theorem answered_under (branch : Bool) (l : List (List Bool × Node (NodeInfo ν))) :
    Answered pool p (l.map (under branch)) ↔ Answered pool p l :=
  List.forall_mem_map

theorem answered_internal {id : Nat} {info : NodeInfo ν} {yes no : Node (NodeInfo ν)}
    {q : Handle Question} (hq : pool.require id = .ok q)
    (l : List (List Bool × Node (NodeInfo ν))) :
    Answered pool p (([], internal id info yes no) :: l) ↔
      q.item.evaluate p ≠ .undefined ∧ Answered pool p l := by
  rw [Answered, List.forall_mem_cons]
  refine and_congr_left fun _ => ⟨fun h => h rfl q hq, fun h _ q' hq' => ?_⟩
  cases hq.symm.trans hq'
  exact h

theorem length_visited_pos (n : Node (NodeInfo ν)) (pool : QuestionPool) (p : Record) :
    0 < (n.visited pool p).length := by
  cases n <;> exact Nat.succ_pos _

theorem visited_eq_way_iff (h : n.Asks pool) (p : Record) :
    n.visited pool p = n.way pool p ↔ Answered pool p (n.visited pool p) := by
  induction n with
  | leaf id info =>
    refine ⟨fun _ => ?_, fun _ => rfl⟩
    rw [Answered, visited, List.forall_mem_singleton]
    exact fun hinner => by cases hinner
  | internal id info yes no ihYes ihNo =>
    obtain ⟨hid, hyes, hno⟩ := h
    obtain ⟨q, hq⟩ := exists_require hid
    rw [visited_internal hq, way_internal hq, List.cons_inj_right, answered_internal hq]
    have hunder : ∀ (branch : Bool) (l l' : List (List Bool × Node (NodeInfo ν))),
        l.map (under branch) = l'.map (under branch) ↔ l = l' := fun branch l l' =>
      (under_injective branch).list_map.eq_iff
    cases q.item.evaluate p with
    | yes => simp [Answer.follows, hunder, ihYes hyes, answered_under]
    | no => simp [Answer.follows, hunder, ihNo hno, answered_under]
    | undefined =>
      -- both children are visited, but only one of them stands on the way
      refine iff_of_false (fun heq => ?_) (fun h => h.1 rfl)
      have hlength := congrArg List.length heq
      simp only [Answer.follows, List.length_append, List.length_map, if_true, if_false,
        reduceCtorEq] at hlength
      have hpos := yes.length_visited_pos pool p
      have hle := (no.way_sublist_visited pool p).length_le
      omega

end Node

namespace DecisionTree

/-- Whether the walks of a record agree: on the way of its path, which leads through the nodes
`asked` to the leaf, and on the nodes that it visits. -/
structure WalksAgree (t : DecisionTree ν) (p : Record) (path : Path ν)
    (asked visited : List (List Bool × Node (NodeInfo ν))) : Prop where
  visits : t.Visits p visited
  findPath_eq : t.findPath p = .ok path
  find_eq : t.find p = .ok path.leaf
  classify_eq : t.classify p = .ok path.leaf.id
  isLeaf : path.leaf.isLeaf = true
  /-- The way leads through the places where its branches begin. -/
  places_eq : (asked ++ [(path.branches, path.leaf)]).map Prod.fst = path.branches.inits
  noted : List.Forall₂ (Node.NotedAt t.pool p) asked path.steps
  length_le : path.steps.length ≤ t.tree.height
  sublist : (asked ++ [(path.branches, path.leaf)]).Sublist visited
  /-- Nothing but the way is found exactly if every visited question has an answer. -/
  findAll_iff : t.findAll p = .ok ((asked ++ [(path.branches, path.leaf)]).map Prod.snd) ↔
    Node.Answered t.pool p visited
  /-- The values of other keys are of no account. -/
  findPath_of_agree : ∀ p' : Record,
    (∀ s ∈ path.steps, p'.value? s.1.item.key = p.value? s.1.item.key) →
      t.findPath p' = .ok path ∧ t.find p' = .ok path.leaf

/-- The walks of a record agree on every tree that has a node. -/
theorem walks_agree {t : DecisionTree Float} (ht : t.Obtained) {root : Node (NodeInfo Float)}
    (hroot : t.root? = some root) (p : Record) :
    ∃ path asked visited, t.WalksAgree p path asked visited := by
  obtain ⟨_, _, _, hparts⟩ := ht.exists_ofParts
  have hasks : root.Asks t.pool := asks_of_ofParts hparts hroot
  have hvisits := visits_of_asks hroot hasks p
  obtain ⟨path, hpath, hwalk, _, hleaf⟩ := Node.exists_path hasks p
  obtain ⟨asked, hway, hnoted⟩ := Node.exists_asked hasks hpath
  have hsublist := root.way_sublist_visited t.pool p
  have hfind : t.find p = .ok path.leaf := (find_eq_walk hroot p).trans hwalk
  have hclassify : t.classify p = .ok path.leaf.id := by
    rw [classify, hfind]
    rfl
  have hheight : t.tree.height = root.height := by
    rw [root?] at hroot
    rw [BinaryTree.height, hroot]
    rfl
  refine ⟨path, asked, _, hvisits, (findPath_eq_pathFrom hroot p).trans hpath, hfind, hclassify,
    hleaf, ?_, hnoted, ?_, hway ▸ hsublist, ?_, fun p' hagree => ?_⟩
  · rw [← hway, Node.map_fst_way hasks hpath]
  · rw [hheight]
    exact Node.length_steps_le_height hasks hpath
  · -- lists of the same nodes are as long as each other, so none of the visited is left out
    rw [hvisits.findAll_eq, Except.ok.injEq, ← hway, ← Node.visited_eq_way_iff hasks]
    refine ⟨fun h => ?_, congrArg _⟩
    have hlength := congrArg List.length h
    rw [List.length_map, List.length_map] at hlength
    exact (hsublist.eq_of_length hlength.symm).symm
  · have hpath' := Node.pathFrom_of_agree hasks hpath hagree
    obtain ⟨path', hsame, hwalk', _⟩ := Node.exists_path hasks p'
    obtain rfl := Except.ok.inj (hpath'.symm.trans hsame)
    exact ⟨(findPath_eq_pathFrom hroot p').trans hpath', (find_eq_walk hroot p').trans hwalk'⟩

open Sample

/-- The square tile of no known color takes the way of all tiles that are no round ones. -/
theorem walks_agree_square : (∃ path asked visited,
      tileTree.WalksAgree square path asked visited) ∧
    ((fun path : Path Float => path.steps.map Prod.snd) <$> tileTree.findPath square) =
      .ok [.undefined, .no, .undefined] :=
  ⟨walks_agree (.made ofParts_tileTree) rfl square, by decide +kernel⟩

end DecisionTree

end QuestionTree
