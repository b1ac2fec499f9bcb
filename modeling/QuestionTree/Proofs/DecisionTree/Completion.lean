import QuestionTree.Proofs.DecisionTree.Answering
import QuestionTree.Proofs.DecisionTree.Visited

/-!
# Records that know more

A record completes another one if it has every value that the other one has, and maybe values of
further keys. An answer that is defined stays as it is when more becomes known, and one that is not
defined has had both of its branches followed before. So the nodes that the completed record leads
to are among those of the record that knows less, in the same order, and so is the leaf that is
found for it.
-/

namespace QuestionTree

variable {ν : Type}

/-- Whether a record has all the values of another one. -/
def Record.Completes (p' p : Record) : Prop := ∀ k v, p.value? k = some v → p'.value? k = some v

variable {p p' : Record}

/-- An answer stays as it is, unless it was not defined. -/
theorem Question.evaluate_of_completes (h : p'.Completes p) (q : Question) :
    q.evaluate p = .undefined ∨ q.evaluate p' = q.evaluate p := by
  cases hvalue : p.value? q.key with
  | none =>
    left
    rw [evaluate, hvalue]
  | some v =>
    right
    rw [evaluate, evaluate, hvalue, h q.key v hvalue]

theorem Question.follows_of_completes (h : p'.Completes p) (q : Question) {branch : Bool}
    (hfollows : (q.evaluate p').follows branch = true) :
    (q.evaluate p).follows branch = true := by
  rcases q.evaluate_of_completes h with hundefined | hsame
  · rw [hundefined]
    rfl
  · rwa [← hsame]

/-- A record visits what one that knows more visits, in the same order. -/
theorem Node.visited_sublist_of_completes (h : p'.Completes p) (n : Node (NodeInfo ν))
    (pool : QuestionPool) : (n.visited pool p').Sublist (n.visited pool p) := by
  induction n with
  | leaf id info => exact List.Sublist.refl _
  | internal id info yes no ihYes ihNo =>
    rw [visited, visited]
    refine List.Sublist.cons_cons _ ?_
    split
    · exact List.Sublist.refl _
    · rename_i q _
      -- a branch that is followed when more is known was followed before
      have hbranch : ∀ (branch : Bool) {l' l : List (List Bool × Node (NodeInfo ν))},
          l'.Sublist l →
          (if (q.item.evaluate p').follows branch then l'.map (under branch) else []).Sublist
            (if (q.item.evaluate p).follows branch then l.map (under branch) else []) := by
        intro branch l' l hl
        split
        · rename_i hfollows
          rw [if_pos (q.item.follows_of_completes h hfollows)]
          exact hl.map _
        · exact List.nil_sublist _
      exact (hbranch true ihYes).append (hbranch false ihNo)

namespace DecisionTree

/-- The leaves among some nodes with their places. -/
def leavesOf (visited : List (List Bool × Node (NodeInfo ν))) :
    List (List Bool × Node (NodeInfo ν)) :=
  visited.filter fun s => s.2.isLeaf

/-- Whether a record visits the nodes of a list, each at a place of its own. -/
structure Visits (t : DecisionTree ν) (p : Record)
    (visited : List (List Bool × Node (NodeInfo ν))) : Prop where
  nodeAt?_eq : ∀ s ∈ visited, t.nodeAt? s.1 = some s.2
  nodup_places : (visited.map Prod.fst).Nodup
  findAll_eq : t.findAll p = .ok (visited.map Prod.snd)
  findLeaves_eq : t.findLeaves p = .ok ((leavesOf visited).map Prod.snd)

theorem visits_of_asks {t : DecisionTree ν} {root : Node (NodeInfo ν)} (hroot : t.root? = some root)
    (hasks : root.Asks t.pool) (p : Record) : t.Visits p (root.visited t.pool p) := by
  have hfindAll : t.findAll p = .ok ((root.visited t.pool p).map Prod.snd) := by
    rw [findAll_eq_reachable hroot, Node.reachable_eq hasks]
  refine ⟨fun s hs => ?_, root.nodup_visited t.pool p, hfindAll, ?_⟩
  · rw [DecisionTree.nodeAt?_eq hroot]
    exact Node.at?_of_mem_visited hs
  · rw [findLeaves, hfindAll, leavesOf]
    exact congrArg Except.ok List.filter_map

/-- The nodes that a record leads to include, in their order, those that a record which knows more
leads to, and the leaf that is found for the latter is one of the leaves found for the former. -/
theorem visits_of_completes {t : DecisionTree Float} (ht : t.Obtained)
    {root : Node (NodeInfo Float)} (hroot : t.root? = some root) {p p' : Record}
    (h : p'.Completes p) :
    ∃ visited visited', t.Visits p visited ∧ t.Visits p' visited' ∧
      visited'.Sublist visited ∧ (leavesOf visited').Sublist (leavesOf visited) ∧
      ∃ path, t.findPath p' = .ok path ∧ t.find p' = .ok path.leaf ∧
        (path.branches, path.leaf) ∈ leavesOf visited := by
  obtain ⟨_, _, _, hparts⟩ := ht.exists_ofParts
  have hasks : root.Asks t.pool := asks_of_ofParts hparts hroot
  have hsublist := Node.visited_sublist_of_completes h root t.pool
  obtain ⟨path, hpath, hwalk, _, hleaf⟩ := Node.exists_path hasks p'
  have hvisited : (path.branches, path.leaf) ∈ root.visited t.pool p :=
    hsublist.subset ((root.way_sublist_visited t.pool p').subset (Node.leaf_mem_way hasks hpath))
  exact ⟨_, _, visits_of_asks hroot hasks p, visits_of_asks hroot hasks p', hsublist,
    hsublist.filter _, path, (findPath_eq_pathFrom hroot p').trans hpath,
    (find_eq_walk hroot p').trans hwalk, List.mem_filter.2 ⟨hvisited, hleaf⟩⟩

end DecisionTree

namespace Sample

def tiles : Schema := ⟨[⟨"color", ⟨["red", "blue", "green"]⟩⟩, ⟨"shape", ⟨["round", "square"]⟩⟩]⟩

/-- A tree that asks for the color at several nodes, at two of them by the same question. -/
def tileTree : DecisionTree Float :=
  ⟨tiles, .ofQuestions 0 [⟨0, .set [0, 1], ""⟩, ⟨0, .single 0, ""⟩, ⟨1, .single 0, ""⟩],
    ⟨some (.internal 0 ⟨0, 5, 1⟩
      (.internal 1 ⟨1, 2, 0.5⟩ (.leaf 0 ⟨3, 1, 0⟩) (.leaf 1 ⟨4, 1, 0⟩))
      (.internal 2 ⟨2, 3, 0.5⟩ (.leaf 2 ⟨5, 1, 0⟩)
        (.internal 1 ⟨6, 2, 0.25⟩ (.leaf 3 ⟨7, 1, 0⟩) (.leaf 4 ⟨8, 1, 0⟩))))⟩⟩

theorem ofParts_tileTree : DecisionTree.ofParts tileTree.schema tileTree.pool tileTree.root? =
    .ok tileTree := by
  have hset : tileTree.schema.requireSet = .ok () := by decide +kernel
  have hquestions : DecisionTree.checkQuestions tileTree.schema tileTree.pool = .ok () := by
    decide +kernel
  have hnodes : DecisionTree.checkNodes tileTree.pool tileTree.root? = .ok () := by decide +kernel
  rw [DecisionTree.ofParts, hset, hquestions, hnodes]
  rfl

/-- A square tile of which no color is known. -/
def square : Record := ⟨tiles, [none, some 1]⟩

def greenSquare : Record := ⟨tiles, [some 2, some 1]⟩

theorem greenSquare_completes : greenSquare.Completes square := by
  intro k v h
  match k with
  | 0 => cases h
  | 1 => exact h
  | k + 2 => cases h

end Sample

namespace DecisionTree

open Sample

/-- The square tile may lead to four of the leaves, the green one only to the last of them. -/
theorem visits_greenSquare :
    (∃ visited visited', tileTree.Visits square visited ∧ tileTree.Visits greenSquare visited' ∧
      visited'.Sublist visited ∧ (leavesOf visited').Sublist (leavesOf visited) ∧
      ∃ path, tileTree.findPath greenSquare = .ok path ∧
        tileTree.find greenSquare = .ok path.leaf ∧
        (path.branches, path.leaf) ∈ leavesOf visited) ∧
    (List.map Node.id <$> tileTree.findLeaves square) = .ok [0, 1, 3, 4] ∧
    tileTree.classify greenSquare = .ok 4 := by
  refine ⟨visits_of_completes (.made ofParts_tileTree) rfl greenSquare_completes, ?_, ?_⟩
  · decide +kernel
  · decide +kernel

end DecisionTree

end QuestionTree
