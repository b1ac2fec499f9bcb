import QuestionTree.Growth.Outcome

/-!
# The face of a run

What is made of a run does not look at the examples of its leaves: the decision tree carries masses
and scores, and the totals carry gains and depths. The `face` of a leaf, of a split and of a commit
is what is left without the examples. Runs with the same faces have the same tree and the same
totals.
-/

namespace QuestionTree

variable {ν γ δ : Type}

/-- The leaf without its examples. -/
def Leaf.face (l : Leaf ν) : Leaf ν := { l with members := [] }

def Side.face (s : Side ν) : Side ν := { s with members := [] }

/-- The split without the examples of its leaf and of its sides. -/
def Candidate.face (c : Candidate ν) : Candidate ν :=
  { c with leaf := c.leaf.face, yes := c.yes.face, no := c.no.face }

/-- The commit without any examples. -/
def Commit.face (c : Commit ν) : Commit ν := ⟨c.candidate.face, c.yes.face, c.no.face⟩

namespace GrownTree

/-- The tree without any examples. -/
def face : GrownTree ν → GrownTree ν
  | leaf l => leaf l.face
  | split c yes no => split c.face yes.face no.face

theorem face_apply (c : Commit ν) (t : GrownTree ν) : (t.apply c).face = t.face.apply c.face := by
  induction t with
  | leaf l =>
    simp only [apply, face, apply_ite face]
    rfl
  | split d yes no ihYes ihNo => rw [apply, face, ihYes, ihNo, face, apply]

theorem face_foldl_apply (commits : List (Commit ν)) (t : GrownTree ν) :
    (commits.foldl (fun t c => t.apply c) t).face =
      (commits.map Commit.face).foldl (fun t c => t.apply c) t.face := by
  induction commits generalizing t with
  | nil => rfl
  | cons c commits ih => rw [List.foldl_cons, ih, face_apply, List.map_cons, List.foldl_cons]

theorem toNode_face (rank : Entry → Except Error Nat) (t : GrownTree ν) (next : Nat) :
    t.face.toNode rank next = t.toNode rank next := by
  induction t generalizing next with
  | leaf l => rfl
  | split c yes no ihYes ihNo =>
    simp only [face, toNode, ihYes, ihNo]
    rfl

end GrownTree

namespace Growth

/-- Whether two states have the same faces and the same questions on offer. -/
structure SameFace (g : Growth ν γ) (g' : Growth ν δ) : Prop where
  root_eq : g.root.face = g'.root.face
  offered_eq : g.offered = g'.offered
  commits_eq : g.commits.map Commit.face = g'.commits.map Commit.face

namespace SameFace

variable {g : Growth ν γ} {g' : Growth ν δ}

theorem length_commits_eq (h : g.SameFace g') : g.commits.length = g'.commits.length := by
  have hmap := congrArg List.length h.commits_eq
  rwa [List.length_map, List.length_map] at hmap

theorem toNode_eq (h : g.SameFace g') (rank : Entry → Except Error Nat) (next : Nat) :
    g.tree.toNode rank next = g'.tree.toNode rank next := by
  have hface : g.tree.face = g'.tree.face := by
    rw [tree, tree, GrownTree.face_foldl_apply, GrownTree.face_foldl_apply, h.commits_eq,
      GrownTree.face, GrownTree.face, h.root_eq]
  rw [← GrownTree.toNode_face, hface, GrownTree.toNode_face]

theorem commitsOf_eq (h : g.SameFace g') (e : Entry) :
    (g.commitsOf e).map Commit.face = (g'.commitsOf e).map Commit.face := by
  have hfilter : ∀ commits : List (Commit ν),
      (commits.filter (·.candidate.entry.id == e.id)).map Commit.face =
        (commits.map Commit.face).filter (·.candidate.entry.id == e.id) := by
    intro commits
    rw [List.filter_map]
    rfl
  rw [commitsOf, commitsOf, hfilter, hfilter, h.commits_eq]

theorem used_eq (h : g.SameFace g') : g.used = g'.used := by
  have hempty : ∀ e, (g.commitsOf e).isEmpty = (g'.commitsOf e).isEmpty := by
    intro e
    have hcommits := h.commitsOf_eq e
    rw [← List.isEmpty_map (f := Commit.face), hcommits, List.isEmpty_map]
  rw [used, used, h.offered_eq]
  simp only [hempty]

theorem rank_eq (h : g.SameFace g') : g.rank = g'.rank := by
  funext e
  rw [rank, rank, h.used_eq, h.offered_eq]

theorem decisionTree_eq (h : g.SameFace g') (schema : Schema) :
    g.decisionTree schema = g'.decisionTree schema := by
  rw [decisionTree, decisionTree, h.toNode_eq, h.rank_eq, h.used_eq]

variable [Arithmetic ν]

theorem totalGain_eq (h : g.SameFace g') : g.totalGain = g'.totalGain := by
  have hface : ∀ commits : List (Commit ν),
      commits.foldl (fun total c => total + c.candidate.gain) (0 : ν) =
        (commits.map Commit.face).foldl (fun total c => total + c.candidate.gain) 0 := by
    intro commits
    rw [List.foldl_map]
    rfl
  rw [totalGain, totalGain, hface, h.commits_eq, ← hface]

theorem statisticOf_eq (h : g.SameFace g') (e : Entry) : g.statisticOf e = g'.statisticOf e := by
  have hface : ∀ commits : List (Commit ν),
      commits.foldl (fun s c => s.record c.candidate.gain c.candidate.leaf.depth) Statistic.blank =
        (commits.map Commit.face).foldl
          (fun s c => s.record c.candidate.gain c.candidate.leaf.depth) Statistic.blank := by
    intro commits
    rw [List.foldl_map]
    rfl
  rw [statisticOf, statisticOf, hface, h.commitsOf_eq, ← hface]

theorem summary_eq (h : g.SameFace g') (leafCount : Nat) :
    g.summary leafCount = g'.summary leafCount := by
  have hscore : g.root.score = g'.root.score := (congrArg Leaf.score h.root_eq :)
  have hmass : g.root.mass = g'.root.mass := (congrArg Leaf.mass h.root_eq :)
  rw [summary, summary, hscore, hmass, h.totalGain_eq, h.length_commits_eq,
    h.offered_eq]
  simp only [h.statisticOf_eq]

end SameFace

end Growth

/-- What is made of a run depends on its face alone. -/
theorem Trainer.finish_of_sameFace [Arithmetic ν] {g : Growth ν γ} {g' : Growth ν δ}
    (h : g.SameFace g') (t : Trainer ν) (examples : ExampleList ν) :
    t.finish g examples = t.finish g' examples := by
  rw [finish, finish, h.decisionTree_eq]
  simp only [h.summary_eq]

end QuestionTree
