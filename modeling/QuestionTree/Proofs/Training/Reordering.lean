import QuestionTree.Proofs.Growth.Reordered
import QuestionTree.Proofs.Training.Routing
import Mathlib.Data.List.Permutation

/-!
# Training on reordered examples

Training takes its examples in a list, but what it makes does not depend on their order as long as
the scorer and the sums of masses do not: the tree, the totals and the reasons for a failure are the
same, and so are the clusters up to the order of their examples.
-/

namespace QuestionTree

variable {ν γ : Type}

/-- Whether two outcomes have the same tree, the same totals and the same examples in the clusters
of each class, perhaps in another order. -/
structure Outcome.Reordered (o o' : Outcome ν) : Prop where
  tree_eq : o.tree = o'.tree
  summary_eq : o.summary = o'.summary
  schema_eq : o.clusters.schema = o'.clusters.schema
  clusters : List.Forall₂ (fun c c' => c.classId = c'.classId ∧ c.members.Perm c'.members)
    o.clusters.clusters o'.clusters.clusters

variable [Arithmetic ν] {t : Trainer ν} {source : DrawSource γ} {draws : γ}
  {examples examples' : ExampleList ν}

namespace Trainer

theorem decisionTree_of_train {o : Outcome ν} (h : t.train source draws examples = .ok o) :
    ∃ leafCount,
      (t.grow source draws examples).decisionTree t.plan.schema = .ok (o.tree, leafCount) := by
  obtain ⟨⟨⟩, _, h⟩ := bind_eq_ok_iff.1 h
  obtain ⟨⟨tree, leafCount⟩, htree, h⟩ := bind_eq_ok_iff.1 h
  obtain ⟨clusters, _, h⟩ := bind_eq_ok_iff.1 h
  cases h
  exact ⟨leafCount, htree⟩

theorem rests_grow (hblind : t.scorer.OrderBlind examples.members)
    (hperm : examples.members.Perm examples'.members) (source : DrawSource γ) (draws : γ) :
    (t.grow source draws examples).Rests (Leaf.Reordered examples.members)
      (t.grow source draws examples') := by
  have hall : examples.members.Subperm examples.members := List.Subperm.refl _
  have hmass := hblind.mass_eq hall hperm
  have hscore := hblind.score_eq hall hperm
  have hroot : (Growth.rootLeaf t.scorer examples.members).Reordered examples.members
      (Growth.rootLeaf t.scorer examples'.members) := by
    refine ⟨?_, hperm, hall⟩
    simp only [Growth.rootLeaf, Leaf.face, hmass, hscore]
  have hstart : (Growth.start t.scorer draws examples.members).Rests
      (Leaf.Reordered examples.members) (Growth.start t.scorer draws examples'.members) :=
    ⟨⟨hroot.face_eq, rfl, rfl⟩, rfl, .cons hroot.relabel .nil, rfl, rfl⟩
  exact hstart.runSteps (Leaf.Reordered.mirrors hblind) t.plan.maxLeaves t.plan.steps

theorem Made.clusters_reordered {g g' : Growth ν γ} {root root' : Node (NodeInfo ν)}
    {o o' : Outcome ν} (h : t.Made examples g root o) (h' : t.Made examples' g' root' o')
    (htree : o.tree = o'.tree) (hcount : g.commits.length = g'.commits.length)
    (hperm : examples.members.Perm examples'.members) :
    List.Forall₂ (fun c c' => c.classId = c'.classId ∧ c.members.Perm c'.members)
      o.clusters.clusters o'.clusters.clusters := by
  rw [h.clusters_eq, h'.clusters_eq, hcount, htree, List.forall₂_map_left_iff,
    List.forall₂_map_right_iff, List.forall₂_same]
  exact fun classId _ => ⟨rfl, hperm.filter _⟩

/-- Training on a reordering of the examples fails for the same reason or succeeds as well. -/
theorem exists_train_of_sameFace (hschema : examples.schema = examples'.schema)
    (h : (t.grow source draws examples).SameFace (t.grow source draws examples')) :
    ∃ o', t.train source draws examples' = (fun _ => o') <$> t.train source draws examples := by
  obtain ⟨root, o, _, htrain⟩ := exists_train_eq t source draws examples
  obtain ⟨root', o', _, htrain'⟩ := exists_train_eq t source draws examples'
  have hpool : (t.grow source draws examples').usedPool =
      (t.grow source draws examples).usedPool := by
    rw [Growth.usedPool, Growth.usedPool, h.used_eq]
  refine ⟨o', ?_⟩
  rw [htrain, htrain', hpool, ← hschema]
  cases t.plan.schema.requireSame examples.schema with
  | error e => rfl
  | ok _ =>
    cases t.plan.schema.requireSet with
    | error e => rfl
    | ok _ =>
      cases DecisionTree.checkQuestions t.plan.schema
        (t.grow source draws examples).usedPool <;> rfl

/-- Training on a reordering of the examples fails for the same reason, or makes the same tree, the
same totals and the same clusters up to their order. -/
theorem train_of_perm (hblind : t.scorer.OrderBlind examples.members)
    (hschema : examples.schema = examples'.schema)
    (hperm : examples.members.Perm examples'.members) (source : DrawSource γ) (draws : γ) :
    (∃ e, t.train source draws examples = .error e ∧ t.train source draws examples' = .error e) ∨
    ∃ o o', t.train source draws examples = .ok o ∧ t.train source draws examples' = .ok o' ∧
      o.Reordered o' := by
  have hgrow := rests_grow hblind hperm source draws
  obtain ⟨o', htrain'⟩ := exists_train_of_sameFace hschema hgrow.toSameFace
  cases htrain : t.train source draws examples with
  | error e =>
    rw [htrain] at htrain'
    exact .inl ⟨e, rfl, htrain'⟩
  | ok o =>
    rw [htrain] at htrain'
    refine .inr ⟨o, o', rfl, htrain', ?_⟩
    obtain ⟨root, hmade⟩ := exists_made_of_train htrain
    obtain ⟨root', hmade'⟩ := exists_made_of_train htrain'
    obtain ⟨leafCount, htree⟩ := decisionTree_of_train htrain
    obtain ⟨leafCount', htree'⟩ := decisionTree_of_train htrain'
    rw [hgrow.decisionTree_eq, htree', Except.ok.injEq, Prod.mk.injEq] at htree
    have hsame : o.tree = o'.tree := htree.1.symm
    have hcount := hgrow.length_commits_eq
    refine ⟨hsame, ?_, ?_, hmade.clusters_reordered hmade' hsame hcount hperm⟩
    · rw [hmade.summary_eq, hmade'.summary_eq, hgrow.summary_eq, hcount]
    · rw [hmade.clusters_eq, hmade'.clusters_eq]

end Trainer

/-! ### Two things the other way round -/

namespace Variance

theorem orderBlind {members : List (Handle (Example ν))}
    (hmass : ∀ {xs ys : List (Handle (Example ν))}, xs.Subperm members → xs.Perm ys →
      Example.totalMass (xs.map Handle.item) = Example.totalMass (ys.map Handle.item))
    (hscore : ∀ {xs ys : List (Handle (Example ν))}, xs.Subperm members → xs.Perm ys →
      sumOfSquares (xs.map Handle.item) = sumOfSquares (ys.map Handle.item)) :
    scorer.OrderBlind members where
  mass_eq := hmass
  score_eq := hscore
  split_eq {yes no yes' no'} hboth hyes hno score := by
    have hyesScore := hscore ((List.sublist_append_left yes no).subperm.trans hboth) hyes
    have hnoScore := hscore ((List.sublist_append_right yes no).subperm.trans hboth) hno
    simp only [scorer, hyesScore, hnoScore]

end Variance

namespace Sample

/-- The two things in the other order. -/
def reversed : ExampleList Float := ⟨schema, list.members.reverse⟩

theorem perm_of_pair {α : Type} {a b : α} {xs ys : List α} (hsub : xs.Subperm [a, b])
    (hperm : xs.Perm ys) : xs = ys ∨ xs = [a, b] ∧ ys = [b, a] ∨ xs = [b, a] ∧ ys = [a, b] := by
  by_cases hlength : xs.length < 2
  · match xs, hlength with
    | [], _ => exact .inl hperm.nil_eq
    | [x], _ => exact .inl (List.singleton_perm.1 hperm)
  · have hall : xs.Perm [a, b] := hsub.perm_of_length_le (Nat.le_of_not_lt hlength)
    rcases List.perm_pair.1 hall with hxs | hxs <;>
      rcases List.perm_pair.1 (hperm.symm.trans hall) with hys | hys
    · exact .inl (hxs.trans hys.symm)
    · exact .inr (.inl ⟨hxs, hys⟩)
    · exact .inr (.inr ⟨hxs, hys⟩)
    · exact .inl (hxs.trans hys.symm)

theorem orderBlind_list : trainer.scorer.OrderBlind list.members := by
  refine Variance.orderBlind ?_ ?_
  · intro xs ys hsub hperm
    rcases perm_of_pair hsub hperm with rfl | ⟨rfl, rfl⟩ | ⟨rfl, rfl⟩
    · rfl
    · decide +kernel
    · decide +kernel
  · intro xs ys hsub hperm
    rcases perm_of_pair hsub hperm with rfl | ⟨rfl, rfl⟩ | ⟨rfl, rfl⟩
    · rfl
    · decide +kernel
    · decide +kernel

end Sample

namespace Trainer

open Sample

/-- The training that splits the red thing from the blue thing, and the same one on the blue thing
and the red thing. -/
theorem train_reversed : trainer.scorer.OrderBlind list.members ∧
    list.schema = reversed.schema ∧ list.members.Perm reversed.members ∧
    ∃ o o', trainer.train firstPlaces () list = .ok o ∧
      trainer.train firstPlaces () reversed = .ok o' ∧ o.summary.splitCount = 1 ∧
      o.Reordered o' := by
  have hschema : list.schema = reversed.schema := rfl
  have hperm : list.members.Perm reversed.members := (List.reverse_perm _).symm
  have hcount : (trainer.train firstPlaces () list).toOption.map (·.summary.splitCount) =
      some 1 := by
    decide +kernel
  obtain ⟨o, htrain, hsplit⟩ := Outcome.exists_of_splitCount hcount
  refine ⟨orderBlind_list, hschema, hperm, ?_⟩
  rcases train_of_perm orderBlind_list hschema hperm firstPlaces () with
    ⟨e, herror, _⟩ | ⟨o₁, o', ho, ho', hreordered⟩
  · rw [htrain] at herror
    cases herror
  · rw [htrain] at ho
    cases ho
    exact ⟨o, o', htrain, ho', hsplit, hreordered⟩

end Trainer

end QuestionTree
