import QuestionTree.Proofs.Training.Partition

/-!
# Clusters that are filled by hand

Clusters are added to a list one after the other, with whatever members they have, and examples are
pushed to those that stand at the place of their class. Whatever was added and pushed, the list
holds this and nothing else, and it passes for a partition of some examples exactly if its handles
are those of the examples in some order.
-/

namespace QuestionTree

namespace ClusterList

variable {ν : Type}

/-- What is done to a list of clusters. -/
inductive Move (ν : Type) where
  | add (c : Cluster ν)
  | push (classId : Nat) (e : Handle (Example ν))

/-- The list after a move. A push to a class without a cluster at its place leaves it as it was. -/
def apply (l : ClusterList ν) : Move ν → ClusterList ν
  | .add c => l.add c
  | .push classId e => (l.push? classId e).getD l

def applyAll (l : ClusterList ν) (moves : List (Move ν)) : ClusterList ν := moves.foldl apply l

/-- The handles that a move puts into a list. -/
def taken (l : ClusterList ν) : Move ν → List (Handle (Example ν))
  | .add c => c.members
  | .push classId e => if (l.get? classId).isSome then [e] else []

/-- The handles that moves put into a list, one after the other. -/
def takenAll (l : ClusterList ν) : List (Move ν) → List (Handle (Example ν))
  | [] => []
  | m :: moves => l.taken m ++ (l.apply m).takenAll moves

variable {l : ClusterList ν}

/-- A cluster that is put in the place of another one brings its members along. -/
theorem flatMap_set_push {clusters : List (Cluster ν)} {i : Nat} (hi : i < clusters.length)
    (e : Handle (Example ν)) : ((clusters.set i (clusters[i].push e)).flatMap Cluster.members).Perm
      (clusters.flatMap Cluster.members ++ [e]) := by
  have hmembers : clusters.flatMap Cluster.members = (clusters.take i).flatMap Cluster.members ++
      (clusters[i].members ++ (clusters.drop (i + 1)).flatMap Cluster.members) := by
    rw [← List.flatMap_cons, List.getElem_cons_drop, ← List.flatMap_append, List.take_append_drop]
  rw [hmembers, List.set_eq_take_append_cons_drop, if_pos hi, List.flatMap_append,
    List.flatMap_cons, Cluster.push, List.append_assoc, List.append_assoc, List.append_assoc]
  exact (List.perm_append_comm.append_left _).append_left _

theorem members_apply (l : ClusterList ν) (m : Move ν) :
    (l.apply m).members.Perm (l.members ++ l.taken m) := by
  cases m with
  | add c =>
    rw [apply, add, members, List.flatMap_append, List.flatMap_singleton]
    exact .refl _
  | push classId e =>
    rw [apply, taken, push?]
    cases hget : l.get? classId with
    | none =>
      rw [Option.isSome_none, if_neg Bool.false_ne_true, List.append_nil]
      exact .refl _
    | some c =>
      obtain ⟨hplace, _⟩ := Option.filter_eq_some_iff.1 hget
      obtain ⟨hlt, rfl⟩ := List.getElem?_eq_some_iff.1 hplace
      exact flatMap_set_push hlt e

theorem members_applyAll (l : ClusterList ν) (moves : List (Move ν)) :
    (l.applyAll moves).members.Perm (l.members ++ l.takenAll moves) := by
  induction moves generalizing l with
  | nil =>
    rw [takenAll, List.append_nil]
    exact .refl _
  | cons m moves ih =>
    rw [takenAll, ← List.append_assoc]
    exact (ih (l.apply m)).trans ((l.members_apply m).append_right _)

/-- What the test of clusters for a partition of some examples tells. -/
structure TellsPartition (l : ClusterList ν) (examples : ExampleList ν) : Prop where
  /-- Whether the tags of the clusters are those of the examples in some order. -/
  tags_iff : l.isPartitionOf examples = true ↔
    (l.members.map Handle.tag).Perm (examples.members.map Handle.tag)
  /-- The same of the handles, where no tag stands for two of them. -/
  members_iff : (∀ a ∈ l.members, ∀ b ∈ examples.members, a.tag = b.tag → a = b) →
    (l.isPartitionOf examples = true ↔ l.members.Perm examples.members)
  /-- Entering the tags into a set, and giving up at a repeated one, tells the same. -/
  bySet_eq : l.isPartitionBySet examples = l.isPartitionOf examples

/-- The test for a partition of examples whose tags differ decides it, for all clusters and so for
those that are filled by any moves. -/
theorem tellsPartition {examples : ExampleList Float} (hexamples : examples.Built) :
    (∀ l : ClusterList Float, l.TellsPartition examples) ∧
    ∀ (schema : Schema) (moves : List (Move Float)),
      let blank : ClusterList Float := ⟨schema, []⟩
      (blank.applyAll moves).members.Perm (blank.takenAll moves) ∧
        ((blank.applyAll moves).isPartitionOf examples = true ↔
          ((blank.takenAll moves).map Handle.tag).Perm (examples.members.map Handle.tag)) := by
  have htags : ∀ l : ClusterList Float, l.isPartitionOf examples = true ↔
      (l.members.map Handle.tag).Perm (examples.members.map Handle.tag) :=
    fun l => isPartitionOf_iff hexamples.nodup_tags
  refine ⟨fun l => ⟨htags l, fun hone => ?_, l.isPartitionBySet_eq examples⟩,
    fun schema moves => ?_⟩
  · rw [htags, Handle.perm_iff_tags hexamples.nodup_tags hone]
  · have hmembers := members_applyAll ⟨schema, []⟩ moves
    refine ⟨hmembers, (htags _).trans ⟨fun h => ?_, fun h => ?_⟩⟩
    · exact (hmembers.map _).symm.trans h
    · exact (hmembers.map _).trans h

open Sample

/-- A red thing in one cluster and a blue one that is pushed to another, and once more to a class
without a cluster. -/
def redAndBlueMoves : List (Move Float) :=
  [.add ⟨0, things.take 1⟩, .add ⟨1, []⟩, .push 1 ⟨1, ⟨⟨Sample.schema, [some 1]⟩, Box.single 1, 1⟩⟩,
    .push 2 ⟨1, ⟨⟨Sample.schema, [some 1]⟩, Box.single 1, 1⟩⟩]

theorem tellsPartition_redAndBlue : list.Built ∧
    ((⟨Sample.schema, []⟩ : ClusterList Float).applyAll redAndBlueMoves).isPartitionOf list = true ∧
    ((⟨Sample.schema, []⟩ : ClusterList Float).applyAll
      (redAndBlueMoves ++ [.add ⟨2, things⟩])).isPartitionOf list = false := by
  have htells := (tellsPartition built_list).2 Sample.schema
  refine ⟨built_list, (htells redAndBlueMoves).2.2 (by decide), Bool.eq_false_iff.2 fun h => ?_⟩
  exact absurd ((htells _).2.1 h) (by decide)

end ClusterList

end QuestionTree
