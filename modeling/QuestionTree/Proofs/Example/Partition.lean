import Mathlib
import QuestionTree.Example
import QuestionTree.Proofs.Schema.Comparison

/-!
# Partitions of examples

Clusters partition a list of examples if their handles are those of the list, each as often as
there. The test enters the tags of the clusters into a set and gives up at a repeated one; then it
compares the number of tags with the size of the list and looks the tags of the list up. As the list
holds no handle twice, equally many tags without repetitions that include all tags of the list are
these tags in some order.
-/

namespace QuestionTree

/-- Enters tags into a set, unless one of them is in it already. -/
def enterAll? (entered : Finset Nat) : List Nat → Option (Finset Nat)
  | [] => some entered
  | tag :: tags => if tag ∈ entered then none else enterAll? (insert tag entered) tags

theorem enterAll?_eq_some_iff {entered entered' : Finset Nat} {tags : List Nat} :
    enterAll? entered tags = some entered' ↔
      tags.Nodup ∧ (∀ tag ∈ tags, tag ∉ entered) ∧ entered' = entered ∪ tags.toFinset := by
  induction tags generalizing entered with
  | nil => simp [enterAll?, eq_comm]
  | cons tag tags ih =>
    rw [enterAll?]
    split
    · rename_i hentered
      refine iff_of_false nofun fun h => ?_
      exact h.2.1 tag (List.mem_cons_self ..) hentered
    · rename_i hnew
      rw [ih, List.nodup_cons, List.forall_mem_cons, List.toFinset_cons, Finset.insert_union,
        Finset.union_insert]
      constructor
      · rintro ⟨hnodup, hrest, rfl⟩
        have htag : tag ∉ tags := fun hmem => hrest tag hmem (Finset.mem_insert_self ..)
        exact ⟨⟨htag, hnodup⟩,
          ⟨hnew, fun t ht hentered => hrest t ht (Finset.mem_insert_of_mem hentered)⟩, rfl⟩
      · rintro ⟨⟨htag, hnodup⟩, ⟨_, hrest⟩, rfl⟩
        refine ⟨hnodup, fun t ht hentered => ?_, rfl⟩
        rcases Finset.mem_insert.1 hentered with rfl | hentered
        · exact htag ht
        · exact hrest t ht hentered

namespace ClusterList

variable {ν : Type} {l : ClusterList ν} {examples : ExampleList ν}

/-- The test for a partition by a set of tags. -/
def isPartitionBySet (l : ClusterList ν) (examples : ExampleList ν) : Bool :=
  match enterAll? ∅ (l.members.map Handle.tag) with
  | none => false
  | some entered =>
    entered.card == examples.size && examples.members.all fun e => decide (e.tag ∈ entered)

theorem isPartitionOf_iff_tags : l.isPartitionOf examples = true ↔
    (l.members.map Handle.tag).Nodup ∧ (l.members.map Handle.tag).length = examples.size ∧
      ∀ e ∈ examples.members, e.tag ∈ l.members.map Handle.tag := by
  rw [isPartitionOf, Bool.and_eq_true, Bool.and_eq_true, Option.isNone_iff_eq_none,
    firstRepeated?_eq_none_iff, beq_iff_eq, List.all_eq_true, and_assoc]
  simp only [List.contains_iff_mem, List.not_mem_nil, not_false_iff, implies_true, and_true]

/-- A set in which the tags are entered says the same as the list of the tags. -/
theorem isPartitionBySet_eq (l : ClusterList ν) (examples : ExampleList ν) :
    l.isPartitionBySet examples = l.isPartitionOf examples := by
  rw [Bool.eq_iff_iff, isPartitionOf_iff_tags, isPartitionBySet]
  cases hentered : enterAll? ∅ (l.members.map Handle.tag) with
  | none =>
    refine iff_of_false Bool.false_ne_true fun h => ?_
    rw [enterAll?_eq_some_iff.2 ⟨h.1, fun _ _ => Finset.notMem_empty _, rfl⟩] at hentered
    cases hentered
  | some entered =>
    obtain ⟨hnodup, _, rfl⟩ := enterAll?_eq_some_iff.1 hentered
    rw [Bool.and_eq_true, beq_iff_eq, List.all_eq_true, Finset.empty_union,
      List.toFinset_card_of_nodup hnodup]
    simp only [decide_eq_true_eq, List.mem_toFinset, hnodup, true_and]

/-- Clusters partition a list if their tags are those of the list in some order. -/
theorem isPartitionOf_iff (hnodup : (examples.members.map Handle.tag).Nodup) :
    l.isPartitionOf examples = true ↔
      (l.members.map Handle.tag).Perm (examples.members.map Handle.tag) := by
  rw [isPartitionOf_iff_tags]
  constructor
  · rintro ⟨_, hlength, hmem⟩
    have hsubset : examples.members.map Handle.tag ⊆ l.members.map Handle.tag := by
      intro tag htag
      obtain ⟨e, he, rfl⟩ := List.mem_map.1 htag
      exact hmem e he
    -- there is no room for tags beside those of the list
    refine ((hnodup.subperm hsubset).perm_of_length_le ?_).symm
    rw [hlength, List.length_map]
    exact Nat.le_refl _
  · intro hperm
    refine ⟨hperm.nodup_iff.2 hnodup, ?_, fun e he => ?_⟩
    · rw [hperm.length_eq, List.length_map]
      rfl
    · exact hperm.mem_iff.2 (List.mem_map_of_mem he)

end ClusterList

theorem Handle.perm_iff_tags {α : Type} {as bs : List (Handle α)} (hbs : (bs.map Handle.tag).Nodup)
    (hone : ∀ a ∈ as, ∀ b ∈ bs, a.tag = b.tag → a = b) :
    as.Perm bs ↔ (as.map Handle.tag).Perm (bs.map Handle.tag) := by
  refine ⟨fun h => h.map _, fun h => ?_⟩
  have has : (as.map Handle.tag).Nodup := h.nodup_iff.2 hbs
  rw [List.perm_ext_iff_of_nodup has.of_map hbs.of_map]
  intro e
  constructor
  · intro he
    obtain ⟨b, hb, htag⟩ := List.mem_map.1 (h.mem_iff.1 (List.mem_map_of_mem he))
    exact hone e he b hb htag.symm ▸ hb
  · intro he
    obtain ⟨a, ha, htag⟩ := List.mem_map.1 (h.mem_iff.2 (List.mem_map_of_mem he))
    exact hone a ha e he htag ▸ ha

end QuestionTree
