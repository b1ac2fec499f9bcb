import QuestionTree.BinaryTree.Basic
import QuestionTree.Proofs.BinaryTree.Height
import QuestionTree.Proofs.BinaryTree.Place
import QuestionTree.Proofs.Json.Codec

/-!
# Trees that are written and read back

A tree is read back exactly if the information of each of its nodes is, and if there is room for all
its levels: a node and its information take up two levels of nesting, and so does every step down.
What cannot be read is refused as malformed, wherever in the tree it stands.
-/

namespace QuestionTree

open Json Decoder

namespace Node

variable {ι : Type} {read : Decoder ι} {write : ι → Json} {good : ι → Prop}

/-- Whether good information is read back and all other is refused. -/
structure Reads (read : Decoder ι) (write : ι → Json) (good : ι → Prop) : Prop where
  spelled : ∀ i, (write i).Spelled
  ok : ∀ room i, good i → read (room + 1) (write i) = .ok i
  refused : ∀ room i, ¬ good i → read (room + 1) (write i) = .error .malformed
  noRoom : ∀ i, read 0 (write i) = .error .malformed

/-- Whether a node is read back where some levels of nesting are left. -/
def Fits (good : ι → Prop) (room : Nat) (n : Node ι) : Prop :=
  2 * n.height + 2 ≤ room ∧ ∀ v ∈ n.preorder, good v.info

theorem fits_leaf_iff {room id : Nat} {info : ι} :
    (leaf id info).Fits good (room + 2) ↔ good info := by
  rw [Fits, height_leaf, preorder_leaf, List.forall_mem_singleton]
  exact ⟨fun h => h.2, fun h => ⟨by omega, h⟩⟩

theorem fits_internal_iff {room id : Nat} {info : ι} {yes no : Node ι} :
    (internal id info yes no).Fits good (room + 2) ↔
      good info ∧ yes.Fits good room ∧ no.Fits good room := by
  rw [Fits, height_internal, preorder_internal, List.forall_mem_cons, List.forall_mem_append, Fits,
    Fits]
  constructor
  · rintro ⟨hroom, hinfo, hyes, hno⟩
    exact ⟨hinfo, ⟨by omega, hyes⟩, by omega, hno⟩
  · rintro ⟨hinfo, ⟨hroom, hyes⟩, hroom', hno⟩
    exact ⟨by omega, hinfo, hyes, hno⟩

theorem spelled_toJson (hread : Reads read write good) (n : Node ι) :
    (n.toJson write).Spelled := by
  induction n with
  | leaf id info =>
    rw [toJson]
    refine spelled_ofFields ?_
    simp only [List.forall_mem_cons]
    refine ⟨spelled_ofNat id, hread.spelled info, ?_, List.forall_mem_nil _⟩
    rw [Spelled]
    trivial
  | internal id info yes no ihYes ihNo =>
    rw [toJson]
    refine spelled_ofFields ?_
    simp only [List.forall_mem_cons]
    refine ⟨spelled_ofNat id, hread.spelled info, spelled_list ?_, List.forall_mem_nil _⟩
    simp only [List.forall_mem_cons]
    exact ⟨ihYes, ihNo, List.forall_mem_nil _⟩

/-- The node that is made of what its fields are read as. -/
def ofChildren (id : Nat) (info : ι) : Option (Node ι × Node ι) → Node ι
  | some (yes, no) => internal id info yes no
  | none => leaf id info

theorem decoder_ofFields {id : Nat} (hid : id < UInt64.size) (room : Nat) (info children : Json) :
    decoder read (room + 2)
        (Json.ofFields [("id", Json.ofNat id), ("info", info), ("children", children)]) = do
      let i ← read (room + 1) info
      let c ← childrenDecoder (decoder read room) (room + 1) children
      return ofChildren id i c := by
  have hread : Decoder.word (room + 1) (Json.ofNat id) = .ok id := word_ofNat hid
  rw [decoder, ofFields_ofFields, readNamed_of_read rfl rfl (read_field hread)]
  cases hinfo : read (room + 1) info with
  | error e =>
    rw [readNamed_of_error rfl rfl (read_field_error hinfo)]
    rfl
  | ok i =>
    rw [readNamed_of_read rfl rfl (read_field hinfo)]
    cases hchildren : childrenDecoder (decoder read room) (room + 1) children with
    | error e =>
      rw [readNamed_of_error rfl rfl (read_field_error hchildren)]
      rfl
    | ok c =>
      rw [readNamed_of_read rfl rfl (read_field hchildren)]
      cases c <;> rfl

theorem decoder_noRoom (hread : Reads read write good) {room id : Nat} (hroom : room < 2)
    (hid : id < UInt64.size) (info : ι) (children : Json) :
    decoder read room
        (Json.ofFields [("id", Json.ofNat id), ("info", write info), ("children", children)]) =
      .error .malformed := by
  match room, hroom with
  | 0, _ => rfl
  | 1, _ =>
    have hword : Decoder.word 0 (Json.ofNat id) = .ok id := word_ofNat hid
    rw [decoder, ofFields_ofFields, readNamed_of_read rfl rfl (read_field hword),
      readNamed_of_error rfl rfl (read_field_error (hread.noRoom info))]
    rfl

theorem room_of_fits {room : Nat} {n : Node ι} (h : n.Fits good room) : ¬ room < 2 := by
  obtain ⟨hroom, _⟩ := h
  omega

/-- A node is read back if it fits, and refused otherwise. -/
theorem decoder_toJson (hread : Reads read write good) {n : Node ι}
    (hids : ∀ v ∈ n.preorder, v.id < UInt64.size) (room : Nat) :
    (n.Fits good room → decoder read room (n.toJson write) = .ok n) ∧
      (¬ n.Fits good room → decoder read room (n.toJson write) = .error .malformed) := by
  induction n generalizing room with
  | leaf id info =>
    rw [preorder_leaf, List.forall_mem_singleton] at hids
    have hid : id < UInt64.size := hids
    rw [toJson]
    by_cases hroom : room < 2
    · exact ⟨fun h => absurd hroom (room_of_fits h), fun _ => decoder_noRoom hread hroom hid info _⟩
    · obtain ⟨room, rfl⟩ := Nat.exists_eq_add_of_le' (Nat.le_of_not_lt hroom)
      rw [fits_leaf_iff, decoder_ofFields hid]
      refine ⟨fun hgood => ?_, fun hgood => ?_⟩
      · rw [hread.ok room info hgood]
        rfl
      · rw [hread.refused room info hgood]
        rfl
  | internal id info yes no ihYes ihNo =>
    rw [preorder_internal, List.forall_mem_cons, List.forall_mem_append] at hids
    obtain ⟨hroot, hyes, hno⟩ := hids
    have hid : id < UInt64.size := hroot
    rw [toJson]
    by_cases hroom : room < 2
    · exact ⟨fun h => absurd hroom (room_of_fits h), fun _ => decoder_noRoom hread hroom hid info _⟩
    · obtain ⟨room, rfl⟩ := Nat.exists_eq_add_of_le' (Nat.le_of_not_lt hroom)
      rw [fits_internal_iff, decoder_ofFields hid]
      -- a child is read with two levels less: that of the node and that of the list of children
      have hchildren : childrenDecoder (decoder read room) (room + 1)
          (Json.list [yes.toJson write, no.toJson write]) = do
            let yes ← decoder read room (yes.toJson write)
            let no ← decoder read room (no.toJson write)
            return some (yes, no) := rfl
      rw [hchildren]
      by_cases hgood : good info
      · rw [hread.ok room info hgood]
        by_cases hfitsYes : yes.Fits good room
        · rw [(ihYes hyes room).1 hfitsYes]
          by_cases hfitsNo : no.Fits good room
          · rw [(ihNo hno room).1 hfitsNo]
            exact ⟨fun _ => rfl, fun h => absurd ⟨hgood, hfitsYes, hfitsNo⟩ h⟩
          · rw [(ihNo hno room).2 hfitsNo]
            exact ⟨fun h => absurd h.2.2 hfitsNo, fun _ => rfl⟩
        · rw [(ihYes hyes room).2 hfitsYes]
          exact ⟨fun h => absurd h.2.1 hfitsYes, fun _ => rfl⟩
      · rw [hread.refused room info hgood]
        exact ⟨fun h => absurd h.1 hgood, fun _ => rfl⟩

end Node

namespace BinaryTree

variable {ι : Type} {read : Decoder ι} {write : ι → Json} {good : ι → Prop}

theorem spelled_toJson (hread : Node.Reads read write good) (t : BinaryTree ι) :
    (t.toJson write).Spelled := by
  refine spelled_ofFields ?_
  rw [List.forall_mem_singleton]
  cases t.root? with
  | none =>
    change Json.null.Spelled
    rw [Spelled]
    trivial
  | some root => exact Node.spelled_toJson hread root

theorem decoder_empty (room : Nat) :
    decoder read (room + 1) ((⟨none⟩ : BinaryTree ι).toJson write) = .ok ⟨none⟩ := by
  have hnone : (Node.decoder read).option room (Json.ofOption (Node.toJson write) none) =
      .ok none := rfl
  rw [decoder, toJson, structured_ofFields, readNamed_of_read rfl rfl (read_field hnone)]
  rfl

/-- A tree is read back if its root fits, and refused otherwise. -/
theorem decoder_toJson (hread : Node.Reads read write good) {root : Node ι}
    (hids : ∀ v ∈ root.preorder, v.id < UInt64.size) (room : Nat) :
    (root.Fits good room →
      decoder read (room + 1) ((⟨some root⟩ : BinaryTree ι).toJson write) = .ok ⟨some root⟩) ∧
    (¬ root.Fits good room →
      decoder read (room + 1) ((⟨some root⟩ : BinaryTree ι).toJson write) = .error .malformed) := by
  obtain ⟨hok, herror⟩ := Node.decoder_toJson hread hids room
  have hoption : (Node.decoder read).option room (Json.ofOption (Node.toJson write) (some root)) =
      some <$> Node.decoder read room (root.toJson write) := by
    cases root <;> rfl
  refine ⟨fun h => ?_, fun h => ?_⟩
  · have hroot : (Node.decoder read).option room (Json.ofOption (Node.toJson write) (some root)) =
        .ok (some root) := by
      rw [hoption, hok h]
      rfl
    rw [decoder, toJson, structured_ofFields, readNamed_of_read rfl rfl (read_field hroot)]
    rfl
  · have hroot : (Node.decoder read).option room (Json.ofOption (Node.toJson write) (some root)) =
        .error .malformed := by
      rw [hoption, herror h]
      rfl
    rw [decoder, toJson, structured_ofFields, readNamed_of_error rfl rfl (read_field_error hroot)]
    rfl

end BinaryTree

end QuestionTree
