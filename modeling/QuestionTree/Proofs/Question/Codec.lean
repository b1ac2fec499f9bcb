import QuestionTree.Proofs.Json.Codec
import QuestionTree.Question

/-!
# Questions that are written and read back

The places that a question names are words, and its values are one or an ascending set that is not
empty: every question that is made for a schema or read from a text is of this kind, and it is read
as it was written.
-/

namespace QuestionTree

open Json Decoder

namespace Acceptance

theorem spelled_toJson (a : Acceptance) : a.toJson.Spelled := by
  cases a with
  | single value =>
    refine spelled_ofFields ?_
    rw [List.forall_mem_singleton]
    exact spelled_ofNat value
  | set values =>
    refine spelled_ofFields ?_
    rw [List.forall_mem_singleton]
    exact spelled_ofList fun v _ => spelled_ofNat v

theorem wireDecoder_toJson {a : Acceptance} (hvalues : ∀ v ∈ a.values, v < UInt64.size)
    (room : Nat) : wireDecoder (room + 2) a.toJson = .ok a := by
  cases a with
  | single value =>
    have hvalue : Decoder.word (room + 1) (Json.ofNat value) = .ok value :=
      word_ofNat (hvalues value List.mem_cons_self)
    rw [wireDecoder, toJson, variant_ofFields rfl, hvalue]
    rfl
  | set values =>
    have hlist : Decoder.list Decoder.word (room + 1) (Json.ofList Json.ofNat values) =
        .ok values := list_ofList fun v hv => word_ofNat (hvalues v hv)
    rw [wireDecoder, toJson, variant_ofFields rfl, hlist]
    rfl

theorem decoder_toJson {a b : Acceptance} (hvalues : ∀ v ∈ a.values, v < UInt64.size)
    (hnormal : a.normalize = .ok b) (room : Nat) : decoder (room + 2) a.toJson = .ok b :=
  refine_of_ok (wireDecoder_toJson hvalues room) hnormal

end Acceptance

namespace Question

variable {q : Question}

/-- Whether a question is of the kind that is made for schemas and read from texts. -/
structure WellFormed (q : Question) : Prop where
  key_lt : q.key < UInt64.size
  values_lt : ∀ v ∈ q.acceptance.values, v < UInt64.size
  normal : q.acceptance.normalize = .ok q.acceptance

theorem spelled_toJson (q : Question) : q.toJson.Spelled := by
  refine spelled_ofFields ?_
  simp only [List.forall_mem_cons]
  exact ⟨spelled_ofNat q.key, q.acceptance.spelled_toJson, spelled_ofString q.description,
    List.forall_mem_nil _⟩

/-- A question is read with the values put in order that it was written with. -/
theorem decoder_toJson_of_normalize {a : Acceptance} (hkey : q.key < UInt64.size)
    (hvalues : ∀ v ∈ q.acceptance.values, v < UInt64.size)
    (hnormal : q.acceptance.normalize = .ok a)
    (room : Nat) : decoder (room + 3) q.toJson = .ok { q with acceptance := a } := by
  have hword : Decoder.word (room + 2) (Json.ofNat q.key) = .ok q.key := word_ofNat hkey
  have hkind : Acceptance.decoder (room + 2) q.acceptance.toJson = .ok a :=
    Acceptance.decoder_toJson hvalues hnormal room
  have hdescription : Decoder.string (room + 2) (Json.ofString q.description) =
      .ok q.description := string_ofString q.description
  rw [decoder, toJson, structured_ofFields, readNamed_of_read rfl rfl (read_field hword),
    readNamed_of_read rfl rfl (read_field hkind),
    readNamed_of_read rfl rfl (read_withDefault hdescription)]
  rfl

theorem WellFormed.decoder_toJson (h : q.WellFormed) (room : Nat) :
    decoder (room + 3) q.toJson = .ok q :=
  decoder_toJson_of_normalize h.key_lt h.values_lt h.normal room

end Question

end QuestionTree
