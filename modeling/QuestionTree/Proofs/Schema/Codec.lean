import QuestionTree.Proofs.Json.Roundtrip
import QuestionTree.Proofs.Schema.Comparison
import QuestionTree.Schema

/-!
# Schemas that are written and read back

A schema keeps the definitions that it was built from, so a built schema is built again from those
that are written.
-/

namespace QuestionTree

open Json Decoder

namespace Definition

theorem spelled_toJson (d : Definition) : d.toJson.Spelled := by
  refine spelled_ofFields ?_
  simp only [List.forall_mem_cons]
  exact ⟨spelled_ofString d.key, spelled_ofList fun s _ => spelled_ofString s,
    List.forall_mem_nil _⟩

theorem decoder_toJson (room : Nat) (d : Definition) : decoder (room + 2) d.toJson = .ok d := by
  have hkey : Decoder.string (room + 1) (Json.ofString d.key) = .ok d.key := string_ofString d.key
  have hvalues : Decoder.list Decoder.string (room + 1) (Json.ofList Json.ofString d.values) =
      .ok d.values := list_ofList fun s _ => string_ofString s
  rw [decoder, toJson, structured_ofFields, readNamed_of_read rfl rfl (read_field hkey),
    readNamed_of_read rfl rfl (read_field hvalues)]
  rfl

end Definition

namespace Schema

theorem definitions_of_propertiesOf {seen : List String} {definitions : List Definition}
    {properties : List Property} (h : propertiesOf seen definitions = .ok properties) :
    (Schema.mk properties).definitions = definitions := by
  induction definitions generalizing seen properties with
  | nil =>
    cases h
    rfl
  | cons d rest ih =>
    obtain ⟨_, _, _, others, hothers, rfl⟩ := propertiesOf_cons_eq_ok_iff.1 h
    exact congrArg (d :: ·) (ih hothers)

theorem Built.ofDefinitions_definitions {s : Schema} (h : s.Built) :
    ofDefinitions s.definitions = .ok s := by
  obtain ⟨definitions, hdefinitions⟩ := h
  obtain ⟨properties, hproperties, rfl⟩ := map_eq_ok_iff.1 hdefinitions
  rw [definitions_of_propertiesOf hproperties]
  exact hdefinitions

theorem spelled_toJson (s : Schema) : s.toJson.Spelled :=
  spelled_ofList fun d _ => d.spelled_toJson

/-- A built schema is read as it was written. -/
theorem Built.decoder_toJson {s : Schema} (h : s.Built) (room : Nat) :
    decoder (room + 3) s.toJson = .ok s := by
  have hlist : Decoder.list Definition.decoder (room + 3) s.toJson = .ok s.definitions :=
    list_ofList fun d _ => d.decoder_toJson room
  exact refine_of_ok hlist h.ofDefinitions_definitions

theorem Built.codes {s : Schema} (h : s.Built) : Codes decoder toJson 3 s := by
  refine ⟨s.spelled_toJson, fun room hroom => ?_⟩
  obtain ⟨below, rfl⟩ := Nat.exists_eq_add_of_le' hroom
  exact h.decoder_toJson below

theorem only_decoder : decoder.Only Built := by
  intro room j s h
  obtain ⟨definitions, _, hbuilt⟩ := refine_eq_ok_iff.1 h
  exact ⟨definitions, hbuilt⟩

end Schema

end QuestionTree
