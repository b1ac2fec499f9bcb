import QuestionTree.Proofs.Setup.Plan
import QuestionTree.Setup.Examples

/-!
# Described examples as texts

The properties of an example stand in a dictionary without an order, so they may be written in any.
`Alike` descriptions differ in the order of properties alone. Whichever of them is written, it is
read as it was written, and the same examples are built of it, since the keys are put in order
first and no key stands there twice.
-/

namespace QuestionTree

open Decoder

namespace ExampleSetup

/-- Whether an example is such as is read. -/
structure Readable (e : ExampleSetup) : Prop where
  nodup_keys : (e.properties.map Prod.fst).Nodup
  matrix_finite : ∀ row ∈ e.matrix, ∀ x ∈ row, x.isFinite = true
  mass_finite : e.mass.isFinite = true

/-- Whether what was read of an example so far is such as is read. -/
structure Draft.Readable (d : Draft) : Prop where
  nodup_keys : ∀ properties ∈ d.properties, (properties.map Prod.fst).Nodup
  matrix_finite : ∀ matrix ∈ d.matrix, ∀ row ∈ matrix, ∀ x ∈ row, Float.isFinite x = true
  mass_finite : ∀ x ∈ d.mass, x.isFinite = true

theorem fields_keep (room : Nat) {f : Decoder.Field Draft} (hf : f ∈ fields room) {d d' : Draft}
    {j : Json} (hd : d.Readable) (h : f.read d j = .ok d') : d'.Readable := by
  rcases List.mem_cons.1 hf with rfl | hf
  · obtain ⟨properties, hproperties, rfl⟩ := exists_of_field h
    have hnodup := only_dictionary room j properties hproperties
    exact ⟨fun ps hps => Option.mem_some.1 hps ▸ hnodup, hd.matrix_finite, hd.mass_finite⟩
  rcases List.mem_cons.1 hf with rfl | hf
  · obtain ⟨matrix, hmatrix, rfl⟩ := exists_of_withDefault h
    have hfinite := only_list (only_list only_float) room j matrix hmatrix
    exact ⟨hd.nodup_keys, fun rows hrows => Option.mem_some.1 hrows ▸ hfinite, hd.mass_finite⟩
  · rw [List.mem_singleton.1 hf] at h
    obtain ⟨mass, hmass, rfl⟩ := exists_of_withDefault h
    have hfinite := only_float room j mass hmass
    exact ⟨hd.nodup_keys, hd.matrix_finite, fun x hx => Option.mem_some.1 hx ▸ hfinite⟩

theorem only_decoder : decoder.Only Readable := by
  intro room j e h
  have hstart : ({} : Draft).Readable := ⟨nofun, nofun, nofun⟩
  obtain ⟨d, hd, h⟩ := exists_draft_of_structured (fun room f hf _ _ _ => fields_keep room hf)
    hstart h
  obtain ⟨properties, hproperties, h⟩ := bind_eq_ok_iff.1 h
  cases h
  exact ⟨hd.nodup_keys properties (required_eq_ok_iff.1 hproperties),
    of_getD (P := fun rows : List (List Float) => ∀ row ∈ rows, ∀ x ∈ row, x.isFinite = true)
      hd.matrix_finite (List.forall_mem_nil _),
    of_getD (P := fun x => Float.isFinite x = true) hd.mass_finite (by decide +kernel)⟩

theorem Readable.codes {e : ExampleSetup} (h : e.Readable) : Codes decoder toJson 3 e := by
  have hproperties : Codes (dictionary string) (ofEntries Json.ofString) 1 e.properties :=
    codes_dictionary (fun entry _ => codes_string entry.2) h.nodup_keys
  have hmatrix : Codes (list (list float)) (Json.ofList (Json.ofList Json.ofFloat)) 2 e.matrix :=
    codes_list fun row hrow => codes_list fun x hx => codes_float (h.matrix_finite row hrow x hx)
  have hmass := codes_float h.mass_finite
  have hwrite : e.toJson = Json.ofFields [("properties", ofEntries Json.ofString e.properties),
      ("matrix", Json.ofList (Json.ofList Json.ofFloat) e.matrix),
      ("n_obs", Json.ofFloat e.mass)] := rfl
  refine codes_structured hwrite ?_ fun room hroom => ?_
  · simp only [List.forall_mem_cons]
    exact ⟨hproperties.spelled, hmatrix.spelled, hmass.spelled, List.forall_mem_nil _⟩
  · rw [readNamed_of_read rfl rfl (read_field (hproperties.reads room (by omega))),
      readNamed_of_read rfl rfl (read_withDefault (hmatrix.reads room hroom)),
      readNamed_of_read rfl rfl (read_withDefault (hmass.reads room (Nat.zero_le _)))]
    rfl

/-! ### The order of the properties -/

/-- Whether two examples differ in the order of their properties alone. -/
structure Alike (e e' : ExampleSetup) : Prop where
  properties : e.properties.Perm e'.properties
  matrix_eq : e.matrix = e'.matrix
  mass_eq : e.mass = e'.mass

theorem Alike.readable {e e' : ExampleSetup} (h : e.Alike e') (he : e.Readable) :
    e'.Readable := by
  refine ⟨?_, h.matrix_eq ▸ he.matrix_finite, h.mass_eq ▸ he.mass_finite⟩
  exact ((h.properties.map Prod.fst).nodup_iff).1 he.nodup_keys

theorem pairwise_inOrder (properties : List (String × String)) :
    (inOrder properties).Pairwise fun a b => a.1 ≤ b.1 := by
  have htrans : ∀ a b c : String × String, decide (a.1 ≤ b.1) = true →
      decide (b.1 ≤ c.1) = true → decide (a.1 ≤ c.1) = true := by
    intro a b c hab hbc
    exact decide_eq_true (String.le_trans (of_decide_eq_true hab) (of_decide_eq_true hbc))
  have htotal : ∀ a b : String × String, (decide (a.1 ≤ b.1) || decide (b.1 ≤ a.1)) = true := by
    intro a b
    rw [Bool.or_eq_true, decide_eq_true_iff, decide_eq_true_iff]
    exact String.le_total a.1 b.1
  exact (List.pairwise_mergeSort htrans htotal properties).imp of_decide_eq_true

theorem inOrder_perm {properties properties' : List (String × String)}
    (h : properties.Perm properties') (hnodup : (properties.map Prod.fst).Nodup) :
    inOrder properties = inOrder properties' := by
  have hperm := List.mergeSort_perm properties fun a b => decide (a.1 ≤ b.1)
  have hperm' := List.mergeSort_perm properties' fun a b => decide (a.1 ≤ b.1)
  refine List.Perm.eq_of_pairwise (fun a b ha hb hab hba => ?_) (pairwise_inOrder _)
    (pairwise_inOrder _) (hperm.trans (h.trans hperm'.symm))
  have hb' : b ∈ properties := h.mem_iff.2 (hperm'.mem_iff.1 hb)
  exact List.inj_on_of_nodup_map hnodup (hperm.mem_iff.1 ha) hb' (String.le_antisymm hab hba)

theorem Alike.build_eq {e e' : ExampleSetup} (h : e.Alike e') (he : e.Readable) (memory : Memory)
    (schema : Schema) : e'.build memory schema = e.build memory schema := by
  rw [build, build, inOrder_perm h.properties he.nodup_keys, h.matrix_eq, h.mass_eq]

end ExampleSetup

namespace ExampleListSetup

/-- Whether a list is such as is read. -/
structure Readable (l : ExampleListSetup) : Prop where
  schema_built : l.schema.Built
  examples : ∀ e ∈ l.examples, e.Readable

/-- Whether what was read of a list so far is such as is read. -/
structure Draft.Readable (d : Draft) : Prop where
  schema_built : ∀ s ∈ d.properties, s.Built
  examples : ∀ examples ∈ d.examples, ∀ e ∈ examples, ExampleSetup.Readable e

theorem fields_keep (room : Nat) {f : Decoder.Field Draft} (hf : f ∈ fields room) {d d' : Draft}
    {j : Json} (hd : d.Readable) (h : f.read d j = .ok d') : d'.Readable := by
  rcases List.mem_cons.1 hf with rfl | hf
  · obtain ⟨schema, hschema, rfl⟩ := exists_of_field h
    have hbuilt := Schema.only_decoder room j schema hschema
    exact ⟨fun s hs => Option.mem_some.1 hs ▸ hbuilt, hd.examples⟩
  · rw [List.mem_singleton.1 hf] at h
    obtain ⟨examples, hexamples, rfl⟩ := exists_of_field h
    have hall := only_list ExampleSetup.only_decoder room j examples hexamples
    exact ⟨hd.schema_built, fun es hes => Option.mem_some.1 hes ▸ hall⟩

theorem only_decoder : decoder.Only Readable := by
  intro room j l h
  have hstart : ({} : Draft).Readable := ⟨nofun, nofun⟩
  obtain ⟨d, hd, h⟩ := exists_draft_of_structured (fun room f hf _ _ _ => fields_keep room hf)
    hstart h
  obtain ⟨schema, hschema, h⟩ := bind_eq_ok_iff.1 h
  obtain ⟨examples, hexamples, h⟩ := bind_eq_ok_iff.1 h
  cases h
  exact ⟨hd.schema_built schema (required_eq_ok_iff.1 hschema),
    hd.examples examples (required_eq_ok_iff.1 hexamples)⟩

theorem Readable.codes {l : ExampleListSetup} (h : l.Readable) : Codes decoder toJson 5 l := by
  have hschema := h.schema_built.codes
  have hexamples : Codes (list ExampleSetup.decoder) (Json.ofList ExampleSetup.toJson) 4
      l.examples := codes_list fun e he => (h.examples e he).codes
  refine codes_structured rfl ?_ fun room hroom => ?_
  · simp only [List.forall_mem_cons]
    exact ⟨hschema.spelled, hexamples.spelled, List.forall_mem_nil _⟩
  · rw [readNamed_of_read rfl rfl (read_field (hschema.reads room (by omega))),
      readNamed_of_read rfl rfl (read_field (hexamples.reads room hroom))]
    rfl

/-- Whether two lists differ in the order of the properties of their examples alone. -/
structure Alike (l l' : ExampleListSetup) : Prop where
  schema_eq : l.schema = l'.schema
  examples : List.Forall₂ ExampleSetup.Alike l.examples l'.examples

variable {l l' : ExampleListSetup}

theorem Alike.readable (h : l.Alike l') (hl : l.Readable) : l'.Readable := by
  refine ⟨h.schema_eq ▸ hl.schema_built, fun e' he' => ?_⟩
  obtain ⟨i, hi, rfl⟩ := List.mem_iff_getElem.1 he'
  have hi' : i < l.examples.length := h.examples.length_eq ▸ hi
  exact (h.examples.get hi' hi).readable (hl.examples _ (List.getElem_mem hi'))

theorem addAll_eq {memory : Memory} {schema : Schema} {examples examples' : List ExampleSetup}
    (h : List.Forall₂ ExampleSetup.Alike examples examples')
    (hreadable : ∀ e ∈ examples, e.Readable) (list : ExampleList Float) :
    addAll memory schema examples' list = addAll memory schema examples list := by
  induction h generalizing list with
  | nil => rfl
  | cons he _ ih =>
    obtain ⟨hfirst, hrest⟩ := List.forall_mem_cons.1 hreadable
    rw [addAll, addAll, he.build_eq hfirst]
    simp only [ih hrest]

/-- The examples that are built do not depend on the order of the properties. -/
theorem Alike.build_eq (h : l.Alike l') (hl : l.Readable) : l'.build = l.build := by
  funext memory schema
  rw [build, build, h.schema_eq]
  simp only [addAll_eq h.examples hl.examples]

end ExampleListSetup

end QuestionTree
