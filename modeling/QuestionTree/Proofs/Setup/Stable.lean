import QuestionTree.Proofs.Setup.Examples

/-!
# Configuration texts that stay as they are

A text of a schema, of examples, of a plan or of a trainer may leave out fields, list the values of
an object, spell an action in its own way or give a property twice. What is read of it is written in
one way and read back as it is, so that writing and reading it once more changes nothing, and what
is built of it is the same. Only the properties of examples have no order of their own: they may be
written in any.
-/

namespace QuestionTree

namespace Decoder

variable {α β : Type}

/-- Whether the values that are read of texts are the good ones, and what is read of any text is
read back as it was written, and builds the same, in whatever order its parts without an order are
written. -/
structure Stable (read : Decoder α) (write : α → Json) (good : α → Prop) (alike : α → α → Prop)
    (build : α → β) : Prop where
  good_iff : ∀ a, good a ↔ ∃ text, read.load text = .ok a
  /-- To be alike is to be the same but for the order of such parts. -/
  equivalence : Equivalence alike
  restores : ∀ text a, read.load text = .ok a → ∀ b, alike a b → read.load (write b).write = .ok b
  builds : ∀ text a, read.load text = .ok a → ∀ b, alike a b → build b = build a

variable {read : Decoder α} {write : α → Json} {levels : Nat} {good : α → Prop}

theorem good_iff_of_codes (honly : read.Only good)
    (hcodes : ∀ a, good a → Codes read write levels a) (hlevels : levels ≤ maxNesting) (a : α) :
    good a ↔ ∃ text, read.load text = .ok a :=
  ⟨fun ha => ⟨_, (hcodes a ha).load_write hlevels⟩, fun ⟨_, htext⟩ => honly.of_load htext⟩

theorem stable_of_codes (honly : read.Only good)
    (hcodes : ∀ a, good a → Codes read write levels a) (hlevels : levels ≤ maxNesting)
    (build : α → β) : read.Stable write good Eq build where
  good_iff := good_iff_of_codes honly hcodes hlevels
  equivalence := eq_equivalence
  restores := by
    rintro text a h b rfl
    exact (hcodes a (honly.of_load h)).load_write hlevels
  builds := by
    rintro text a _ b rfl
    rfl

end Decoder

open Decoder

namespace ExampleSetup

theorem Alike.refl (e : ExampleSetup) : e.Alike e := ⟨.refl _, rfl, rfl⟩

theorem Alike.symm {e e' : ExampleSetup} (h : e.Alike e') : e'.Alike e :=
  ⟨h.properties.symm, h.matrix_eq.symm, h.mass_eq.symm⟩

theorem Alike.trans {e e' e'' : ExampleSetup} (h : e.Alike e') (h' : e'.Alike e'') : e.Alike e'' :=
  ⟨h.properties.trans h'.properties, h.matrix_eq.trans h'.matrix_eq, h.mass_eq.trans h'.mass_eq⟩

end ExampleSetup

namespace ExampleListSetup

theorem equivalence_alike : Equivalence Alike where
  refl l := ⟨rfl, List.forall₂_same.2 fun e _ => .refl e⟩
  symm h := ⟨h.schema_eq.symm, h.examples.flip.imp fun _ _ he => he.symm⟩
  trans h h' := by
    refine ⟨h.schema_eq.trans h'.schema_eq, ?_⟩
    have hcomp := List.forall₂_iff_get.1 h.examples
    have hcomp' := List.forall₂_iff_get.1 h'.examples
    refine List.forall₂_iff_get.2 ⟨hcomp.1.trans hcomp'.1, fun i hi hi' => ?_⟩
    exact (hcomp.2 i hi (hcomp.1 ▸ hi)).trans (hcomp'.2 i (hcomp.1 ▸ hi) hi')

theorem stable : decoder.Stable toJson Readable Alike build where
  good_iff := good_iff_of_codes only_decoder (fun _ h => h.codes) (by decide)
  equivalence := equivalence_alike
  restores text l h l' halike :=
    (halike.readable (only_decoder.of_load h)).codes.load_write (by decide)
  builds text l h l' halike := halike.build_eq (only_decoder.of_load h)

end ExampleListSetup

/-- What is read of the text of a schema, of examples, of a plan or of a trainer is all that keeps
the rules of its kind, is read back as it was written, and builds the same. -/
theorem setups_stable :
    Schema.decoder.Stable Schema.toJson Schema.Built Eq id ∧
    ExampleListSetup.decoder.Stable ExampleListSetup.toJson ExampleListSetup.Readable
      ExampleListSetup.Alike ExampleListSetup.build ∧
    PlanSetup.decoder.Stable PlanSetup.toJson PlanSetup.Readable Eq PlanSetup.build ∧
    TrainerSetup.decoder.Stable TrainerSetup.toJson TrainerSetup.Readable Eq
      TrainerSetup.build := by
  refine ⟨?_, ExampleListSetup.stable, ?_, ?_⟩
  · exact stable_of_codes Schema.only_decoder (fun _ h => h.codes) (by decide) id
  · exact stable_of_codes PlanSetup.only_decoder (fun _ h => h.codes) (by decide) PlanSetup.build
  · exact stable_of_codes TrainerSetup.only_decoder (fun _ h => h.codes) (by decide)
      TrainerSetup.build

/-! ### Texts in other ways -/

namespace Sample

/-- A schema with a definition listed, and one with a field that no definition has. -/
def schemaText : String :=
  "[[\"color\",[\"red\",\"blue\"]]," ++
  "\x7b\"values\":[\"yes\",\"no\"],\"key\":\"round\",\"note\":1\x7d]"

/-- A thing with a color given twice, and a listed one that leaves out its mass. -/
def examplesText : String :=
  "\x7b\"examples\":[\x7b\"properties\":\x7b\"color\":\"red\",\"round\":\"yes\"," ++
  "\"color\":\"blue\"\x7d,\"n_obs\":25e-1\x7d,[\x7b\x7d,[[1]]]],\"properties\":[]\x7d"

/-- A plan with steps that leave out fields and spell their actions with blanks and capital
letters. -/
def planText : String :=
  "[[],null,[[\"\",\" SPLIT\\t\",2,0,[],[[\"\",null,[],[]]]]," ++
  "\x7b\"action\":\" Merge \",\"randomize\":\x7b\x7d,\"questions\":[]\x7d]]"

/-- A trainer with the name of its scorer as a case and without a seed. -/
def trainerText : String :=
  "\x7b\"scorer\":\x7b\"Variance\":null\x7d,\"plan\":[[],7,[]]\x7d"

end Sample

open Sample

/-- What the texts are read as is read back: of the color given twice the last one, of an action
what is left without the blanks, and the usual number of questions. -/
theorem setups_stable_texts :
    (∃ s, Schema.decoder.load schemaText = .ok s ∧ s.keys = ["color", "round"] ∧
      Schema.decoder.load s.toJson.write = .ok s) ∧
    (∃ l, ExampleListSetup.decoder.load examplesText = .ok l ∧
      l.examples.map ExampleSetup.properties =
        [[("round", "yes"), ("color", "blue")], []] ∧
      ∀ l', l.Alike l' →
        ExampleListSetup.decoder.load l'.toJson.write = .ok l' ∧ l'.build = l.build) ∧
    (∃ p, PlanSetup.decoder.load planText = .ok p ∧
      p.steps.map (fun s => (s.action, s.randomize)) =
        [(.split, some ⟨5⟩), (.reserved "Merge", some ⟨5⟩)] ∧
      PlanSetup.decoder.load p.toJson.write = .ok p) ∧
    ∃ t, TrainerSetup.decoder.load trainerText = .ok t ∧ (t.scorer, t.seed) = (.variance, 0) ∧
      TrainerSetup.decoder.load t.toJson.write = .ok t := by
  obtain ⟨hschema, hexamples, hplan, htrainer⟩ := setups_stable
  have hschemaText : (Schema.decoder.load schemaText).toOption.map Schema.keys =
      some ["color", "round"] := by
    decide +kernel
  have hexamplesText : (ExampleListSetup.decoder.load examplesText).toOption.map
      (fun l => l.examples.map ExampleSetup.properties) =
      some [[("round", "yes"), ("color", "blue")], []] := by
    decide +kernel
  have hplanText : (PlanSetup.decoder.load planText).toOption.map
      (fun p => p.steps.map fun s => (s.action, s.randomize)) =
      some [(.split, some ⟨5⟩), (.reserved "Merge", some ⟨5⟩)] := by
    decide +kernel
  have htrainerText : (TrainerSetup.decoder.load trainerText).toOption.map
      (fun t => (t.scorer, t.seed)) = some (.variance, 0) := by
    decide +kernel
  obtain ⟨s, hs, hkeys⟩ := exists_ok_of_map_toOption hschemaText
  obtain ⟨l, hl, hproperties⟩ := exists_ok_of_map_toOption hexamplesText
  obtain ⟨p, hp, hsteps⟩ := exists_ok_of_map_toOption hplanText
  obtain ⟨t, ht, hscorer⟩ := exists_ok_of_map_toOption htrainerText
  exact ⟨⟨s, hs, hkeys, hschema.restores _ s hs s rfl⟩,
    ⟨l, hl, hproperties, fun l' halike =>
      ⟨hexamples.restores _ l hl l' halike, hexamples.builds _ l hl l' halike⟩⟩,
    ⟨p, hp, hsteps, hplan.restores _ p hp p rfl⟩, ⟨t, ht, hscorer, htrainer.restores _ t ht t rfl⟩⟩

end QuestionTree
