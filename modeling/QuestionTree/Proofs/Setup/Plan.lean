import QuestionTree.Proofs.Json.Roundtrip
import QuestionTree.Proofs.Plan.Action
import QuestionTree.Proofs.Schema.Codec
import QuestionTree.Setup.Training

/-!
# Described plans and trainers as texts

Whatever the text is that a description is read from, what is read is `Readable`: its schema was
built, its numbers are finite or words, and the tag of an action is one that is left as it is. Each
of these is what the reader sees to, or a default. A readable description is coded: it is read as it
was written, so all that is left out, put into a list or spelled another way makes a difference the
first time only.
-/

namespace QuestionTree

open Decoder

/-- A value in place of a missing one has what the values and the default have. -/
theorem of_getD {α : Type} {P : α → Prop} {value? : Option α} {default : α}
    (h : ∀ a ∈ value?, P a) (hdefault : P default) : P (value?.getD default) := by
  cases value? with
  | none => exact hdefault
  | some a => exact h a rfl

theorem of_join {α : Type} {P : α → Prop} {value? : Option (Option α)}
    (h : ∀ inner ∈ value?, ∀ a ∈ inner, P a) : ∀ a ∈ value?.join, P a :=
  fun a ha => h (some a) (Option.join_eq_some_iff.1 ha) a rfl

namespace StepAction

/-- Whether an action is left as it is when it is read from its text. -/
def Readable (a : StepAction) : Prop := ofText a.text = .ok a

theorem readable_split : Readable split := by
  rw [Readable]
  decide +kernel

theorem only_decoder : decoder.Only Readable := by
  intro room j a h
  obtain ⟨s, _, hs⟩ := refine_eq_ok_iff.1 h
  exact ofText_text hs

theorem Readable.codes {a : StepAction} (h : a.Readable) : Codes decoder toJson 0 a :=
  codes_refine (codes_string a.text) h

end StepAction

namespace ScorerKind

theorem codes (kind : ScorerKind) : Codes decoder toJson 0 kind := by
  have hcase : (all.map fun kind => (kind.name, Content.nothing kind)).lookup kind.name =
      some (.nothing kind) := by
    cases kind with
    | id3 => rfl
    | variance => rfl
  exact codes_variant hcase

end ScorerKind

namespace QuestionTemplate

theorem codes (t : QuestionTemplate) : Codes decoder toJson 2 t := by
  have hdescription := codes_string t.description
  have hkey : Codes (option string) (Json.ofOption Json.ofString) 0 t.key :=
    codes_option (fun s _ => codes_string s) nofun
  have htexts : ∀ texts : List String, Codes (list string) (Json.ofList Json.ofString) 1 texts :=
    fun texts => codes_list fun s _ => codes_string s
  have hchoice : ∀ choice : Option (List String),
      Codes (option (list string)) (Json.ofOption (Json.ofList Json.ofString)) 1 choice :=
    fun choice => codes_option (fun texts _ => htexts texts) nofun
  refine codes_structured rfl ?_ fun room hroom => ?_
  · simp only [List.forall_mem_cons]
    exact ⟨hdescription.spelled, hkey.spelled, (htexts t.values).spelled,
      (hchoice t.forEachKey).spelled, (hchoice t.forEachValue).spelled, List.forall_mem_nil _⟩
  · rw [readNamed_of_read rfl rfl (read_withDefault (hdescription.reads room (Nat.zero_le _))),
      readNamed_of_read rfl rfl (read_withDefault (hkey.reads room (Nat.zero_le _))),
      readNamed_of_read rfl rfl (read_withDefault ((htexts t.values).reads room hroom)),
      readNamed_of_read rfl rfl (read_withDefault ((hchoice t.forEachKey).reads room hroom)),
      readNamed_of_read rfl rfl (read_withDefault ((hchoice t.forEachValue).reads room hroom))]
    rfl

end QuestionTemplate

namespace DrawSetup

/-- Whether the number of questions is a word. -/
def Readable (d : DrawSetup) : Prop := d.questionCount < UInt64.size

theorem only_decoder : decoder.Only Readable := by
  intro room j s h
  have hfields : ∀ room, ∀ f ∈ fields room, ∀ d j d',
      (∀ n ∈ Draft.questionCount d, n < UInt64.size) → f.read d j = .ok d' →
      ∀ n ∈ d'.questionCount, n < UInt64.size := by
    intro room f hf d j d' _ h
    rw [List.mem_singleton.1 hf] at h
    obtain ⟨count, hcount, rfl⟩ := exists_of_withDefault h
    have hlt := only_natBelow _ room j count hcount
    exact fun n hn => Option.mem_some.1 hn ▸ hlt
  obtain ⟨d, hd, h⟩ := exists_draft_of_structured hfields (fun _ hn => by cases hn) h
  cases h
  exact of_getD (P := (· < UInt64.size)) hd (by decide)

theorem Readable.codes {d : DrawSetup} (h : d.Readable) : Codes decoder toJson 1 d := by
  have hcount := codes_word h
  refine codes_structured rfl (List.forall_mem_singleton.2 hcount.spelled) fun room _ => ?_
  rw [readNamed_of_read rfl rfl (read_withDefault (hcount.reads room (Nat.zero_le _)))]
  rfl

end DrawSetup

namespace StepSetup

/-- Whether a step is such as is read. -/
structure Readable (s : StepSetup) : Prop where
  action : s.action.Readable
  minObs_finite : s.minObs.isFinite = true
  minGain_finite : s.minGain.isFinite = true
  randomize : ∀ draw ∈ s.randomize, draw.Readable

/-- Whether what was read of a step so far is such as is read. -/
structure Draft.Readable (d : Draft) : Prop where
  action : ∀ a ∈ d.action, a.Readable
  minObs_finite : ∀ x ∈ d.minObs, x.isFinite = true
  minGain_finite : ∀ x ∈ d.minGain, x.isFinite = true
  randomize : ∀ draw? ∈ d.randomize, ∀ draw ∈ draw?, DrawSetup.Readable draw

theorem fields_keep (room : Nat) {f : Decoder.Field Draft} (hf : f ∈ fields room) {d d' : Draft}
    {j : Json} (hd : d.Readable) (h : f.read d j = .ok d') : d'.Readable := by
  rcases List.mem_cons.1 hf with rfl | hf
  · obtain ⟨name, _, rfl⟩ := exists_of_withDefault h
    exact ⟨hd.action, hd.minObs_finite, hd.minGain_finite, hd.randomize⟩
  rcases List.mem_cons.1 hf with rfl | hf
  · obtain ⟨action, haction, rfl⟩ := exists_of_withDefault h
    have hreadable := StepAction.only_decoder room j action haction
    exact ⟨fun a ha => Option.mem_some.1 ha ▸ hreadable, hd.minObs_finite, hd.minGain_finite,
      hd.randomize⟩
  rcases List.mem_cons.1 hf with rfl | hf
  · obtain ⟨minObs, hminObs, rfl⟩ := exists_of_withDefault h
    have hfinite := only_float room j minObs hminObs
    exact ⟨hd.action, fun x hx => Option.mem_some.1 hx ▸ hfinite, hd.minGain_finite, hd.randomize⟩
  rcases List.mem_cons.1 hf with rfl | hf
  · obtain ⟨minGain, hminGain, rfl⟩ := exists_of_withDefault h
    have hfinite := only_float room j minGain hminGain
    exact ⟨hd.action, hd.minObs_finite, fun x hx => Option.mem_some.1 hx ▸ hfinite, hd.randomize⟩
  rcases List.mem_cons.1 hf with rfl | hf
  · obtain ⟨randomize, hrandomize, rfl⟩ := exists_of_withDefault h
    have hreadable := only_option DrawSetup.only_decoder room j randomize hrandomize
    exact ⟨hd.action, hd.minObs_finite, hd.minGain_finite,
      fun draw? hdraw => Option.mem_some.1 hdraw ▸ hreadable⟩
  · rw [List.mem_singleton.1 hf] at h
    obtain ⟨questions, _, rfl⟩ := exists_of_field h
    exact ⟨hd.action, hd.minObs_finite, hd.minGain_finite, hd.randomize⟩

theorem only_decoder : decoder.Only Readable := by
  intro room j s h
  have hstart : ({} : Draft).Readable := ⟨nofun, nofun, nofun, nofun⟩
  obtain ⟨d, hd, h⟩ := exists_draft_of_structured (fun room f hf _ _ _ => fields_keep room hf)
    hstart h
  obtain ⟨questions, _, h⟩ := bind_eq_ok_iff.1 h
  cases h
  exact ⟨of_getD hd.action StepAction.readable_split,
    of_getD (P := fun x => Float.isFinite x = true) hd.minObs_finite (by decide +kernel),
    of_getD (P := fun x => Float.isFinite x = true) hd.minGain_finite (by decide +kernel),
    of_join hd.randomize⟩

theorem Readable.codes {s : StepSetup} (h : s.Readable) : Codes decoder toJson 4 s := by
  have hname := codes_string s.name
  have haction := h.action.codes
  have hminObs := codes_float h.minObs_finite
  have hminGain := codes_float h.minGain_finite
  have hrandomize : Codes (option DrawSetup.decoder) (Json.ofOption DrawSetup.toJson) 1
      s.randomize := codes_option (fun draw hdraw => (h.randomize draw hdraw).codes) nofun
  have hquestions : Codes (list QuestionTemplate.decoder) (Json.ofList QuestionTemplate.toJson) 3
      s.questions := codes_list fun t _ => t.codes
  refine codes_structured rfl ?_ fun room hroom => ?_
  · simp only [List.forall_mem_cons]
    exact ⟨hname.spelled, haction.spelled, hminObs.spelled, hminGain.spelled, hrandomize.spelled,
      hquestions.spelled, List.forall_mem_nil _⟩
  · rw [readNamed_of_read rfl rfl (read_withDefault (hname.reads room (Nat.zero_le _))),
      readNamed_of_read rfl rfl (read_withDefault (haction.reads room (Nat.zero_le _))),
      readNamed_of_read rfl rfl (read_withDefault (hminObs.reads room (Nat.zero_le _))),
      readNamed_of_read rfl rfl (read_withDefault (hminGain.reads room (Nat.zero_le _))),
      readNamed_of_read rfl rfl (read_withDefault (hrandomize.reads room (by omega))),
      readNamed_of_read rfl rfl (read_field (hquestions.reads room hroom))]
    rfl

end StepSetup

namespace PlanSetup

/-- Whether a plan is such as is read. -/
structure Readable (p : PlanSetup) : Prop where
  schema_built : p.schema.Built
  maxLeaves_lt : ∀ n ∈ p.maxLeaves, n < UInt64.size
  steps : ∀ s ∈ p.steps, s.Readable

/-- Whether what was read of a plan so far is such as is read. -/
structure Draft.Readable (d : Draft) : Prop where
  schema_built : ∀ s ∈ d.properties, s.Built
  maxLeaves_lt : ∀ n? ∈ d.maxLeaves, ∀ n ∈ n?, n < UInt64.size
  steps : ∀ steps ∈ d.steps, ∀ s ∈ steps, StepSetup.Readable s

theorem fields_keep (room : Nat) {f : Decoder.Field Draft} (hf : f ∈ fields room) {d d' : Draft}
    {j : Json} (hd : d.Readable) (h : f.read d j = .ok d') : d'.Readable := by
  rcases List.mem_cons.1 hf with rfl | hf
  · obtain ⟨schema, hschema, rfl⟩ := exists_of_field h
    have hbuilt := Schema.only_decoder room j schema hschema
    exact ⟨fun s hs => Option.mem_some.1 hs ▸ hbuilt, hd.maxLeaves_lt, hd.steps⟩
  rcases List.mem_cons.1 hf with rfl | hf
  · obtain ⟨maxLeaves, hmaxLeaves, rfl⟩ := exists_of_withDefault h
    have hlt := only_option (only_natBelow _) room j maxLeaves hmaxLeaves
    exact ⟨hd.schema_built, fun n? hn => Option.mem_some.1 hn ▸ hlt, hd.steps⟩
  · rw [List.mem_singleton.1 hf] at h
    obtain ⟨steps, hsteps, rfl⟩ := exists_of_field h
    have hall := only_list StepSetup.only_decoder room j steps hsteps
    exact ⟨hd.schema_built, hd.maxLeaves_lt, fun ss hss => Option.mem_some.1 hss ▸ hall⟩

theorem only_decoder : decoder.Only Readable := by
  intro room j p h
  have hstart : ({} : Draft).Readable := ⟨nofun, nofun, nofun⟩
  obtain ⟨d, hd, h⟩ := exists_draft_of_structured (fun room f hf _ _ _ => fields_keep room hf)
    hstart h
  obtain ⟨schema, hschema, h⟩ := bind_eq_ok_iff.1 h
  obtain ⟨steps, hsteps, h⟩ := bind_eq_ok_iff.1 h
  cases h
  exact ⟨hd.schema_built schema (required_eq_ok_iff.1 hschema), of_join hd.maxLeaves_lt,
    hd.steps steps (required_eq_ok_iff.1 hsteps)⟩

theorem Readable.codes {p : PlanSetup} (h : p.Readable) : Codes decoder toJson 6 p := by
  have hschema := h.schema_built.codes
  have hmaxLeaves : Codes (option word) (Json.ofOption Json.ofNat) 0 p.maxLeaves :=
    codes_option (fun n hn => codes_word (h.maxLeaves_lt n hn)) nofun
  have hsteps : Codes (list StepSetup.decoder) (Json.ofList StepSetup.toJson) 5 p.steps :=
    codes_list fun s hs => (h.steps s hs).codes
  refine codes_structured rfl ?_ fun room hroom => ?_
  · simp only [List.forall_mem_cons]
    exact ⟨hschema.spelled, hmaxLeaves.spelled, hsteps.spelled, List.forall_mem_nil _⟩
  · rw [readNamed_of_read rfl rfl (read_field (hschema.reads room (by omega))),
      readNamed_of_read rfl rfl (read_withDefault (hmaxLeaves.reads room (Nat.zero_le _))),
      readNamed_of_read rfl rfl (read_field (hsteps.reads room hroom))]
    rfl

end PlanSetup

namespace TrainerSetup

/-- Whether a trainer is such as is read. -/
structure Readable (t : TrainerSetup) : Prop where
  seed_lt : t.seed < UInt64.size
  plan : t.plan.Readable

/-- Whether what was read of a trainer so far is such as is read. -/
structure Draft.Readable (d : Draft) : Prop where
  seed_lt : ∀ n ∈ d.seed, n < UInt64.size
  plan : ∀ p ∈ d.plan, PlanSetup.Readable p

theorem fields_keep (room : Nat) {f : Decoder.Field Draft} (hf : f ∈ fields room) {d d' : Draft}
    {j : Json} (hd : d.Readable) (h : f.read d j = .ok d') : d'.Readable := by
  rcases List.mem_cons.1 hf with rfl | hf
  · obtain ⟨scorer, _, rfl⟩ := exists_of_withDefault h
    exact ⟨hd.seed_lt, hd.plan⟩
  rcases List.mem_cons.1 hf with rfl | hf
  · obtain ⟨seed, hseed, rfl⟩ := exists_of_withDefault h
    have hlt := only_natBelow _ room j seed hseed
    exact ⟨fun n hn => Option.mem_some.1 hn ▸ hlt, hd.plan⟩
  · rw [List.mem_singleton.1 hf] at h
    obtain ⟨plan, hplan, rfl⟩ := exists_of_field h
    have hreadable := PlanSetup.only_decoder room j plan hplan
    exact ⟨hd.seed_lt, fun p hp => Option.mem_some.1 hp ▸ hreadable⟩

theorem only_decoder : decoder.Only Readable := by
  intro room j t h
  have hstart : ({} : Draft).Readable := ⟨nofun, nofun⟩
  obtain ⟨d, hd, h⟩ := exists_draft_of_structured (fun room f hf _ _ _ => fields_keep room hf)
    hstart h
  obtain ⟨plan, hplan, h⟩ := bind_eq_ok_iff.1 h
  cases h
  exact ⟨of_getD (P := (· < UInt64.size)) hd.seed_lt (by decide),
    hd.plan plan (required_eq_ok_iff.1 hplan)⟩

theorem Readable.codes {t : TrainerSetup} (h : t.Readable) : Codes decoder toJson 7 t := by
  have hscorer := t.scorer.codes
  have hseed := codes_word h.seed_lt
  have hplan := h.plan.codes
  refine codes_structured rfl ?_ fun room hroom => ?_
  · simp only [List.forall_mem_cons]
    exact ⟨hscorer.spelled, hseed.spelled, hplan.spelled, List.forall_mem_nil _⟩
  · rw [readNamed_of_read rfl rfl (read_withDefault (hscorer.reads room (Nat.zero_le _))),
      readNamed_of_read rfl rfl (read_withDefault (hseed.reads room (Nat.zero_le _))),
      readNamed_of_read rfl rfl (read_field (hplan.reads room hroom))]
    rfl

end TrainerSetup

end QuestionTree
