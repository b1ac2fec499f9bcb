import QuestionTree.Proofs.DecisionTree.Codec
import QuestionTree.Proofs.Question.Built
import QuestionTree.Proofs.Record.History
import QuestionTree.Setup.Training

/-!
# What templates give

A list of templates gives the questions of each of them, one group after the other, and fails only
if one of them does. Every question that comes of it fits the schema, so a step with these questions
is refused for its thresholds only. The questions about every value of a key tell any two of its
values apart, also where a key with two values gets a single question.
-/

namespace QuestionTree

namespace QuestionTemplate

/-- What a template names as the keys it is about. -/
inductive Names (schema : Schema) (t : QuestionTemplate) : List String → Prop
  | all (hkeys : t.forEachKey = some []) : Names schema t schema.keys
  | listed {keys : List String} (hkeys : t.forEachKey = some keys) (hne : keys ≠ []) :
      Names schema t keys
  | sole {key : String} (hnone : t.forEachKey = none) (hkey : t.key = some key) :
      Names schema t [key]

/-- Whether questions are as many as a key has values, or a single one if it has two, and tell
records with different values of the key apart. -/
structure Separates (schema : Schema) (key : String) (questions : List Question) (k : Nat)
    (p : Property) : Prop where
  place : schema.properties[k]? = some p
  key_eq : p.key = key
  length_eq : questions.length = if p.vocabulary.size = 2 then 1 else p.vocabulary.size
  about : ∀ q ∈ questions, q.key = k
  apart : ∀ (a b : Record) (v w : Nat), Record.Made schema a → Record.Made schema b →
    a.value? k = some v → b.value? k = some w → v ≠ w →
      ∃ q ∈ questions, q.evaluate a = .yes ∧ q.evaluate b = .no ∨
        q.evaluate a = .no ∧ q.evaluate b = .yes

/-- What is true of the questions that come of a list of templates. -/
structure Expands (schema : Schema) (templates : List QuestionTemplate) : Prop where
  /-- Questions come of the list exactly if they do of every template. -/
  succeeds_iff : (∃ questions, (buildAll templates schema).result = .ok questions) ↔
    ∀ t ∈ templates, ∃ group, (t.build schema).result = .ok group
  /-- They are those of the templates, one group after the other. -/
  joined : ∀ questions, (buildAll templates schema).result = .ok questions ↔ ∃ groups,
    List.Forall₂ (fun t group => (t.build schema).result = .ok group) templates groups ∧
      questions = groups.flatten
  valid : ∀ questions, (buildAll templates schema).result = .ok questions →
    ∀ q ∈ questions, q.validate schema = .ok ()
  /-- A template for every value of its keys succeeds if the schema has these keys. -/
  separates_iff : ∀ t ∈ templates, t.forEachValue = some [] →
    ((∃ group, (t.build schema).result = .ok group) ↔ schema.isSet = true ∧
      ∃ keys, Names schema t keys ∧ ∀ key ∈ keys, key ∈ schema.keys)
  /-- It has for each key a group of questions that tells the values of this key apart. -/
  separates : ∀ t ∈ templates, t.forEachValue = some [] →
    ∀ questions, (t.build schema).result = .ok questions → ∃ keys groups, Names schema t keys ∧
      questions = groups.flatten ∧
        List.Forall₂ (fun key group => ∃ k p, Separates schema key group k p) keys groups

/-! ### Collecting -/

section Collect

variable {α β : Type} {f : α → Logged (List β)} {l : List α} {items : List β}

theorem result_collect (f : α → Logged (List β)) (l : List α) :
    (collect f l).result = List.flatten <$> l.mapM fun a => (f a).result := by
  induction l with
  | nil => rfl
  | cons a l ih =>
    simp only [collect, Logged.result_bind, Logged.result_pure, ih, List.mapM_cons]
    cases (f a).result with
    | error e => rfl
    | ok group =>
      cases l.mapM fun a => (f a).result <;> rfl

theorem result_collect_eq_ok_iff : (collect f l).result = .ok items ↔ ∃ groups,
    List.Forall₂ (fun a group => (f a).result = .ok group) l groups ∧ items = groups.flatten := by
  rw [result_collect, map_eq_ok_iff]
  refine exists_congr fun groups => and_congr mapM_eq_ok_iff ?_
  exact eq_comm

theorem exists_result_collect_iff :
    (∃ items, (collect f l).result = .ok items) ↔ ∀ a ∈ l, ∃ group, (f a).result = .ok group := by
  rw [result_collect, ← exists_mapM_eq_ok_iff]
  constructor
  · rintro ⟨items, h⟩
    obtain ⟨groups, hgroups, _⟩ := map_eq_ok_iff.1 h
    exact ⟨groups, hgroups⟩
  · rintro ⟨groups, hgroups⟩
    exact ⟨_, map_eq_ok_iff.2 ⟨groups, hgroups, rfl⟩⟩

theorem forall_of_collect {P : β → Prop}
    (hf : ∀ a group, (f a).result = .ok group → ∀ b ∈ group, P b)
    (h : (collect f l).result = .ok items) : ∀ b ∈ items, P b := by
  rw [result_collect] at h
  obtain ⟨groups, hgroups, rfl⟩ := map_eq_ok_iff.1 h
  have hall : ∀ group ∈ groups, ∀ b ∈ group, P b := forall_of_mapM hf hgroups
  intro b hb
  obtain ⟨group, hgroup, hmem⟩ := List.mem_flatten.1 hb
  exact hall group hgroup b hmem

end Collect

variable {schema : Schema} {t : QuestionTemplate}

/-! ### Single templates -/

theorem keys_eq_ok_iff {keys : List String} : t.keys schema = .ok keys ↔ Names schema t keys := by
  rw [QuestionTemplate.keys]
  constructor
  · intro h
    split at h
    · rename_i hkeys
      cases h
      exact .all hkeys
    · rename_i listed hne hkeys
      cases h
      exact .listed hkeys fun heq => hne heq
    · rename_i key hnone hkey
      cases h
      exact .sole hnone hkey
    · cases h
  · intro h
    cases h with
    | all hkeys => rw [hkeys]
    | listed hkeys hne =>
      rw [hkeys]
      cases keys with
      | nil => exact absurd rfl hne
      | cons key keys => rfl
    | sole hnone hkey =>
      rw [hnone, hkey]

theorem result_build_eq_ok_iff {questions : List Question} :
    (t.build schema).result = .ok questions ↔ schema.isSet = true ∧ ∃ keys,
      Names schema t keys ∧ (collect (t.questionsOn schema) keys).result = .ok questions := by
  simp only [build, Logged.result_bind, Logged.result_liftM]
  rw [bind_eq_ok_iff, ← Schema.requireSet_eq_ok_iff]
  constructor
  · rintro ⟨⟨⟩, hset, h⟩
    obtain ⟨keys, hkeys, h⟩ := bind_eq_ok_iff.1 h
    exact ⟨hset, keys, keys_eq_ok_iff.1 hkeys, h⟩
  · rintro ⟨hset, keys, hkeys, h⟩
    exact ⟨(), hset, bind_eq_ok_iff.2 ⟨keys, keys_eq_ok_iff.2 hkeys, h⟩⟩

/-! ### Validity -/

theorem validate_of_combined (hschema : schema.Built) {key : String} {q : Question}
    (h : (t.combined schema key).result = .ok q) : q.validate schema = .ok () := by
  rw [combined] at h
  split at h
  · rw [Logged.result_bind] at h
    exact Question.validate_of_single hschema h
  · exact Question.validate_of_single hschema h
  · exact Question.validate_of_oneOf hschema h

theorem validate_of_questionsOn (hschema : schema.Built) {key : String} {group : List Question}
    (h : (t.questionsOn schema key).result = .ok group) :
    ∀ q ∈ group, q.validate schema = .ok () := by
  rw [questionsOn] at h
  split at h
  · rw [Logged.result_bind] at h
    obtain ⟨q, hq, h⟩ := bind_eq_ok_iff.1 h
    cases h
    exact List.forall_mem_singleton.2 (validate_of_combined hschema hq)
  · obtain ⟨values, _, h⟩ := bind_eq_ok_iff.1 h
    exact forall_of_mapM (fun _ _ => Question.validate_of_single hschema) h

theorem validate_of_build (hschema : schema.Built) {questions : List Question}
    (h : (t.build schema).result = .ok questions) :
    ∀ q ∈ questions, q.validate schema = .ok () := by
  obtain ⟨_, keys, _, h⟩ := result_build_eq_ok_iff.1 h
  exact forall_of_collect (fun _ _ => validate_of_questionsOn hschema) h

theorem validate_of_buildAll (hschema : schema.Built) {templates : List QuestionTemplate}
    {questions : List Question} (h : (buildAll templates schema).result = .ok questions) :
    ∀ q ∈ questions, q.validate schema = .ok () :=
  forall_of_collect (fun _ _ => validate_of_build hschema) h

/-! ### Steps -/

theorem of_result_buildStep {s : StepSetup} {first : Nat} {step : Step Float}
    (h : (s.build schema first).result = .ok step) :
    (buildAll s.questions schema).result = .ok step.pool.questions ∧ step.minObs = s.minObs ∧
      step.minGain = s.minGain ∧ 1 ≤ step.drawSize := by
  rw [StepSetup.build, Logged.result_bind] at h
  obtain ⟨questions, hquestions, h⟩ := bind_eq_ok_iff.1 h
  cases h
  refine ⟨?_, rfl, rfl, ?_⟩
  · rw [QuestionPool.questions_ofQuestions]
    exact hquestions
  · cases s.randomize with
    | none => exact Nat.le_refl 1
    | some d => exact Nat.le_max_right d.questionCount 1

theorem addStep_of_build (hschema : schema.Built) {s : StepSetup} {first : Nat}
    {step : Step Float} (plan : TrainingPlan Float) (hplan : plan.schema = schema)
    (h : (s.build schema first).result = .ok step) :
    plan.addStep step = do
      Parameter.checkPositive s.minObs "min_obs"
      Parameter.checkPositive s.minGain "min_gain"
      return { plan with steps := plan.steps ++ [step] } := by
  obtain ⟨hquestions, hobs, hgain, hdraw⟩ := of_result_buildStep h
  have hvalid : step.pool.questions.forM (·.validate schema) = .ok () :=
    forM_eq_ok_iff.2 (validate_of_buildAll hschema hquestions)
  have hcount : Parameter.checkCount step.drawSize 1 "n_random_question" = .ok () :=
    if_neg (Nat.not_lt_of_le hdraw)
  rw [TrainingPlan.addStep, Step.check, hplan, hcount, hvalid, hobs, hgain]
  cases Parameter.checkPositive s.minObs "min_obs" with
  | error e => rfl
  | ok _ => cases Parameter.checkPositive s.minGain "min_gain" <;> rfl

/-! ### A question for every value -/

/-- The symbols of a key that get a question each. -/
def separateSymbols (p : Property) : List String :=
  if p.vocabulary.size = 2 then p.vocabulary.symbols.take 1 else p.vocabulary.symbols

theorem mem_of_mem_separateSymbols {p : Property} {name : String}
    (h : name ∈ separateSymbols p) : name ∈ p.vocabulary.symbols := by
  rw [separateSymbols] at h
  split at h
  · exact List.mem_of_mem_take h
  · exact h

theorem length_separateSymbols (p : Property) :
    (separateSymbols p).length = if p.vocabulary.size = 2 then 1 else p.vocabulary.size := by
  rw [separateSymbols]
  split
  · rename_i htwo
    rw [Vocabulary.size] at htwo
    rw [List.length_take, htwo]
    rfl
  · rfl

/-- Of two values of a key one has a symbol with a question. -/
theorem exists_mem_separateSymbols {p : Property} {v w : Nat} (hv : v < p.vocabulary.size)
    (hw : w < p.vocabulary.size) (hne : v ≠ w) :
    ∃ u name, (u = v ∨ u = w) ∧ p.vocabulary.symbols[u]? = some name ∧
      name ∈ separateSymbols p := by
  rw [separateSymbols]
  split
  · rename_i htwo
    -- the first symbol alone has a question, and one of two values is the first
    have hzero : v = 0 ∨ w = 0 := by omega
    have hlength : 0 < p.vocabulary.symbols.length := Nat.zero_lt_of_lt hv
    refine ⟨0, p.vocabulary.symbols[0], hzero.imp Eq.symm Eq.symm,
      List.getElem?_eq_getElem hlength, ?_⟩
    exact List.mem_take_iff_getElem.2 ⟨0, by omega, rfl⟩
  · obtain ⟨name, hname⟩ : ∃ name, p.vocabulary.symbols[v]? = some name :=
      ⟨_, List.getElem?_eq_getElem hv⟩
    exact ⟨v, name, .inl rfl, hname, List.mem_of_getElem? hname⟩

/-- The questions for the values of a key. -/
def valueQuestions (k : Nat) (p : Property) (description : String) : List Question :=
  (separateSymbols p).map fun name =>
    ⟨k, .single (p.vocabulary.symbols.idxOf name), description⟩

theorem separateValues_nil_eq_ok_iff (hschema : schema.Built) {key : String}
    {values : List String} : separateValues schema key [] = .ok values ↔
      ∃ (k : Nat) (p : Property), schema.properties[k]? = some p ∧ p.key = key ∧
        values = separateSymbols p := by
  rw [separateValues, bind_eq_ok_iff]
  constructor
  · rintro ⟨k, hk, h⟩
    obtain ⟨vocabulary, hvocabulary, h⟩ := bind_eq_ok_iff.1 h
    cases h
    obtain ⟨p, hp, hkey⟩ := hschema.requireKey_eq_ok_iff.1 hk
    rw [Schema.requireVocabulary_eq_ok_iff, Schema.vocabulary?, hp] at hvocabulary
    cases hvocabulary
    exact ⟨k, p, hp, hkey, rfl⟩
  · rintro ⟨k, p, hp, hkey, rfl⟩
    refine ⟨k, hschema.requireKey_eq_ok_iff.2 ⟨p, hp, hkey⟩,
      bind_eq_ok_iff.2 ⟨p.vocabulary, Schema.requireVocabulary_eq_ok_iff.2 ?_, rfl⟩⟩
    rw [Schema.vocabulary?, hp]
    rfl

theorem mapM_single_separateSymbols (hschema : schema.Built) {k : Nat} {p : Property}
    (hp : schema.properties[k]? = some p) (description : String) :
    (separateSymbols p).mapM (fun name => Question.single schema p.key name description) =
      .ok (valueQuestions k p description) := by
  refine mapM_eq_ok fun name hname => (Question.single_eq_ok_iff hschema).2 ?_
  exact ⟨k, p, _, hp, rfl, List.getElem?_idxOf (mem_of_mem_separateSymbols hname), rfl⟩

theorem questionsOn_eq_ok_iff (hschema : schema.Built) (hvalues : t.forEachValue = some [])
    {key : String} {group : List Question} : (t.questionsOn schema key).result = .ok group ↔
      ∃ k p, schema.properties[k]? = some p ∧ p.key = key ∧
        group = valueQuestions k p t.description := by
  rw [questionsOn, hvalues]
  show separateValues schema key [] >>= _ = _ ↔ _
  rw [bind_eq_ok_iff]
  constructor
  · rintro ⟨values, hfound, h⟩
    obtain ⟨k, p, hp, rfl, rfl⟩ := (separateValues_nil_eq_ok_iff hschema).1 hfound
    rw [mapM_single_separateSymbols hschema hp] at h
    cases h
    exact ⟨k, p, hp, rfl, rfl⟩
  · rintro ⟨k, p, hp, rfl, rfl⟩
    exact ⟨separateSymbols p, (separateValues_nil_eq_ok_iff hschema).2 ⟨k, p, hp, rfl, rfl⟩,
      mapM_single_separateSymbols hschema hp _⟩

theorem apart_of_single {a b : Record} {k v w u : Nat} {description : String}
    (ha : a.value? k = some v) (hb : b.value? k = some w) (hne : v ≠ w) (hu : u = v ∨ u = w) :
    Question.evaluate ⟨k, .single u, description⟩ a = .yes ∧
        Question.evaluate ⟨k, .single u, description⟩ b = .no ∨
      Question.evaluate ⟨k, .single u, description⟩ a = .no ∧
        Question.evaluate ⟨k, .single u, description⟩ b = .yes := by
  rcases hu with rfl | rfl
  · left
    simp [Question.evaluate, ha, hb, Question.accepts, Acceptance.accepts, Acceptance.values,
      hne.symm]
  · right
    simp [Question.evaluate, ha, hb, Question.accepts, Acceptance.accepts, Acceptance.values, hne]

theorem separates_valueQuestions (hschema : schema.Built) {k : Nat} {p : Property}
    (hp : schema.properties[k]? = some p) (description : String) :
    Separates schema p.key (valueQuestions k p description) k p := by
  refine ⟨hp, rfl, ?_, fun q hq => ?_, fun a b v w ha hb hv hw hne => ?_⟩
  · rw [valueQuestions, List.length_map, length_separateSymbols]
  · obtain ⟨name, _, rfl⟩ := List.mem_map.1 hq
    rfl
  · have hv' := (ha.fits hschema).value_lt k p v hp hv
    have hw' := (hb.fits hschema).value_lt k p w hp hw
    obtain ⟨u, name, hu, hsymbol, hname⟩ := exists_mem_separateSymbols hv' hw' hne
    have hplace : p.vocabulary.symbols.idxOf name = u := by
      have hnodup := hschema.nodup_symbols (List.mem_of_getElem? hp)
      obtain ⟨hlt, rfl⟩ := List.getElem?_eq_some_iff.1 hsymbol
      exact hnodup.idxOf_getElem u hlt
    refine ⟨_, List.mem_map_of_mem hname, ?_⟩
    rw [hplace]
    exact apart_of_single hv hw hne hu

/-! ### Lists of templates -/

theorem separates_of_build (hschema : schema.Built) (hvalues : t.forEachValue = some [])
    {questions : List Question} (h : (t.build schema).result = .ok questions) :
    ∃ keys groups, Names schema t keys ∧ questions = groups.flatten ∧
      List.Forall₂ (fun key group => ∃ k p, Separates schema key group k p) keys groups := by
  obtain ⟨_, keys, hkeys, h⟩ := result_build_eq_ok_iff.1 h
  obtain ⟨groups, hgroups, rfl⟩ := result_collect_eq_ok_iff.1 h
  refine ⟨keys, groups, hkeys, rfl, hgroups.imp fun key group hgroup => ?_⟩
  obtain ⟨k, p, hp, rfl, rfl⟩ := (questionsOn_eq_ok_iff hschema hvalues).1 hgroup
  exact ⟨k, p, separates_valueQuestions hschema hp _⟩

theorem exists_build_iff (hschema : schema.Built) (hvalues : t.forEachValue = some []) :
    (∃ questions, (t.build schema).result = .ok questions) ↔ schema.isSet = true ∧
      ∃ keys, Names schema t keys ∧ ∀ key ∈ keys, key ∈ schema.keys := by
  have hkey : ∀ key, (∃ group, (t.questionsOn schema key).result = .ok group) ↔
      key ∈ schema.keys := by
    intro key
    simp only [questionsOn_eq_ok_iff hschema hvalues]
    rw [Schema.keys, List.mem_map]
    constructor
    · rintro ⟨_, k, p, hp, hkey, _⟩
      exact ⟨p, List.mem_of_getElem? hp, hkey⟩
    · rintro ⟨p, hp, hkey⟩
      obtain ⟨k, hk⟩ := List.mem_iff_getElem?.1 hp
      exact ⟨_, k, p, hk, hkey, rfl⟩
  simp only [result_build_eq_ok_iff, ← hkey, ← exists_result_collect_iff]
  constructor
  · rintro ⟨questions, hset, keys, hkeys, h⟩
    exact ⟨hset, keys, hkeys, questions, h⟩
  · rintro ⟨hset, keys, hkeys, questions, h⟩
    exact ⟨questions, hset, keys, hkeys, h⟩

/-- Templates give all the questions they stand for, all of which fit the schema. So a step that is
built for the schema of a plan is added to it unless one of its two thresholds is refused. -/
theorem expands_templates (hschema : schema.Built) :
    (∀ templates, Expands schema templates) ∧
    ∀ (s : StepSetup) (first : Nat) (step : Step Float) (plan : TrainingPlan Float),
      plan.schema = schema → (s.build schema first).result = .ok step →
        plan.addStep step = do
          Parameter.checkPositive s.minObs "min_obs"
          Parameter.checkPositive s.minGain "min_gain"
          return { plan with steps := plan.steps ++ [step] } := by
  refine ⟨fun templates => ?_, fun s first step plan => addStep_of_build hschema plan⟩
  exact
    { succeeds_iff := exists_result_collect_iff
      joined := fun _ => result_collect_eq_ok_iff
      valid := fun _ => validate_of_buildAll hschema
      separates_iff := fun _ _ hvalues => exists_build_iff hschema hvalues
      separates := fun _ _ hvalues _ h => separates_of_build hschema hvalues h }

/-- A question for every value of every key. -/
def everyValue : QuestionTemplate := { forEachKey := some [], forEachValue := some [] }

open Record (colorAndSize) in
/-- Whether a thing is red, small, medium or large is asked with one question each. -/
theorem expands_every_value :
    Expands colorAndSize [everyValue] ∧ ∃ step : Step Float,
      step.pool.questions =
        [⟨0, .single 0, ""⟩, ⟨1, .single 0, ""⟩, ⟨1, .single 1, ""⟩, ⟨1, .single 2, ""⟩] ∧
      (StepSetup.build { questions := [everyValue] } colorAndSize 0).result = .ok step ∧
      TrainingPlan.addStep ⟨colorAndSize, 5, []⟩ step = do
        Parameter.checkPositive 1.0 "min_obs"
        Parameter.checkPositive 0.0 "min_gain"
        return ⟨colorAndSize, 5, [step]⟩ := by
  have hquestions : (buildAll [everyValue] colorAndSize).result =
      .ok [⟨0, .single 0, ""⟩, ⟨1, .single 0, ""⟩, ⟨1, .single 1, ""⟩, ⟨1, .single 2, ""⟩] := by
    decide +kernel
  obtain ⟨hexpands, hadded⟩ := expands_templates Record.built_colorAndSize
  have hstep : (StepSetup.build { questions := [everyValue] } colorAndSize 0).result =
      .ok { name := "", action := .split, minObs := 1.0, minGain := 0.0, drawSize := 1,
            pool := QuestionPool.ofQuestions 0 [⟨0, .single 0, ""⟩, ⟨1, .single 0, ""⟩,
              ⟨1, .single 1, ""⟩, ⟨1, .single 2, ""⟩] } := by
    rw [StepSetup.build, Logged.result_bind, hquestions]
    rfl
  have hplan := hadded _ _ _ ⟨colorAndSize, 5, []⟩ rfl hstep
  exact ⟨hexpands _, _, QuestionPool.questions_ofQuestions 0 _, hstep, hplan⟩

end QuestionTemplate

end QuestionTree
