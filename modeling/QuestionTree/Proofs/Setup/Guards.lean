import QuestionTree.Growth.Outcome
import QuestionTree.Proofs.Schema.Indexing
import QuestionTree.Proofs.Setup.Template
import QuestionTree.Proofs.Training.Built
import QuestionTree.Proofs.Training.Made
import QuestionTree.Setup.Examples
import QuestionTree.Setup.Training

/-!
# Operations on one schema

Training, adding an example and building what is described each take two schemas that have to be the
same. They compare them first, and report differences for no other reason, so that they are refused
for their schemas exactly if these are not equal. Comparing may be left out where both sides share
one schema.
-/

namespace QuestionTree

/-! ### Failing for other reasons -/

/-- Whether an operation does not fail with differences between schemas. -/
def NeverMismatch {α : Type} (x : Except Error α) : Prop :=
  ∀ differences, x ≠ .error (.schemaMismatch differences)

section NeverMismatch

variable {α β : Type} {x : Except Error α}

theorem never_ok (a : α) : NeverMismatch (.ok a) := fun _ h => by cases h

theorem never_bind {f : α → Except Error β} (hx : NeverMismatch x)
    (hf : ∀ a, x = .ok a → NeverMismatch (f a)) : NeverMismatch (x >>= f) := by
  cases x with
  | error e =>
    intro differences h
    cases h
    exact hx differences rfl
  | ok a => exact hf a rfl

theorem never_map {f : α → β} (hx : NeverMismatch x) : NeverMismatch (f <$> x) := by
  cases x with
  | error e =>
    intro differences h
    cases h
    exact hx differences rfl
  | ok a => exact never_ok (f a)

theorem never_mapM {f : α → Except Error β} (hf : ∀ a, NeverMismatch (f a)) (l : List α) :
    NeverMismatch (l.mapM f) := by
  induction l with
  | nil => exact never_ok []
  | cons a l ih =>
    rw [List.mapM_cons]
    exact never_bind (hf a) fun b _ => never_bind ih fun bs _ => never_ok (b :: bs)

theorem never_forM {f : α → Except Error Unit} (hf : ∀ a, NeverMismatch (f a)) (l : List α) :
    NeverMismatch (l.forM f) := by
  induction l with
  | nil => exact never_ok ()
  | cons a l ih => exact never_bind (hf a) fun _ _ => ih

theorem never_foldlM {f : β → α → Except Error β} (hf : ∀ b a, NeverMismatch (f b a)) (b : β)
    (l : List α) : NeverMismatch (l.foldlM f b) := by
  induction l generalizing b with
  | nil => exact never_ok b
  | cons a l ih => exact never_bind (hf b a) fun c _ => ih c

end NeverMismatch

/-! ### Operations that do not compare -/

variable {a b : Schema}

namespace Schema

variable {s : Schema}

theorem never_requireSet : NeverMismatch s.requireSet := by
  intro differences h
  rw [requireSet] at h
  split at h <;> cases h

theorem never_requireVocabulary {i : Nat} : NeverMismatch (s.requireVocabulary i) := by
  refine never_bind never_requireSet fun _ _ differences h => ?_
  split at h <;> cases h

theorem never_requireKey {name : String} : NeverMismatch (s.requireKey name) := by
  refine never_bind never_requireSet fun _ _ differences h => ?_
  split at h <;> cases h

theorem never_requireValue {key value : String} : NeverMismatch (s.requireValue key value) := by
  refine never_bind never_requireKey fun _ _ differences h => ?_
  dsimp only at h
  split at h <;> cases h

end Schema

namespace Question

variable {s : Schema} {key description : String}

theorem never_single {value : String} : NeverMismatch (single s key value description) :=
  never_bind Schema.never_requireValue fun _ _ => never_ok _

theorem never_oneOf {values : List String} :
    NeverMismatch (oneOf s key values description) := by
  rw [oneOf]
  split
  · intro differences h
    cases h
  · exact never_bind (never_mapM (fun _ => Schema.never_requireValue) values) fun _ _ => never_ok _

theorem never_validate {q : Question} : NeverMismatch (q.validate s) := by
  refine never_bind Schema.never_requireVocabulary fun _ _ differences h => ?_
  split at h <;> cases h

end Question

namespace QuestionTemplate

variable {t : QuestionTemplate} {s : Schema}

theorem never_collect {α β : Type} {f : α → Logged (List β)}
    (hf : ∀ a, NeverMismatch (f a).result) (l : List α) : NeverMismatch (collect f l).result := by
  rw [result_collect]
  exact never_map (never_mapM hf l)

theorem never_combined {key : String} : NeverMismatch (t.combined s key).result := by
  rw [combined]
  split
  · rw [Logged.result_bind]
    exact Question.never_single
  · exact Question.never_single
  · exact Question.never_oneOf

theorem never_separateValues {key : String} {values : List String} :
    NeverMismatch (separateValues s key values) := by
  cases values with
  | nil =>
    exact never_bind Schema.never_requireKey fun _ _ =>
      never_bind Schema.never_requireVocabulary fun _ _ => never_ok _
  | cons value values => exact never_ok _

theorem never_questionsOn {key : String} : NeverMismatch (t.questionsOn s key).result := by
  rw [questionsOn]
  split
  · rw [Logged.result_bind]
    exact never_bind never_combined fun _ _ => never_ok _
  · exact never_bind never_separateValues fun values _ =>
      never_mapM (fun _ => Question.never_single) values

theorem never_build : NeverMismatch (t.build s).result := by
  simp only [build, Logged.result_bind, Logged.result_liftM]
  have hkeys : NeverMismatch (t.keys s) := by
    intro differences h
    rw [keys] at h
    split at h <;> cases h
  exact never_bind Schema.never_requireSet fun _ _ =>
    never_bind hkeys fun keys _ => never_collect (fun _ => never_questionsOn) keys

end QuestionTemplate

namespace Parameter

variable {name : String}

theorem never_checkRange {value low high : Float} :
    NeverMismatch (checkRange value low high name) := by
  intro differences h
  rw [checkRange] at h
  split at h <;> cases h

theorem never_checkCount {value least : Nat} : NeverMismatch (checkCount value least name) := by
  intro differences h
  rw [checkCount] at h
  split at h <;> cases h

end Parameter

theorem TrainingPlan.never_addStep {plan : TrainingPlan Float} {step : Step Float} :
    NeverMismatch (plan.addStep step) := by
  refine never_bind ?_ fun _ _ => never_ok _
  exact never_bind Parameter.never_checkRange fun _ _ =>
    never_bind Parameter.never_checkRange fun _ _ =>
      never_bind Parameter.never_checkCount fun _ _ =>
        never_forM (fun _ => Question.never_validate) step.pool.questions

theorem StepSetup.never_build {step : StepSetup} {s : Schema} {first : Nat} :
    NeverMismatch (step.build s first).result := by
  rw [build, Logged.result_bind]
  exact never_bind (QuestionTemplate.never_collect (fun _ => QuestionTemplate.never_build) _)
    fun _ _ => never_ok _

theorem PlanSetup.never_addAll {first : Nat} {steps : List StepSetup}
    {plan : TrainingPlan Float} : NeverMismatch (addAll first steps plan).result := by
  induction steps generalizing first plan with
  | nil => exact never_ok plan
  | cons step steps ih =>
    simp only [addAll, Logged.result_bind, Logged.result_liftM]
    exact never_bind StepSetup.never_build fun _ _ =>
      never_bind TrainingPlan.never_addStep fun _ _ => ih

theorem Record.never_ofPairs {s : Schema} {pairs : List (String × String)} :
    NeverMismatch (ofPairs s pairs) := by
  refine never_bind ?_ fun start _ => never_foldlM (fun r pair => ?_) start pairs
  · exact never_bind Schema.never_requireSet fun _ _ => never_ok _
  · exact never_bind Schema.never_requireValue fun _ _ => never_ok _

namespace Box

theorem never_fillRows {b : Box Float} {i : Nat} {rows : List (List Float)} :
    NeverMismatch (b.fillRows i rows) := by
  induction rows generalizing b i with
  | nil => exact never_ok b
  | cons row rows ih =>
    rw [fillRows]
    split
    · intro differences h
      cases h
    · split
      · exact ih
      · intro differences h
        cases h

theorem never_ofRows {memory : Memory} {rows : List (List Float)} :
    NeverMismatch (ofRows memory rows) := by
  refine never_bind ?_ fun _ _ => never_fillRows
  intro differences h
  rw [zeros] at h
  split at h
  · cases h
  · split at h <;> cases h

end Box

theorem ExampleSetup.never_build {e : ExampleSetup} {memory : Memory} {s : Schema} :
    NeverMismatch (e.build memory s) :=
  never_bind Record.never_ofPairs fun _ _ => never_bind Box.never_ofRows fun _ _ => never_ok _

/-! ### Guards -/

/-- Whether an operation is refused with the differences of two schemas exactly if these are not
equal. -/
structure Guards {α : Type} (a b : Schema) (result : Except Error α) : Prop where
  refused : a ≠ b → result = .error (.schemaMismatch (a.differences b))
  passed : a = b → NeverMismatch result

section Guards

variable {α β : Type} (ha : a.Built) (hb : b.Built)

include ha hb

theorem guards_bind {f : Unit → Except Error α} (hrest : a = b → NeverMismatch (f ())) :
    Guards a b (a.requireSame b >>= f) := by
  rw [Schema.requireSame_eq ha hb]
  constructor
  · intro hne
    rw [if_neg hne]
    rfl
  · intro heq
    rw [if_pos heq]
    exact hrest heq

theorem guards_add {l : ExampleList Float} {e : Handle (Example Float)} (hl : l.schema = a)
    (he : e.item.record.schema = b) : Guards a b (l.add e) := by
  subst hl he
  refine guards_bind ha hb fun _ => never_bind Parameter.never_checkRange fun _ _ => ?_
  intro differences h
  split at h <;> cases h

/-- Training fails with differences only where it compares the schemas. -/
theorem guards_train {ν γ : Type} [Arithmetic ν] {t : Trainer ν} {examples : ExampleList ν}
    (source : DrawSource γ) (draws : γ) (ht : t.plan.schema = a) (hexamples : examples.schema = b) :
    Guards a b (t.train source draws examples) := by
  subst ht hexamples
  obtain ⟨_, o, _, htrain⟩ := t.exists_train_eq source draws examples
  rw [htrain]
  exact guards_bind ha hb fun _ => never_bind Schema.never_requireSet fun _ _ =>
    never_bind (never_forM (fun _ => Question.never_validate) _) fun _ _ => never_ok o

theorem guards_buildPlan {p : PlanSetup} (hp : p.schema = b) : Guards a b (p.build a).result := by
  subst hp
  simp only [PlanSetup.build, Logged.result_bind, Logged.result_liftM]
  refine guards_bind ha hb fun _ => never_bind ?_ fun _ _ => PlanSetup.never_addAll
  exact never_bind Schema.never_requireSet fun _ _ => never_ok _

theorem guards_buildTrainer {t : TrainerSetup} (ht : t.plan.schema = b) :
    Guards a b (t.build a).result := by
  have hplan := guards_buildPlan ha hb ht
  rw [TrainerSetup.build, Logged.result_bind]
  constructor
  · intro hne
    rw [hplan.refused hne]
    rfl
  · exact fun heq => never_bind (hplan.passed heq) fun _ _ => never_ok _

end Guards

/-- Examples that are built for the schema of a list are of this schema. -/
theorem ExampleListSetup.never_addAll (ha : a.Built) {memory : Memory}
    {examples : List ExampleSetup} {list : ExampleList Float} (hlist : list.schema = a) :
    NeverMismatch (addAll memory a examples list) := by
  induction examples generalizing list with
  | nil => exact never_ok list
  | cons e examples ih =>
    refine never_bind ExampleSetup.never_build fun item hitem => ?_
    have hrecord : item.record.schema = a := by
      obtain ⟨record, hrecord, h⟩ := bind_eq_ok_iff.1 hitem
      obtain ⟨box, _, h⟩ := bind_eq_ok_iff.1 h
      cases h
      exact (Record.tells_of_ofPairs ha hrecord).schema_eq
    -- the list compares its schema with itself, which lets the example through
    have hadd := guards_add (e := ⟨list.size, item⟩) ha ha hlist hrecord
    refine never_bind (hadd.passed rfl) fun next hnext => ih ?_
    rw [(ExampleList.eq_of_add hnext).2.2.2]
    exact hlist

theorem guards_buildExamples (ha : a.Built) (hb : b.Built) {l : ExampleListSetup}
    (memory : Memory) (hl : l.schema = b) : Guards a b (l.build memory a) := by
  subst hl
  refine guards_bind ha hb fun _ => never_bind ?_ fun list hlist => ?_
  · exact never_bind Schema.never_requireSet fun _ _ => never_ok _
  · obtain ⟨⟨⟩, _, h⟩ := bind_eq_ok_iff.1 hlist
    cases h
    exact ExampleListSetup.never_addAll ha rfl

theorem Trainer.result_trainLogged {γ : Type} (t : Trainer Float) (source : DrawSource γ)
    (draws : γ) (examples : ExampleList Float) :
    (t.trainLogged source draws examples).result = t.train source draws examples := by
  rw [trainLogged, train]
  cases t.plan.schema.requireSame examples.schema with
  | error e => rfl
  | ok _ =>
    dsimp only
    cases t.finish (t.grow source draws examples) examples <;> rfl

namespace Schema

/-- Whether the differences between two schemas tell if these are equal, and all that is done with
both of them goes by this. -/
structure Decides (a b : Schema) : Prop where
  nil_iff : a.differences b = [] ↔ a = b
  symm_iff : a.differences b = [] ↔ b.differences a = []
  /-- The tables that are built for the schemas tell the same differences. -/
  tabled : ∃ t u, TabledSchema.ofLists (a.definitions.map Definition.key)
      (a.definitions.map Definition.values) = .ok t ∧
    TabledSchema.ofLists (b.definitions.map Definition.key)
      (b.definitions.map Definition.values) = .ok u ∧
    t.differences? u = some (a.differences b) ∧ (t.Equals u ↔ a = b)
  required_iff : a.requireSame b = .ok () ↔ a = b
  /-- Leaving out the comparison of a schema with itself makes no difference. -/
  shared : ∀ x y : Handle Schema, x.item = a → y.item = b → (x.same y = true → a = b) →
    requireShared x y = a.requireSame b
  train : ∀ (ν γ : Type) [Arithmetic ν] (t : Trainer ν) (source : DrawSource γ) (draws : γ)
    (examples : ExampleList ν), t.plan.schema = a → examples.schema = b →
      Guards a b (t.train source draws examples)
  trainLogged : ∀ (γ : Type) (t : Trainer Float) (source : DrawSource γ) (draws : γ)
    (examples : ExampleList Float), t.plan.schema = a → examples.schema = b →
      Guards a b (t.trainLogged source draws examples).result
  add : ∀ (l : ExampleList Float) (e : Handle (Example Float)), l.schema = a →
    e.item.record.schema = b → Guards a b (l.add e)
  buildPlan : ∀ p : PlanSetup, p.schema = b → Guards a b (p.build a).result
  buildTrainer : ∀ t : TrainerSetup, t.plan.schema = b → Guards a b (t.build a).result
  buildExamples : ∀ (l : ExampleListSetup) (memory : Memory), l.schema = b →
    Guards a b (l.build memory a)

/-- The differences between schemas that can be built decide whether they are equal, and with this
whether they may be used together. -/
theorem differences_decide (a b : Schema) (ha : a.Built) (hb : b.Built) : Decides a b := by
  obtain ⟨t, ht, htables⟩ := TabledSchema.exists_ofLists ha.ofLists_definitions
  obtain ⟨u, hu, hutables⟩ := TabledSchema.exists_ofLists hb.ofLists_definitions
  refine
    { nil_iff := differences_eq_nil_iff ha hb
      symm_iff := ?_
      tabled := ⟨t, u, ht, hu, htables.differences?_eq hutables, htables.equals_iff hutables⟩
      required_iff := ?_
      shared := fun x y hx hy hsame => ?_
      train := fun _ _ _ _ source draws _ => guards_train ha hb source draws
      trainLogged := fun _ t source draws examples ht hexamples => ?_
      add := fun _ _ => guards_add ha hb
      buildPlan := fun _ => guards_buildPlan ha hb
      buildTrainer := fun _ => guards_buildTrainer ha hb
      buildExamples := fun _ memory => guards_buildExamples ha hb memory }
  · rw [differences_eq_nil_iff ha hb, differences_eq_nil_iff hb ha]
    exact eq_comm
  · rw [requireSame_eq ha hb]
    split <;> simp [*]
  · subst hx hy
    exact requireShared_eq ha hb hsame
  · rw [Trainer.result_trainLogged]
    exact guards_train ha hb _ _ ht hexamples

/-- Schemas with the same keys in another order. -/
theorem decides_color_and_size :
    differences ⟨[⟨"color", ⟨["red", "blue"]⟩⟩, ⟨"size", ⟨["small", "large"]⟩⟩]⟩
        ⟨[⟨"size", ⟨["small", "large"]⟩⟩, ⟨"color", ⟨["blue", "red"]⟩⟩]⟩ =
      [.index "color" 0 1, .values "color" ["red", "blue"] ["blue", "red"], .index "size" 1 0] ∧
    Decides ⟨[⟨"color", ⟨["red", "blue"]⟩⟩, ⟨"size", ⟨["small", "large"]⟩⟩]⟩
      ⟨[⟨"size", ⟨["small", "large"]⟩⟩, ⟨"color", ⟨["blue", "red"]⟩⟩]⟩ := by
  refine ⟨by decide +kernel, differences_decide _ _ ⟨?_, ?_⟩ ⟨?_, ?_⟩⟩
  · exact [⟨"color", ["red", "blue"]⟩, ⟨"size", ["small", "large"]⟩]
  · decide +kernel
  · exact [⟨"size", ["small", "large"]⟩, ⟨"color", ["blue", "red"]⟩]
  · decide +kernel

end Schema

end QuestionTree
