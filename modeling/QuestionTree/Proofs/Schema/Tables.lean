import QuestionTree.Proofs.Schema.Defects

/-!
# Schemas with tables

A schema finds a name by going through its list. A tabled schema keeps a table beside the list of
its keys, and one beside the symbols of each key, which tell the place of a name at once. It is
built in one pass. A key is checked against the table of the keys before it and a symbol against the
table of the symbols before it, and what is new is entered with its place.

`TabledSchema.Tables` says that these tables tell the places of a schema and nothing else. A pass
that succeeds ends with the tables of the built schema, and a pass that fails is refused for the
same reason. Schemas that are compared through their tables have the same differences, and every
look-up on the way finds something.
-/

namespace QuestionTree

/-- A table that tells the places of names. -/
abbrev NameTable := Std.HashMap String Nat

namespace NameTable

/-- Whether a table tells the places at which names stand in a list. -/
def Inverts (table : NameTable) (names : List String) : Prop :=
  ∀ (name : String) (i : Nat), table[name]? = some i ↔ names[i]? = some name

theorem inverts_empty : Inverts ∅ [] := by
  intro name i
  simp

namespace Inverts

variable {table : NameTable} {names : List String}

theorem nodup (h : Inverts table names) : names.Nodup := by
  apply List.nodup_iff_getElem?_ne_getElem?.2
  intro i j hij hj hsame
  obtain ⟨name, hname⟩ : ∃ name, names[j]? = some name := ⟨_, List.getElem?_eq_getElem hj⟩
  have hfirst := (h name i).2 (hsame.trans hname)
  rw [(h name j).2 hname] at hfirst
  have hplaces := Option.some.inj hfirst
  omega

theorem getElem?_eq (h : Inverts table names) (name : String) :
    table[name]? = names.idxOf? name := by
  apply Option.ext
  intro i
  rw [h name i, idxOf?_eq_some_iff_getElem? h.nodup]

theorem contains_iff (h : Inverts table names) {name : String} :
    table.contains name = true ↔ name ∈ names := by
  rw [Std.HashMap.contains_eq_isSome_getElem?, h.getElem?_eq, List.isSome_idxOf?]

theorem insert (h : Inverts table names) {name : String} (hnew : name ∉ names) :
    Inverts (table.insert name names.length) (names ++ [name]) := by
  intro other i
  rw [Std.HashMap.getElem?_insert]
  by_cases hother : name = other
  · subst hother
    rw [if_pos (beq_self_eq_true name), Option.some_inj]
    constructor
    · rintro rfl
      simp
    · intro hi
      by_contra hne
      apply hnew
      rcases Nat.lt_or_gt_of_ne hne with hlt | hlt
      · rw [List.getElem?_eq_none (by simp; omega)] at hi
        cases hi
      · rw [List.getElem?_append_left hlt] at hi
        exact List.mem_of_getElem? hi
  · rw [if_neg (by simpa using hother), h other i]
    rcases Nat.lt_or_ge i names.length with hlt | hge
    · rw [List.getElem?_append_left hlt]
    · rw [List.getElem?_eq_none hge, List.getElem?_append_right hge, List.getElem?_singleton]
      split <;> simp [hother]

end Inverts

end NameTable

/-! ### Tabled vocabularies -/

structure TabledVocabulary where
  symbols : List String
  table : NameTable

namespace TabledVocabulary

/-- Enters symbols with their places, from a place on. A symbol entered already is refused. -/
def enter (key : String) (table : NameTable) (place : Nat) : List String → Except Refusal NameTable
  | [] => .ok table
  | symbol :: rest =>
    if table.contains symbol then .error (.repeatedValue key symbol)
    else enter key (table.insert symbol place) (place + 1) rest

def ofList (key : String) (symbols : List String) : Except Refusal TabledVocabulary :=
  TabledVocabulary.mk symbols <$> enter key ∅ 0 symbols

/-- Whether a tabled vocabulary is the vocabulary with its table. -/
structure Tables (t : TabledVocabulary) (v : Vocabulary) : Prop where
  symbols_eq : t.symbols = v.symbols
  /-- The table tells where the symbols stand. -/
  inverts : t.table.Inverts v.symbols

variable {key : String} {table : NameTable} {entered seen rest : List String}

/-- Entering stops at the first symbol that is listed twice. -/
theorem enter_of_repeated (h : table.Inverts entered) (hseen : ∀ s, s ∈ seen ↔ s ∈ entered)
    {symbol : String} (hrepeated : firstRepeated? seen rest = some symbol) :
    enter key table entered.length rest = .error (.repeatedValue key symbol) := by
  induction rest generalizing table entered seen with
  | nil => cases hrepeated
  | cons s rest ih =>
    rw [firstRepeated?] at hrepeated
    have hcontains : table.contains s = seen.contains s := by
      rw [Bool.eq_iff_iff, h.contains_iff, List.contains_iff_mem, hseen]
    rw [enter, hcontains]
    split at hrepeated
    · rename_i hmem
      cases hrepeated
      rw [if_pos hmem]
    · rename_i hmem
      have hnew : s ∉ entered := fun hs => hmem (List.contains_iff_mem.2 ((hseen s).2 hs))
      rw [if_neg hmem]
      have hnext := ih (h.insert hnew) (by simp [hseen, or_comm]) hrepeated
      rwa [List.length_append, List.length_singleton] at hnext

theorem exists_enter (h : table.Inverts entered) (hseen : ∀ s, s ∈ seen ↔ s ∈ entered)
    (hnone : firstRepeated? seen rest = none) :
    ∃ after : NameTable, enter key table entered.length rest = .ok after ∧
      after.Inverts (entered ++ rest) := by
  induction rest generalizing table entered seen with
  | nil => exact ⟨table, rfl, by rwa [List.append_nil]⟩
  | cons s rest ih =>
    rw [firstRepeated?] at hnone
    have hmem : ¬ seen.contains s = true := by
      intro hs
      rw [if_pos hs] at hnone
      cases hnone
    have hnew : s ∉ entered := fun hs => hmem (List.contains_iff_mem.2 ((hseen s).2 hs))
    rw [if_neg hmem] at hnone
    obtain ⟨after, hafter, hinverts⟩ := ih (h.insert hnew) (by simp [hseen, or_comm]) hnone
    refine ⟨after, ?_, ?_⟩
    · rw [enter, if_neg fun hs => hnew (h.contains_iff.1 hs)]
      rwa [List.length_append, List.length_singleton] at hafter
    · rwa [List.append_assoc] at hinverts

theorem ofList_of_repeated {symbols : List String} {symbol : String}
    (h : firstRepeated? [] symbols = some symbol) :
    ofList key symbols = .error (.repeatedValue key symbol) := by
  have hstop : enter key ∅ [].length symbols = .error (.repeatedValue key symbol) :=
    enter_of_repeated NameTable.inverts_empty (fun _ => Iff.rfl) h
  rw [List.length_nil] at hstop
  rw [ofList, hstop]
  rfl

theorem exists_ofList {symbols : List String} (h : firstRepeated? [] symbols = none) :
    ∃ t, ofList key symbols = .ok t ∧ t.Tables ⟨symbols⟩ := by
  obtain ⟨after, hafter, hinverts⟩ : ∃ after : NameTable,
      enter key ∅ [].length symbols = .ok after ∧ after.Inverts ([] ++ symbols) :=
    exists_enter NameTable.inverts_empty (fun _ => Iff.rfl) h
  rw [List.length_nil] at hafter
  refine ⟨⟨symbols, after⟩, ?_, rfl, hinverts⟩
  rw [ofList, hafter]
  rfl

end TabledVocabulary

/-! ### Tabled schemas -/

structure TabledSchema where
  keys : List String
  vocabularies : List TabledVocabulary
  table : NameTable

namespace TabledSchema

def blank : TabledSchema := ⟨[], [], ∅⟩

/-- The tabled schema with one key more. -/
def add (t : TabledSchema) (d : Definition) : Except Refusal TabledSchema := do
  if d.values.length < 2 then throw (.tooFewValues d.key d.values.length)
  if t.table.contains d.key then throw (.repeatedKey d.key)
  let vocabulary ← TabledVocabulary.ofList d.key d.values
  return ⟨t.keys ++ [d.key], t.vocabularies ++ [vocabulary], t.table.insert d.key t.keys.length⟩

def ofLists (keys : List String) (values : List (List String)) : Except Error TabledSchema :=
  if keys.length ≠ values.length then .error (.mismatchedCounts keys.length values.length)
  else
    match (List.zipWith Definition.mk keys values).foldlM add blank with
    | .ok t => .ok t
    | .error refusal => .error (.refused refusal)

/-- Whether a tabled schema is the schema with its tables. -/
structure Tables (t : TabledSchema) (s : Schema) : Prop where
  keys_eq : t.keys = s.keys
  vocabularies : List.Forall₂ TabledVocabulary.Tables t.vocabularies
    (s.properties.map Property.vocabulary)
  /-- The table of the keys tells where they stand. -/
  inverts : t.table.Inverts s.keys

theorem tables_blank : blank.Tables ⟨[]⟩ := ⟨rfl, .nil, NameTable.inverts_empty⟩

variable {t : TabledSchema} {s : Schema}

theorem Tables.add (h : t.Tables s) (d : Definition) :
    (∀ refusal, d.refusal? s.keys = some refusal → t.add d = .error refusal) ∧
    (d.refusal? s.keys = none →
      ∃ after, t.add d = .ok after ∧ after.Tables ⟨s.properties ++ [d.property]⟩) := by
  have hcontains : t.table.contains d.key = true ↔ d.key ∈ s.keys := h.inverts.contains_iff
  rw [Definition.refusal?, TabledSchema.add]
  by_cases hsize : d.values.length < 2
  · rw [if_pos hsize, if_pos hsize]
    refine ⟨fun refusal hr => ?_, fun hr => (by cases hr)⟩
    cases hr
    rfl
  rw [if_neg hsize, if_neg hsize]
  dsimp only
  by_cases hkey : d.key ∈ s.keys
  · rw [if_pos hkey, if_pos (hcontains.2 hkey)]
    refine ⟨fun refusal hr => ?_, fun hr => (by cases hr)⟩
    cases hr
    rfl
  rw [if_neg hkey, if_neg fun hmem => hkey (hcontains.1 hmem)]
  cases hrepeated : firstRepeated? [] d.values with
  | some symbol =>
    refine ⟨fun refusal hr => ?_, fun hr => (by cases hr)⟩
    cases hr
    rw [TabledVocabulary.ofList_of_repeated hrepeated]
    rfl
  | none =>
    obtain ⟨vocabulary, hvocabulary, htables⟩ := TabledVocabulary.exists_ofList hrepeated
    refine ⟨fun refusal hr => (by cases hr), fun _ => ?_⟩
    rw [hvocabulary]
    refine ⟨_, rfl, ?_, ?_, ?_⟩
    · simp [h.keys_eq]
    · rw [List.map_append]
      exact List.rel_append h.vocabularies (.cons htables .nil)
    · simpa [h.keys_eq] using h.inverts.insert hkey

theorem Tables.addAll (h : t.Tables s) {seen : List String}
    (hseen : ∀ key, key ∈ seen ↔ key ∈ s.keys) (definitions : List Definition) :
    (∀ refusal, Schema.propertiesOf seen definitions = .error refusal →
      definitions.foldlM TabledSchema.add t = .error refusal) ∧
    ∀ properties, Schema.propertiesOf seen definitions = .ok properties →
      ∃ after, definitions.foldlM TabledSchema.add t = .ok after ∧
        after.Tables ⟨s.properties ++ properties⟩ := by
  induction definitions generalizing t s seen with
  | nil =>
    refine ⟨fun refusal hr => (by cases hr), fun properties hp => ⟨t, rfl, ?_⟩⟩
    cases hp
    rwa [List.append_nil]
  | cons d rest ih =>
    obtain ⟨hrefused, hadded⟩ := h.add d
    rw [← Definition.refusal?_congr hseen] at hrefused hadded
    rw [Schema.propertiesOf_cons, List.foldlM_cons]
    cases hd : d.refusal? seen with
    | some first =>
      rw [hrefused first hd]
      refine ⟨fun refusal hr => ?_, fun properties hp => (by cases hp)⟩
      cases hr
      rfl
    | none =>
      obtain ⟨after, hafter, htables⟩ := hadded hd
      have hseen' : ∀ key, key ∈ d.key :: seen ↔
          key ∈ (⟨s.properties ++ [d.property]⟩ : Schema).keys := by
        simp [hseen, or_comm]
      obtain ⟨hfail, hsucceed⟩ := ih htables hseen'
      rw [hafter]
      refine ⟨fun refusal hr => ?_, fun properties hp => ?_⟩
      · apply hfail
        dsimp only at hr
        cases hrest : Schema.propertiesOf (d.key :: seen) rest with
        | error other =>
          rw [hrest] at hr
          exact congrArg Except.error (Except.error.inj hr)
        | ok properties =>
          rw [hrest] at hr
          cases hr
      · obtain ⟨others, hothers, rfl⟩ := map_eq_ok_iff.1 hp
        obtain ⟨last, hlast, hlastTables⟩ := hsucceed others hothers
        rw [List.append_assoc] at hlastTables
        exact ⟨last, hlast, hlastTables⟩

variable {keys : List String} {values : List (List String)}

/-- Lists that are refused are refused by the tables for the same reason. -/
theorem ofLists_error {e : Error} (h : Schema.ofLists keys values = .error e) :
    ofLists keys values = .error e := by
  rw [Schema.ofLists] at h
  rw [ofLists]
  split at h
  · rename_i hlength
    rw [if_pos hlength]
    exact congrArg Except.error (Except.error.inj h)
  · rename_i hlength
    rw [if_neg hlength]
    cases hproperties : Schema.propertiesOf [] (List.zipWith Definition.mk keys values) with
    | error refusal =>
      rw [Schema.ofDefinitions, hproperties] at h
      rw [(tables_blank.addAll (fun _ => Iff.rfl) _).1 refusal hproperties]
      exact congrArg Except.error (Except.error.inj h)
    | ok properties =>
      rw [Schema.ofDefinitions, hproperties] at h
      cases h

theorem exists_ofLists (h : Schema.ofLists keys values = .ok s) :
    ∃ t, ofLists keys values = .ok t ∧ t.Tables s := by
  rw [Schema.ofLists] at h
  rw [ofLists]
  split at h
  · cases h
  · rename_i hlength
    rw [if_neg hlength]
    cases hproperties : Schema.propertiesOf [] (List.zipWith Definition.mk keys values) with
    | error refusal =>
      rw [Schema.ofDefinitions, hproperties] at h
      cases h
    | ok properties =>
      rw [Schema.ofDefinitions, hproperties] at h
      cases h
      obtain ⟨t, ht, htables⟩ := (tables_blank.addAll (fun _ => Iff.rfl) _).2 properties hproperties
      rw [ht]
      exact ⟨t, rfl, htables⟩

/-! ### Looking up and comparing by tables -/

def key? (t : TabledSchema) (name : String) : Option Nat := t.table[name]?

theorem Tables.key?_eq (h : t.Tables s) (name : String) : t.key? name = s.key? name :=
  h.inverts.getElem?_eq name

theorem Tables.exists_vocabulary (h : t.Tables s) {i : Nat} {v : Vocabulary}
    (hv : s.vocabulary? i = some v) : ∃ w, t.vocabularies[i]? = some w ∧ w.Tables v := by
  rw [Schema.vocabulary?, ← List.getElem?_map] at hv
  exact exists_getElem?_of_forall₂ h.vocabularies.flip hv

theorem Tables.map_symbols (h : t.Tables s) : t.vocabularies.map TabledVocabulary.symbols =
    s.properties.map fun p => p.vocabulary.symbols := by
  rw [← List.forall₂_eq_eq_eq, List.forall₂_map_left_iff, List.forall₂_map_right_iff]
  exact (List.forall₂_map_right_iff.1 h.vocabularies).imp fun _ _ =>
    TabledVocabulary.Tables.symbols_eq

/-- The differences at a key of a tabled schema. There are none if a look-up that has to find
something does not. -/
def differencesAt? (t other : TabledSchema) (key : String) (v : TabledVocabulary) :
    Option (List Difference) :=
  match other.key? key with
  | none => some [.onlyInFirst key]
  | some j => do
    let i ← t.key? key
    let w ← other.vocabularies[j]?
    return (if i = j then [] else [.index key i j]) ++
      (if v.symbols = w.symbols then [] else [.values key v.symbols w.symbols])

def differences? (t other : TabledSchema) : Option (List Difference) := do
  let atKeys ← (List.zip t.keys t.vocabularies).mapM fun x => differencesAt? t other x.1 x.2
  return atKeys.flatten ++
    (other.keys.filter fun key => (t.key? key).isNone).map Difference.onlyInSecond

/-- Whether tabled schemas list the same keys and the same symbols. -/
def Equals (t other : TabledSchema) : Prop :=
  t.keys = other.keys ∧
    t.vocabularies.map TabledVocabulary.symbols = other.vocabularies.map TabledVocabulary.symbols

namespace Tables

variable {other : TabledSchema} {o : Schema} (h : t.Tables s) (hother : other.Tables o)

include h hother

theorem differencesAt?_eq {i : Nat} {p : Property} (hp : s.properties[i]? = some p)
    {v : TabledVocabulary} (hv : v.Tables p.vocabulary) :
    differencesAt? t other p.key v = some (Schema.differencesAt o i p) := by
  have hi : s.key? p.key = some i := by
    apply (Schema.key?_eq_some_iff h.inverts.nodup).2
    rw [Schema.keys, List.getElem?_map, hp]
    rfl
  rw [differencesAt?, Schema.differencesAt, hother.key?_eq]
  cases hj : o.key? p.key with
  | none => rfl
  | some j =>
    have hjkey := (Schema.key?_eq_some_iff hother.inverts.nodup).1 hj
    rw [Schema.keys, List.getElem?_map, Option.map_eq_some_iff] at hjkey
    obtain ⟨q, hq, _⟩ := hjkey
    have hvocabulary : o.vocabulary? j = some q.vocabulary := by
      rw [Schema.vocabulary?, hq]
      rfl
    obtain ⟨w, hw, htables⟩ := hother.exists_vocabulary hvocabulary
    have hsymbols : p.vocabulary = q.vocabulary ↔ p.vocabulary.symbols = q.vocabulary.symbols :=
      ⟨congrArg Vocabulary.symbols, congrArg Vocabulary.mk⟩
    dsimp only
    rw [h.key?_eq, hi, hw, hvocabulary]
    simp [hv.symbols_eq, htables.symbols_eq, hsymbols]

theorem mapM_differencesAt? {place : Nat} {properties : List Property}
    {vocabularies : List TabledVocabulary}
    (hvocabularies : List.Forall₂ TabledVocabulary.Tables vocabularies
      (properties.map Property.vocabulary))
    (hrow : ∀ (i : Nat) (p : Property), properties[i]? = some p →
      s.properties[place + i]? = some p) :
    ((properties.map Property.key).zip vocabularies).mapM
        (fun x => differencesAt? t other x.1 x.2) =
      some ((properties.zipIdx place).map fun (p, i) => Schema.differencesAt o i p) := by
  induction properties generalizing place vocabularies with
  | nil => simp
  | cons p properties ih =>
    obtain ⟨v, rest, hv, hrest, rfl⟩ := List.forall₂_cons_right_iff.1 hvocabularies
    have hfirst := h.differencesAt?_eq hother (hrow 0 p rfl) hv
    have hrow' : ∀ (i : Nat) (q : Property), properties[i]? = some q →
        s.properties[place + 1 + i]? = some q := by
      intro i q hq
      rw [Nat.add_right_comm]
      exact hrow (i + 1) q hq
    have hothers := ih hrest hrow'
    rw [List.map_cons, List.zip_cons_cons, List.mapM_cons]
    dsimp only
    rw [hfirst, hothers]
    rfl

/-- Comparing by tables tells the differences, and no look-up on the way finds nothing. -/
theorem differences?_eq : t.differences? other = some (s.differences o) := by
  have hkeys : t.keys = s.properties.map Property.key := h.keys_eq
  have hnew : ∀ key, (t.key? key).isNone = !s.contains key := by
    intro key
    rw [h.key?_eq, Schema.contains, Option.not_isSome]
  have hrow : ∀ (i : Nat) (p : Property), s.properties[i]? = some p →
      s.properties[0 + i]? = some p := by simp
  rw [differences?, hkeys, h.mapM_differencesAt? hother h.vocabularies hrow]
  simp [Schema.differences, List.flatMap_def, hnew, hother.keys_eq]

theorem equals_iff : t.Equals other ↔ s = o := by
  rw [Equals, h.keys_eq, hother.keys_eq, h.map_symbols, hother.map_symbols]
  constructor
  · rintro ⟨hkeys, hsymbols⟩
    have hdefinitions : s.definitions = o.definitions := by
      rw [Schema.definitions_eq, Schema.definitions_eq, hkeys, hsymbols]
    have hproperties := congrArg (List.map Definition.property) hdefinitions
    rw [Schema.map_property_definitions, Schema.map_property_definitions] at hproperties
    exact congrArg Schema.mk hproperties
  · rintro rfl
    exact ⟨rfl, rfl⟩

end Tables

end TabledSchema

end QuestionTree
