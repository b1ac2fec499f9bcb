import QuestionTree.Proofs.Schema.Codec
import QuestionTree.Proofs.Schema.Lookup
import QuestionTree.Proofs.Schema.Tables

/-!
# Names and places of a built schema

A schema is built exactly from lists that describe one, and other lists are refused for their first
defect. `Schema.Indexes` says what a built schema is good for. Names and places go over into each
other in both directions, for the keys and for the symbols of every key, a key is found together
with a value exactly if both are listed, and the definitions of the schema build it again. The
tables that are filled in the same pass tell the same places.
-/

namespace QuestionTree

namespace Schema

/-- Whether a schema lists keys with their symbols and finds each of them where it stands. -/
structure Indexes (s : Schema) (keys : List String) (values : List (List String)) : Prop where
  keys_eq : s.keys = keys
  /-- There is a vocabulary at the places of the keys and at no others. -/
  vocabulary_iff : ∀ (i : Nat) (v : Vocabulary),
    s.requireVocabulary i = .ok v ↔ values[i]? = some v.symbols
  key_iff : ∀ (name : String) (i : Nat), s.key? name = some i ↔ keys[i]? = some name
  symbol_iff : ∀ (i : Nat) (v : Vocabulary), s.requireVocabulary i = .ok v →
    ∀ (symbol : String) (j : Nat), v.index? symbol = some j ↔ v.symbols[j]? = some symbol
  value_iff : ∀ (key value : String) (i j : Nat), s.requireValue key value = .ok (i, j) ↔
    keys[i]? = some key ∧ ∃ symbols, values[i]? = some symbols ∧ symbols[j]? = some value
  /-- A pair that is not listed is refused. -/
  listed_iff : ∀ (key value : String), (∃ places, s.requireValue key value = .ok places) ↔
    ∃ (i : Nat) (symbols : List String), keys[i]? = some key ∧ values[i]? = some symbols ∧
      value ∈ symbols
  rebuilt : ofDefinitions s.definitions = .ok s ∧
    ofLists (s.definitions.map Definition.key) (s.definitions.map Definition.values) = .ok s
  /-- The tables tell the places of the keys and of the symbols of every key. -/
  tabled : ∃ t, TabledSchema.ofLists keys values = .ok t ∧ t.keys = keys ∧
    t.vocabularies.map TabledVocabulary.symbols = values ∧ t.table.Inverts keys ∧
      ∀ v ∈ t.vocabularies, v.table.Inverts v.symbols

variable {keys : List String} {values : List (List String)} {s : Schema}

theorem built_of_ofLists (h : ofLists keys values = .ok s) : s.Built := by
  have hlength := (ofLists_eq_ok_iff.1 h).1.length_eq
  rw [ofLists_eq_of_length hlength] at h
  refine ⟨definitionsOf keys values, ?_⟩
  cases hbuilt : ofDefinitions (definitionsOf keys values) with
  | error refusal =>
    rw [hbuilt] at h
    cases h
  | ok s' =>
    rw [hbuilt] at h
    exact congrArg Except.ok (Except.ok.inj h)

theorem keys_of_ofLists (h : ofLists keys values = .ok s) : s.keys = keys := by
  obtain ⟨hdescribes, rfl⟩ := ofLists_eq_ok_iff.1 h
  rw [Schema.keys, List.map_map]
  exact map_key_definitionsOf hdescribes.length_eq

theorem symbols_of_ofLists (h : ofLists keys values = .ok s) :
    s.properties.map (fun p => p.vocabulary.symbols) = values := by
  obtain ⟨hdescribes, rfl⟩ := ofLists_eq_ok_iff.1 h
  rw [List.map_map]
  exact map_values_definitionsOf hdescribes.length_eq

/-- A property stands where its key and its symbols do. -/
theorem exists_property_iff (h : ofLists keys values = .ok s) {i : Nat} {key : String}
    {symbols : List String} :
    (∃ p, s.properties[i]? = some p ∧ p.key = key ∧ p.vocabulary.symbols = symbols) ↔
      keys[i]? = some key ∧ values[i]? = some symbols := by
  have hkey : keys[i]? = s.properties[i]?.map Property.key := by
    rw [← keys_of_ofLists h, Schema.keys, List.getElem?_map]
  have hsymbols : values[i]? = s.properties[i]?.map fun p => p.vocabulary.symbols := by
    rw [← symbols_of_ofLists h, List.getElem?_map]
  rw [hkey, hsymbols]
  cases s.properties[i]? <;> simp

theorem Built.ofLists_definitions (h : s.Built) :
    ofLists (s.definitions.map Definition.key) (s.definitions.map Definition.values) = .ok s := by
  have hlists : definitionsOf (s.definitions.map Definition.key)
      (s.definitions.map Definition.values) = s.definitions := by
    simp [definitionsOf, List.zipWith_map]
  rw [ofLists_eq_of_length (by simp), hlists, h.ofDefinitions_definitions]

theorem indexes_of_ofLists (h : ofLists keys values = .ok s) : s.Indexes keys values := by
  have hbuilt := built_of_ofLists h
  have hkeys := keys_of_ofLists h
  have hvalue : ∀ (key value : String) (i j : Nat), s.requireValue key value = .ok (i, j) ↔
      keys[i]? = some key ∧ ∃ symbols, values[i]? = some symbols ∧ symbols[j]? = some value := by
    intro key value i j
    rw [hbuilt.requireValue_eq_ok_iff]
    constructor
    · rintro ⟨p, hp, hkey, hj⟩
      obtain ⟨hi, hsymbols⟩ := (exists_property_iff h).1 ⟨p, hp, hkey, rfl⟩
      exact ⟨hi, p.vocabulary.symbols, hsymbols, hj⟩
    · rintro ⟨hi, symbols, hsymbols, hj⟩
      obtain ⟨p, hp, hkey, rfl⟩ := (exists_property_iff h).2 ⟨hi, hsymbols⟩
      exact ⟨p, hp, hkey, hj⟩
  obtain ⟨t, ht, htables⟩ := TabledSchema.exists_ofLists h
  refine
    { keys_eq := hkeys
      vocabulary_iff := fun i v => ?_
      key_iff := fun name i => by rw [key?_eq_some_iff hbuilt.nodup_keys, hkeys]
      symbol_iff := fun i v hv symbol j => ?_
      value_iff := hvalue
      listed_iff := fun key value => ?_
      rebuilt := ⟨hbuilt.ofDefinitions_definitions, hbuilt.ofLists_definitions⟩
      tabled := ⟨t, ht, ?_, ?_, ?_, ?_⟩ }
  · rw [requireVocabulary_eq_ok_iff, vocabulary?, ← symbols_of_ofLists h, List.getElem?_map]
    cases s.properties[i]? with
    | none => simp
    | some p =>
      simp only [Option.map_some, Option.some_inj]
      exact ⟨congrArg Vocabulary.symbols, congrArg Vocabulary.mk⟩
  · rw [requireVocabulary_eq_ok_iff] at hv
    obtain ⟨p, hp, rfl⟩ := Option.map_eq_some_iff.1 hv
    exact idxOf?_eq_some_iff_getElem? (hbuilt.nodup_symbols (List.mem_of_getElem? hp))
  · constructor
    · rintro ⟨⟨i, j⟩, hplaces⟩
      obtain ⟨hi, symbols, hsymbols, hj⟩ := (hvalue key value i j).1 hplaces
      exact ⟨i, symbols, hi, hsymbols, List.mem_of_getElem? hj⟩
    · rintro ⟨i, symbols, hi, hsymbols, hmem⟩
      obtain ⟨j, hj⟩ := List.mem_iff_getElem?.1 hmem
      exact ⟨(i, j), (hvalue key value i j).2 ⟨hi, symbols, hsymbols, hj⟩⟩
  · exact htables.keys_eq.trans hkeys
  · exact htables.map_symbols.trans (symbols_of_ofLists h)
  · rw [← hkeys]
    exact htables.inverts
  · intro v hv
    obtain ⟨i, hi⟩ := List.mem_iff_getElem?.1 hv
    obtain ⟨w, _, hw⟩ := exists_getElem?_of_forall₂ htables.vocabularies hi
    rw [hw.symbols_eq]
    exact hw.inverts

/-- Lists of keys and of their symbols are built exactly if they describe a schema, and the schema
then finds every name where it stands. Other lists are refused for the first thing that is wrong
with them, with tables as without. -/
theorem ofLists_indexes (keys : List String) (values : List (List String)) :
    ((∃ s, ofLists keys values = .ok s) ↔ Describes keys values) ∧
    (∀ e, ofLists keys values = .error e ↔ FirstDefect keys values e) ∧
    (∀ e, ofLists keys values = .error e → TabledSchema.ofLists keys values = .error e) ∧
    ∀ s, ofLists keys values = .ok s → s.Indexes keys values := by
  refine ⟨⟨?_, fun h => ⟨_, ofLists_eq_ok_iff.2 ⟨h, rfl⟩⟩⟩, fun e => ofLists_eq_error_iff,
    fun e => TabledSchema.ofLists_error, fun s => indexes_of_ofLists⟩
  rintro ⟨s, hs⟩
  exact (ofLists_eq_ok_iff.1 hs).1

/-- The schema of a color and a size, with its places. -/
theorem indexes_color_and_size :
    ofLists ["color", "size"] [["red", "blue"], ["small", "medium", "large"]] =
      .ok ⟨[⟨"color", ⟨["red", "blue"]⟩⟩, ⟨"size", ⟨["small", "medium", "large"]⟩⟩]⟩ ∧
    Indexes ⟨[⟨"color", ⟨["red", "blue"]⟩⟩, ⟨"size", ⟨["small", "medium", "large"]⟩⟩]⟩
      ["color", "size"] [["red", "blue"], ["small", "medium", "large"]] := by
  have hbuilt : ofLists ["color", "size"] [["red", "blue"], ["small", "medium", "large"]] =
      .ok ⟨[⟨"color", ⟨["red", "blue"]⟩⟩, ⟨"size", ⟨["small", "medium", "large"]⟩⟩]⟩ := by
    decide +kernel
  exact ⟨hbuilt, (ofLists_indexes _ _).2.2.2 _ hbuilt⟩

end Schema

end QuestionTree
