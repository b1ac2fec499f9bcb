import QuestionTree.Proofs.Record.Stored

/-!
# Histories of records

A record is made from pairs of names or from indices and then written to. Whatever was written, also
with refused writes in between, each of its words stays valid, the value of a key is the one from
the start or the one that the last write with an effect on the key has left, and the pairs of the
record make the same record again.
-/

namespace QuestionTree

/-- The stored record that is made. -/
def StoredRecord.build (schema : Schema) : Record.Origin → Except Error StoredRecord
  | .pairs listed => ofPairs schema listed
  | .indices words => ofIndices schema words

namespace Record

/-- The value that a record made has for the key at a place: what the last pair with its name gives,
or what its index stands for. -/
def Origin.start? (k : Nat) (p : Property) : Origin → Option Nat
  | .pairs listed => (lastValue? listed p.key).bind p.vocabulary.index?
  | .indices listed => listed[k]?.bind decode

variable {schema : Schema} {r : Record}

theorem Origin.stored_build (origin : Origin) :
    StoredRecord.build schema origin = Record.stored <$> origin.build schema := by
  cases origin with
  | pairs listed => exact StoredRecord.ofPairs_eq schema listed
  | indices words => exact StoredRecord.ofIndices_eq schema words

/-! ### Records from pairs -/

theorem value?_of_ofPairs (hschema : schema.Built) {listed : List (String × String)}
    (h : ofPairs schema listed = .ok r) {k : Nat} {p : Property}
    (hp : schema.properties[k]? = some p) :
    r.value? k = (Origin.pairs listed).start? k p := by
  have htells := tells_of_ofPairs hschema h
  rw [Origin.start?]
  cases hlast : lastValue? listed p.key with
  | none => exact htells.unknown k p hp hlast
  | some value =>
    obtain ⟨v, hv, hvalue⟩ := htells.known k p value hp hlast
    rw [hvalue]
    exact ((idxOf?_eq_some_iff_getElem?
      (hschema.nodup_symbols (List.mem_of_getElem? hp))).2 hv).symm

theorem fits_of_ofPairs (hschema : schema.Built) {listed : List (String × String)}
    (h : ofPairs schema listed = .ok r) : r.Fits schema := by
  have htells := tells_of_ofPairs hschema h
  refine ⟨htells.schema_eq, htells.length_eq, fun k p v hp hv => ?_⟩
  rw [value?_of_ofPairs hschema h hp] at hv
  obtain ⟨value, _, hindex⟩ := Option.bind_eq_some_iff.1 hv
  obtain ⟨hlt, _⟩ := List.idxOf?_eq_some_iff.1 hindex
  exact hlt

/-! ### Records from indices -/

/-- Whether there is an index for each key, which is the place of a symbol unless it is the one of
what is not defined. -/
structure Listed (schema : Schema) (indices : List Nat) : Prop where
  length_eq : indices.length = schema.size
  valid : ∀ (k : Nat) (p : Property) (index : Nat), schema.properties[k]? = some p →
    indices[k]? = some index → index = undefinedIndex ∨ index < p.vocabulary.size

theorem listed_iff {indices : List Nat} (hlength : indices.length = schema.size) :
    Listed schema indices ↔ ∀ x ∈ indices.zipIdx,
      x.1 = undefinedIndex ∨ x.1 < ((schema.vocabulary? x.2).getD ⟨[]⟩).size := by
  constructor
  · rintro h ⟨index, k⟩ hmem
    have hindex := List.mem_zipIdx_iff_getElem?.1 hmem
    have hk : k < schema.size := by
      rw [← hlength]
      exact (List.getElem?_eq_some_iff.1 hindex).1
    have hp : schema.properties[k]? = some schema.properties[k] := List.getElem?_eq_getElem hk
    rw [Schema.vocabulary?, hp]
    exact h.valid k _ index hp hindex
  · refine fun h => ⟨hlength, fun k p index hp hindex => ?_⟩
    have hvalid := h (index, k) (List.mem_zipIdx_iff_getElem?.2 hindex)
    rw [Schema.vocabulary?, hp] at hvalid
    exact hvalid

theorem ofIndices_eq_ok_iff {indices : List Nat} :
    ofIndices schema indices = .ok r ↔
      schema.isSet = true ∧ Listed schema indices ∧ r = ⟨schema, indices.map decode⟩ := by
  rw [ofIndices_def, bind_eq_ok_iff, ← Schema.requireSet_eq_ok_iff]
  constructor
  · rintro ⟨⟨⟩, hset, h⟩
    split at h
    · cases h
    · rename_i hlength
      obtain ⟨values, hvalues, h⟩ := bind_eq_ok_iff.1 h
      cases h
      refine ⟨hset, (listed_iff (Decidable.not_not.1 hlength)).2 fun x hx => ?_, ?_⟩
      · obtain ⟨value, hvalue⟩ := exists_mapM_eq_ok_iff.1 ⟨values, hvalues⟩ x hx
        exact (checkIndex_eq_ok_iff.1 hvalue).2
      · rw [eq_map_decode hvalues]
  · rintro ⟨hset, hlisted, rfl⟩
    have hvalid := (listed_iff hlisted.length_eq).1 hlisted
    have hall : ∀ x ∈ indices.zipIdx, ∃ value, checkIndex schema x.2 x.1 = .ok value :=
      fun x hx => ⟨decode x.1, checkIndex_eq_ok_iff.2 ⟨rfl, hvalid x hx⟩⟩
    obtain ⟨values, hvalues⟩ := exists_mapM_eq_ok_iff.2 hall
    refine ⟨(), hset, ?_⟩
    rw [if_neg (not_not.2 hlisted.length_eq)]
    exact bind_eq_ok_iff.2 ⟨values, hvalues, by rw [eq_map_decode hvalues]; rfl⟩

theorem value?_of_ofIndices {indices : List Nat} (h : ofIndices schema indices = .ok r) (k : Nat)
    (p : Property) : r.value? k = (Origin.indices indices).start? k p := by
  obtain ⟨_, _, rfl⟩ := ofIndices_eq_ok_iff.1 h
  rw [value?, List.getElem?_map, Origin.start?]
  cases indices[k]? <;> rfl

theorem fits_of_ofIndices {indices : List Nat} (h : ofIndices schema indices = .ok r) :
    r.Fits schema := by
  obtain ⟨_, hlisted, hr⟩ := ofIndices_eq_ok_iff.1 h
  refine ⟨by rw [hr], by rw [hr, List.length_map, hlisted.length_eq], fun k p v hp hv => ?_⟩
  rw [value?_of_ofIndices h k p] at hv
  obtain ⟨index, hindex, hdecode⟩ := Option.bind_eq_some_iff.1 hv
  rw [decode] at hdecode
  split at hdecode
  · cases hdecode
  · rename_i hdefined
    cases hdecode
    exact (hlisted.valid k p _ hp hindex).resolve_left hdefined

/-! ### Records that are made -/

theorem isSet_of_build {origin : Origin} (h : origin.build schema = .ok r) :
    schema.isSet = true := by
  cases origin with
  | pairs listed =>
    obtain ⟨start, hstart, _⟩ := bind_eq_ok_iff.1 h
    obtain ⟨⟨⟩, hset, _⟩ := bind_eq_ok_iff.1 hstart
    exact Schema.requireSet_eq_ok_iff.1 hset
  | indices listed =>
    obtain ⟨⟨⟩, hset, _⟩ := bind_eq_ok_iff.1 h
    exact Schema.requireSet_eq_ok_iff.1 hset

theorem fits_of_build (hschema : schema.Built) {origin : Origin}
    (h : origin.build schema = .ok r) : r.Fits schema := by
  cases origin with
  | pairs listed => exact fits_of_ofPairs hschema h
  | indices listed => exact fits_of_ofIndices h

theorem value?_of_build (hschema : schema.Built) {origin : Origin}
    (h : origin.build schema = .ok r) {k : Nat} {p : Property}
    (hp : schema.properties[k]? = some p) : r.value? k = origin.start? k p := by
  cases origin with
  | pairs listed => exact value?_of_ofPairs hschema h hp
  | indices listed => exact value?_of_ofIndices h k p

theorem Made.fits (hschema : schema.Built) (h : Made schema r) : r.Fits schema := by
  obtain ⟨origin, start, writes, hstart, rfl⟩ := h
  exact (fits_of_build hschema hstart).applyAll hschema writes

/-! ### Records from their own pairs -/

theorem Fits.requireValue_names (hschema : schema.Built) (h : r.Fits schema) {k v : Nat}
    (hv : r.value? k = some v) :
    schema.requireValue (r.schema.keyName k) (r.symbolAt k v) = .ok (k, v) := by
  have hk : k < schema.size := by
    by_contra hk
    rw [h.value?_eq_none (Nat.le_of_not_lt hk)] at hv
    cases hv
  obtain ⟨p, hp⟩ : ∃ p, schema.properties[k]? = some p := ⟨_, List.getElem?_eq_getElem hk⟩
  have hname : r.schema.keyName k = p.key := by
    rw [h.schema_eq, Schema.keyName, Schema.keys, List.getElem?_map, hp]
    rfl
  have hlt : v < p.vocabulary.symbols.length := h.value_lt k p v hp hv
  have hsymbol : p.vocabulary.symbols[v]? = some (r.symbolAt k v) := by
    rw [symbolAt, h.schema_eq, Schema.vocabulary?, hp]
    simp [Vocabulary.symbol, hlt]
  exact hschema.requireValue_eq_ok_iff.2 ⟨p, hp, hname.symm, hsymbol⟩

/-- The pairs of the last keys, set where the first keys have their values already. -/
theorem Fits.setAll_pairs (hschema : schema.Built) (h : r.Fits schema)
    (first last : List (Option Nat)) (hvalues : r.values = first ++ last) :
    ((last.zipIdx first.length).filterMap fun (value, k) =>
        value.map fun v => (r.schema.keyName k, r.symbolAt k v)).foldlM
      (fun (r : Record) (key, value) => r.set key value)
      ⟨schema, first ++ List.replicate last.length none⟩ = .ok r := by
  induction last generalizing first with
  | nil =>
    rw [List.length_nil, List.replicate_zero, ← hvalues, ← h.schema_eq]
    rfl
  | cons value last ih =>
    -- one more key has its value already when the rest is set, known or not
    have hrest := ih (first ++ [value]) (by rw [hvalues, ← List.append_cons])
    rw [List.length_append, List.length_singleton, ← List.append_cons] at hrest
    rw [List.zipIdx_cons, List.length_cons, List.replicate_succ]
    cases value with
    | none => exact hrest
    | some v =>
      have hv : r.value? first.length = some v := by
        rw [value?, hvalues, List.getElem?_append_right (Nat.le_refl _), Nat.sub_self]
        rfl
      have hset : set ⟨schema, first ++ none :: List.replicate last.length none⟩
          (r.schema.keyName first.length) (r.symbolAt first.length v) =
            .ok ⟨schema, first ++ some v :: List.replicate last.length none⟩ := by
        show schema.requireValue _ _ >>= _ = _
        rw [h.requireValue_names hschema hv]
        simp [bind, Except.bind, pure, Except.pure]
      show set _ _ _ >>= _ = _
      rw [hset]
      exact hrest

theorem Fits.ofPairs_pairs (hschema : schema.Built) (hset : schema.isSet = true)
    (h : r.Fits schema) : ofPairs schema r.pairs = .ok r := by
  have hblank : blank schema = .ok ⟨schema, List.replicate schema.size none⟩ := by
    rw [blank, Schema.requireSet_eq_ok_iff.2 hset]
    rfl
  have hset := h.setAll_pairs hschema [] r.values rfl
  rw [h.length_eq] at hset
  rw [ofPairs, hblank]
  exact hset

/-! ### What a history leaves -/

/-- What is true of a record after writes. -/
structure Kept (schema : Schema) (origin : Origin) (writes : List Write) (r : Record) : Prop where
  /-- There is a word for each key, which is the last one or the place of a symbol. -/
  length_eq : r.stored.words.length = schema.size
  word_valid : ∀ (k : Nat) (p : Property) (word : Nat), schema.properties[k]? = some p →
    r.stored.words[k]? = some word → word = undefinedIndex ∨ word < p.vocabulary.size
  /-- The words are those of the stored record that is made and written to in place. -/
  stored_eq : (·.applyAll writes) <$> StoredRecord.build schema origin = .ok r.stored
  /-- A key has what the last write with an effect on it left, or the value from the start. -/
  value_eq : ∀ (k : Nat) (p : Property), schema.properties[k]? = some p →
    r.value? k = (writes.filterMap (Write.effect? p)).getLast?.getD (origin.start? k p)
  value_none : ∀ k, schema.size ≤ k → r.value? k = none
  /-- One more write is refused exactly if it has no effect on any key. -/
  refused_iff : ∀ w : Write,
    (∃ e, w.attempt r = .error e) ↔ ∀ p ∈ schema.properties, w.effect? p = none
  /-- A refused write leaves the record, and what is stored of it, as it was. -/
  unchanged : ∀ (w : Write) (e : Error), w.attempt r = .error e →
    (StoredRecord.write w).run.run r.stored = (.error e, r.stored)
  /-- A write that is not refused gives its value to its key and to no other. -/
  written : ∀ (w : Write) (r' : Record), w.attempt r = .ok r' →
    (StoredRecord.write w).run.run r.stored = (.ok (), r'.stored) ∧
      ∀ (k : Nat) (p : Property), schema.properties[k]? = some p →
        r'.value? k = (w.effect? p).getD (r.value? k) ∧
        (w.key ≠ p.key → r'.value? k = r.value? k)
  /-- The pairs of the record make it again, also stored. -/
  rebuilt : ofPairs schema r.pairs = .ok r ∧ StoredRecord.ofPairs schema r.pairs = .ok r.stored
  /-- As long as symbols are counted in words, the words are read as the record is. -/
  read_eq : schema.Addressable → (∀ k, r.stored.value? k = r.value? k) ∧ r.stored.pairs = r.pairs

theorem Fits.kept (hschema : schema.Built) {origin : Origin} {start : Record}
    (hstart : origin.build schema = .ok start) (writes : List Write) :
    Kept schema origin writes (start.applyAll writes) := by
  have hfitsStart := fits_of_build hschema hstart
  have hfits := hfitsStart.applyAll hschema writes
  have hset := isSet_of_build hstart
  have hrebuilt := hfits.ofPairs_pairs hschema hset
  refine
    { length_eq := ?_
      word_valid := fun k p word => StoredRecord.word_valid hfits
      stored_eq := ?_
      value_eq := fun k p hp => ?_
      value_none := fun k => hfits.value?_eq_none
      refused_iff := fun w => Write.exists_error_iff hschema hfits.schema_eq
      unchanged := fun w e he => ?_
      written := fun w r' hr' => ⟨?_, fun k p hp => ?_⟩
      rebuilt := ⟨hrebuilt, ?_⟩
      read_eq := fun haddressable => ⟨fun k => StoredRecord.value?_stored hfits haddressable k,
        StoredRecord.pairs_stored hfits haddressable⟩ }
  · rw [stored, List.length_map, hfits.length_eq]
  · rw [origin.stored_build, hstart]
    exact congrArg Except.ok (StoredRecord.applyAll_stored start writes)
  · rw [hfitsStart.value?_applyAll hschema writes hp, value?_of_build hschema hstart hp]
  · rw [StoredRecord.run_write, he, apply_of_error he]
    rfl
  · rw [StoredRecord.run_write, hr', apply_of_ok hr']
    rfl
  · have hvalue := hfits.value?_apply hschema w hp
    rw [apply_of_ok hr'] at hvalue
    refine ⟨hvalue, fun hkey => ?_⟩
    rw [hvalue, Write.effect?_of_ne hkey, Option.getD_none]
  · rw [StoredRecord.ofPairs_eq, hrebuilt]
    rfl

/-- Records of a schema stay valid whatever is written to them, and indices make a record exactly if
there is a valid one for each key. -/
theorem kept_of_history (hschema : schema.Built) (hset : schema.isSet = true) :
    (∀ (origin : Origin) (start : Record) (writes : List Write),
      origin.build schema = .ok start → Kept schema origin writes (start.applyAll writes)) ∧
    ∀ indices, (∃ r, ofIndices schema indices = .ok r) ↔ Listed schema indices :=
  ⟨fun _ _ writes hstart => Fits.kept hschema hstart writes,
    fun _ => ⟨fun ⟨_, hr⟩ => (ofIndices_eq_ok_iff.1 hr).2.1,
      fun hlisted => ⟨_, ofIndices_eq_ok_iff.2 ⟨hset, hlisted, rfl⟩⟩⟩⟩

def colorAndSize : Schema :=
  ⟨[⟨"color", ⟨["red", "blue"]⟩⟩, ⟨"size", ⟨["small", "medium", "large"]⟩⟩]⟩

theorem built_colorAndSize : colorAndSize.Built :=
  ⟨[⟨"color", ["red", "blue"]⟩, ⟨"size", ["small", "medium", "large"]⟩], by decide +kernel⟩

/-- A blue thing that is large for a while, is not green and turns red. -/
theorem kept_blue_to_red :
    (Origin.pairs [("color", "blue")]).build colorAndSize = .ok ⟨colorAndSize, [some 1, none]⟩ ∧
    Kept colorAndSize (.pairs [("color", "blue")])
      [.set "size" "large", .set "color" "green", .set "color" "red", .unset "size"]
      ⟨colorAndSize, [some 0, none]⟩ := by
  have hstart : (Origin.pairs [("color", "blue")]).build colorAndSize =
      .ok ⟨colorAndSize, [some 1, none]⟩ := by decide +kernel
  have hend : applyAll ⟨colorAndSize, [some 1, none]⟩
      [.set "size" "large", .set "color" "green", .set "color" "red", .unset "size"] =
      ⟨colorAndSize, [some 0, none]⟩ := by decide +kernel
  refine ⟨hstart, ?_⟩
  rw [← hend]
  exact (kept_of_history built_colorAndSize rfl).1 _ _ _ hstart

end Record

end QuestionTree
