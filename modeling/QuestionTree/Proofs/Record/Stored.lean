import QuestionTree.Proofs.Question.Built
import QuestionTree.Proofs.Record.Writes

/-!
# Records as words

A record is stored as one word for each key, where the last word stands for what is not known. It is
written to in place, so that what is changed before a failure stays changed. `Record.stored` gives
the words of a record. Making a stored record and writing to it comes to the same as making the
record and writing to it, also where this fails. As long as symbols are counted in words, no symbol
stands at the last word, and the words are read as the record is.
-/

namespace QuestionTree

/-- A record as a word for each key. -/
structure StoredRecord where
  schema : Schema
  words : List Nat
  deriving DecidableEq, Repr

/-- The words of a record. -/
def Record.stored (r : Record) : StoredRecord :=
  ⟨r.schema, r.values.map (·.getD undefinedIndex)⟩

namespace StoredRecord

/-- Operations on a stored record that change it in place and may fail. -/
abbrev InPlace := ExceptT Error (StateM StoredRecord)

def write : Record.Write → InPlace Unit
  | .set key value => do
    let places ← liftExcept ((← get).schema.requireValue key value)
    modify fun s => { s with words := s.words.set places.1 places.2 }
  | .unset key => do
    let place ← liftExcept ((← get).schema.requireKey key)
    modify fun s => { s with words := s.words.set place undefinedIndex }

def setAll (listed : List (String × String)) : InPlace Unit :=
  listed.forM fun pair => write (.set pair.1 pair.2)

/-- The stored record after writes, some of which may have failed. -/
def applyAll (s : StoredRecord) (ws : List Record.Write) : StoredRecord :=
  ws.foldl (fun s w => ((write w).run.run s).2) s

def blank (schema : Schema) : Except Error StoredRecord := do
  schema.requireSet
  return ⟨schema, List.replicate schema.size undefinedIndex⟩

def ofPairs (schema : Schema) (listed : List (String × String)) : Except Error StoredRecord := do
  let start ← blank schema
  let (result, s) := (setAll listed).run.run start
  (fun _ => s) <$> result

/-- Refuses a word that is neither the last one nor the place of a symbol. -/
def checkWord (schema : Schema) (k word : Nat) : Except Error Unit :=
  if word ≠ undefinedIndex ∧ ((schema.vocabulary? k).getD ⟨[]⟩).size ≤ word then
    .error (.valueOutOfRange (schema.keyName k) word)
  else .ok ()

def ofIndices (schema : Schema) (words : List Nat) : Except Error StoredRecord := do
  schema.requireSet
  if words.length ≠ schema.size then throw (.mismatchedCounts schema.size words.length)
  words.zipIdx.forM fun x => checkWord schema x.2 x.1
  return ⟨schema, words⟩

def value? (s : StoredRecord) (k : Nat) : Option Nat := s.words[k]?.bind Record.decode

def pairs (s : StoredRecord) : List (String × String) :=
  s.words.zipIdx.filterMap fun x => (Record.decode x.1).map fun v =>
    (s.schema.keyName x.2, ((s.schema.vocabulary? x.2).getD ⟨[]⟩).symbol v)

variable {schema : Schema} {r : Record}

/-! ### Writing in place -/

theorem run_set (key value : String) (s : StoredRecord) :
    (write (.set key value)).run.run s =
      match s.schema.requireValue key value with
      | .ok places => (.ok (), { s with words := s.words.set places.1 places.2 })
      | .error e => (.error e, s) := by
  show (liftExcept (s.schema.requireValue key value) >>= fun places =>
    (modify fun s => { s with words := s.words.set places.1 places.2 } :
      InPlace Unit)).run.run s = _
  rw [run_bind_liftExcept]
  cases s.schema.requireValue key value <;> rfl

theorem run_unset (key : String) (s : StoredRecord) :
    (write (.unset key)).run.run s =
      match s.schema.requireKey key with
      | .ok place => (.ok (), { s with words := s.words.set place undefinedIndex })
      | .error e => (.error e, s) := by
  show (liftExcept (s.schema.requireKey key) >>= fun place =>
    (modify fun s => { s with words := s.words.set place undefinedIndex } :
      InPlace Unit)).run.run s =
      _
  rw [run_bind_liftExcept]
  cases s.schema.requireKey key <;> rfl

theorem stored_setValue (r : Record) (k : Nat) (value : Option Nat) :
    Record.stored { r with values := r.values.set k value } =
      { r.stored with words := r.stored.words.set k (value.getD undefinedIndex) } := by
  simp [Record.stored, List.map_set]

/-- A write in place stores the record after it, and nothing else if it is refused. -/
theorem run_write (w : Record.Write) (r : Record) :
    (write w).run.run r.stored = ((fun _ => ()) <$> w.attempt r, (r.apply w).stored) := by
  have hschema : r.stored.schema = r.schema := rfl
  cases w with
  | set key value =>
    rw [run_set, hschema, Record.apply, Record.Write.attempt_set]
    cases r.schema.requireValue key value with
    | error e => rfl
    | ok places => exact Prod.ext rfl (stored_setValue r places.1 (some places.2)).symm
  | unset key =>
    rw [run_unset, hschema, Record.apply, Record.Write.attempt_unset]
    cases r.schema.requireKey key with
    | error e => rfl
    | ok place => exact Prod.ext rfl (stored_setValue r place none).symm

theorem applyAll_stored (r : Record) (ws : List Record.Write) :
    r.stored.applyAll ws = (r.applyAll ws).stored := by
  induction ws generalizing r with
  | nil => rfl
  | cons w ws ih =>
    rw [applyAll, List.foldl_cons, run_write]
    exact ih (r.apply w)

/-! ### Making stored records -/

theorem blank_eq (schema : Schema) : blank schema = Record.stored <$> Record.blank schema := by
  rw [blank, Record.blank]
  cases schema.requireSet with
  | error e => rfl
  | ok _ => simp [bind, Except.bind, pure, Except.pure, Functor.map, Except.map, Record.stored]

theorem run_setAll (listed : List (String × String)) (r : Record) :
    (fun _ => ((setAll listed).run.run r.stored).2) <$> ((setAll listed).run.run r.stored).1 =
      Record.stored <$> listed.foldlM (fun r (key, value) => r.set key value) r := by
  induction listed generalizing r with
  | nil => rfl
  | cons pair listed ih =>
    have hcons : setAll (pair :: listed) = write (.set pair.1 pair.2) >>= fun _ => setAll listed :=
      rfl
    rw [hcons, run_bind, run_write, List.foldlM_cons]
    show _ = Record.stored <$> ((Record.Write.set pair.1 pair.2).attempt r >>= _)
    cases hset : (Record.Write.set pair.1 pair.2).attempt r with
    | error e => rfl
    | ok r' =>
      rw [Record.apply_of_ok hset]
      exact ih r'

/-- Pairs make the stored record of the record that they make. -/
theorem ofPairs_eq (schema : Schema) (listed : List (String × String)) :
    ofPairs schema listed = Record.stored <$> Record.ofPairs schema listed := by
  rw [ofPairs, Record.ofPairs, blank_eq]
  cases Record.blank schema with
  | error e => rfl
  | ok start => exact run_setAll listed start

theorem checkWord_eq (schema : Schema) (k word : Nat) :
    checkWord schema k word = (fun _ => ()) <$> Record.checkIndex schema k word := by
  rw [checkWord, Record.checkIndex]
  by_cases hundefined : word = undefinedIndex
  · simp [hundefined, Functor.map, Except.map]
  · by_cases hlt : word < ((schema.vocabulary? k).getD ⟨[]⟩).size
    · simp [hundefined, hlt, Functor.map, Except.map]
    · simp [hundefined, hlt, Functor.map, Except.map]

theorem map_getD_decode (words : List Nat) :
    (words.map Record.decode).map (·.getD undefinedIndex) = words := by
  rw [List.map_map]
  refine (List.map_congr_left fun word _ => ?_).trans words.map_id
  show (Record.decode word).getD undefinedIndex = word
  rw [Record.decode]
  split
  · rename_i hundefined
    exact hundefined.symm
  · rfl

theorem ofIndices_eq (schema : Schema) (words : List Nat) :
    ofIndices schema words = Record.stored <$> Record.ofIndices schema words := by
  have hcheck : words.zipIdx.forM (fun x => checkWord schema x.2 x.1) =
      (fun _ => ()) <$> words.zipIdx.mapM fun x => Record.checkIndex schema x.2 x.1 :=
    forM_eq_map_mapM fun x => checkWord_eq schema x.2 x.1
  rw [ofIndices, Record.ofIndices_def]
  cases schema.requireSet with
  | error e => rfl
  | ok _ =>
    by_cases hcount : words.length ≠ schema.size
    · simp only [if_pos hcount]
      rfl
    · simp only [if_neg hcount, hcheck]
      cases hvalues : words.zipIdx.mapM fun x => Record.checkIndex schema x.2 x.1 with
      | error e => rfl
      | ok values =>
        show Except.ok (StoredRecord.mk schema words) = .ok (Record.mk schema values).stored
        rw [Record.stored, Record.eq_map_decode hvalues, map_getD_decode]

/-! ### Reading stored records -/

theorem decode_getD {value : Option Nat} (h : value ≠ some undefinedIndex) :
    Record.decode (value.getD undefinedIndex) = value := by
  cases value with
  | none => exact if_pos rfl
  | some v => exact if_neg fun heq => h (congrArg some heq)

theorem word_valid (h : r.Fits schema) {k word : Nat} {p : Property}
    (hp : schema.properties[k]? = some p) (hword : r.stored.words[k]? = some word) :
    word = undefinedIndex ∨ word < p.vocabulary.size := by
  obtain ⟨value, hvalue, rfl⟩ := (List.getElem?_map ..).symm.trans hword |> Option.map_eq_some_iff.1
  cases value with
  | none => exact .inl rfl
  | some v =>
    apply Or.inr
    apply h.value_lt k p v hp
    rw [Record.value?, hvalue]
    rfl

section Addressable

variable (h : r.Fits schema) (haddressable : schema.Addressable)

include h haddressable

/-- No symbol stands at the last word. -/
theorem ne_undefinedIndex {k : Nat} {value : Option Nat} (hvalue : r.values[k]? = some value) :
    value ≠ some undefinedIndex := by
  rintro rfl
  have hk : k < schema.size := by
    rw [← h.length_eq]
    exact (List.getElem?_eq_some_iff.1 hvalue).1
  have hp : schema.properties[k]? = some schema.properties[k] := List.getElem?_eq_getElem hk
  have hlt := h.value_lt k _ undefinedIndex hp (by rw [Record.value?, hvalue]; rfl)
  have hsize := haddressable.vocabulary_lt _ (List.mem_of_getElem? hp)
  rw [undefinedIndex] at hlt
  omega

theorem value?_stored (k : Nat) : r.stored.value? k = r.value? k := by
  rw [value?, Record.stored, List.getElem?_map, Record.value?]
  cases hvalue : r.values[k]? with
  | none => rfl
  | some value => exact decode_getD (ne_undefinedIndex h haddressable hvalue)

theorem pairs_stored : r.stored.pairs = r.pairs := by
  rw [pairs, Record.pairs, Record.stored, List.zipIdx_map, List.filterMap_map]
  apply List.filterMap_congr
  rintro ⟨value, k⟩ hmem
  have hvalue := ne_undefinedIndex h haddressable (List.mem_zipIdx_iff_getElem?.1 hmem)
  simp only [Function.comp, Prod.map, decode_getD hvalue, id]
  rfl

end Addressable

end StoredRecord

end QuestionTree
