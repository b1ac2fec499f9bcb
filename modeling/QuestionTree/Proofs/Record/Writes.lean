import QuestionTree.Proofs.Schema.Lookup

/-!
# Writes to records

A record comes about from pairs of names or from an index for each key, and is then written to by
the names of its keys. `Write.effect?` says what a write does to a property of the schema: it gives
a place of the vocabulary to it, or takes the value away, or leaves it alone. A write is refused
exactly if it has no effect on any property, and a refused write leaves the record as it was. So the
value of a key is the one that the last write with an effect on it has left, and writes to other
keys do not count.
-/

namespace QuestionTree

namespace Record

/-- A write to a record by the name of a key. -/
inductive Write where
  | set (key value : String)
  | unset (key : String)
  deriving DecidableEq, Repr

/-- The value that an index stands for, unless it is the one of what is not defined. -/
def decode (index : Nat) : Option Nat := if index = undefinedIndex then none else some index

/-- What a record is made from. -/
inductive Origin where
  | pairs (listed : List (String × String))
  /-- An index for each key, or the index of what is not defined. -/
  | indices (listed : List Nat)
  deriving DecidableEq, Repr

namespace Write

def key : Write → String
  | set key _ => key
  | unset key => key

def attempt (r : Record) : Write → Except Error Record
  | set key value => r.set key value
  | unset key => r.unset key

/-- The value that a write leaves to a property, if it has an effect on it. -/
def effect? (p : Property) : Write → Option (Option Nat)
  | set key value => if key = p.key then (p.vocabulary.index? value).map some else none
  | unset key => if key = p.key then some none else none

theorem effect?_of_ne {p : Property} {w : Write} (h : w.key ≠ p.key) : w.effect? p = none := by
  cases w with
  | set key value => exact if_neg h
  | unset key => exact if_neg h

end Write

/-- The record after a write. A write that is refused leaves it as it was. -/
def apply (r : Record) (w : Write) : Record := (w.attempt r).toOption.getD r

def applyAll (r : Record) (ws : List Write) : Record := ws.foldl apply r

def Origin.build (schema : Schema) : Origin → Except Error Record
  | .pairs listed => ofPairs schema listed
  | .indices listed => ofIndices schema listed

/-- Whether a record has come about by being made and written to. -/
def Made (schema : Schema) (r : Record) : Prop :=
  ∃ origin start writes, Origin.build schema origin = .ok start ∧ r = start.applyAll writes

/-- Whether the values of a record are those of keys of a schema. -/
structure Fits (r : Record) (schema : Schema) : Prop where
  schema_eq : r.schema = schema
  length_eq : r.values.length = schema.size
  /-- The value of a key is the place of one of its symbols. -/
  value_lt : ∀ (k : Nat) (p : Property) (v : Nat), schema.properties[k]? = some p →
    r.value? k = some v → v < p.vocabulary.size

/-! ### Single writes -/

variable {schema : Schema} {r r' : Record}

theorem Write.attempt_set (r : Record) (key name : String) :
    (Write.set key name).attempt r =
      (fun places => { r with values := r.values.set places.1 (some places.2) }) <$>
        r.schema.requireValue key name := by
  rw [attempt, Record.set]
  cases r.schema.requireValue key name <;> rfl

theorem Write.attempt_unset (r : Record) (key : String) :
    (Write.unset key).attempt r =
      (fun place => { r with values := r.values.set place none }) <$> r.schema.requireKey key := by
  rw [attempt, Record.unset]
  cases r.schema.requireKey key <;> rfl

theorem Write.attempt_eq_ok_iff (hschema : schema.Built) (hr : r.schema = schema) {w : Write} :
    w.attempt r = .ok r' ↔ ∃ k p value, schema.properties[k]? = some p ∧ w.effect? p = some value ∧
      r' = { r with values := r.values.set k value } := by
  cases w with
  | set key name =>
    rw [attempt_set, map_eq_ok_iff, hr]
    constructor
    · rintro ⟨⟨k, v⟩, hfound, rfl⟩
      obtain ⟨p, hp, rfl, hv⟩ := hschema.requireValue_eq_ok_iff.1 hfound
      refine ⟨k, p, some v, hp, ?_, rfl⟩
      rw [effect?, if_pos rfl, Vocabulary.index?,
        (idxOf?_eq_some_iff_getElem? (hschema.nodup_symbols (List.mem_of_getElem? hp))).2 hv]
      rfl
    · rintro ⟨k, p, value, hp, heffect, rfl⟩
      rw [effect?] at heffect
      split at heffect
      · rename_i hkey
        obtain ⟨v, hv, rfl⟩ := Option.map_eq_some_iff.1 heffect
        have hsymbol := (idxOf?_eq_some_iff_getElem?
          (hschema.nodup_symbols (List.mem_of_getElem? hp))).1 hv
        exact ⟨(k, v), hschema.requireValue_eq_ok_iff.2 ⟨p, hp, hkey.symm, hsymbol⟩, rfl⟩
      · cases heffect
  | unset key =>
    rw [attempt_unset, map_eq_ok_iff, hr]
    constructor
    · rintro ⟨k, hfound, rfl⟩
      obtain ⟨p, hp, rfl⟩ := hschema.requireKey_eq_ok_iff.1 hfound
      exact ⟨k, p, none, hp, if_pos rfl, rfl⟩
    · rintro ⟨k, p, value, hp, heffect, rfl⟩
      rw [effect?] at heffect
      split at heffect
      · rename_i hkey
        cases heffect
        exact ⟨k, hschema.requireKey_eq_ok_iff.2 ⟨p, hp, hkey.symm⟩, rfl⟩
      · cases heffect

theorem apply_of_ok {w : Write} (h : w.attempt r = .ok r') : r.apply w = r' := by
  rw [apply, h]
  rfl

theorem apply_of_error {w : Write} {e : Error} (h : w.attempt r = .error e) : r.apply w = r := by
  rw [apply, h]
  rfl

/-- A write is refused exactly if it has no effect. -/
theorem Write.exists_error_iff (hschema : schema.Built) (hr : r.schema = schema) {w : Write} :
    (∃ e, w.attempt r = .error e) ↔ ∀ p ∈ schema.properties, w.effect? p = none := by
  cases hattempt : w.attempt r with
  | error e =>
    refine iff_of_true ⟨e, rfl⟩ fun p hp => ?_
    cases heffect : w.effect? p with
    | none => rfl
    | some value =>
      obtain ⟨k, hk⟩ := List.mem_iff_getElem?.1 hp
      rw [(attempt_eq_ok_iff hschema hr).2 ⟨k, p, value, hk, heffect, rfl⟩] at hattempt
      cases hattempt
  | ok r' =>
    obtain ⟨k, p, value, hp, heffect, rfl⟩ := (attempt_eq_ok_iff hschema hr).1 hattempt
    refine iff_of_false (by simp) fun hnone => ?_
    rw [hnone p (List.mem_of_getElem? hp)] at heffect
    cases heffect

/-! ### Indices -/

theorem checkIndex_eq_ok_iff {k index : Nat} {value : Option Nat} :
    checkIndex schema k index = .ok value ↔ value = decode index ∧
      (index = undefinedIndex ∨ index < ((schema.vocabulary? k).getD ⟨[]⟩).size) := by
  rw [checkIndex, decode]
  by_cases hundefined : index = undefinedIndex
  · simp [hundefined, eq_comm]
  · by_cases hlt : index < ((schema.vocabulary? k).getD ⟨[]⟩).size
    · simp [hundefined, hlt, eq_comm]
    · simp [hundefined, hlt]

theorem ofIndices_def (schema : Schema) (indices : List Nat) :
    ofIndices schema indices = (do
      schema.requireSet
      if indices.length ≠ schema.size then throw (.mismatchedCounts schema.size indices.length)
      return ⟨schema, ← indices.zipIdx.mapM fun x => checkIndex schema x.2 x.1⟩) := rfl

theorem eq_map_decode {indices : List Nat} {start : Nat} {values : List (Option Nat)}
    (h : (indices.zipIdx start).mapM (fun x => checkIndex schema x.2 x.1) = .ok values) :
    values = indices.map decode := by
  induction indices generalizing start values with
  | nil =>
    cases h
    rfl
  | cons index indices ih =>
    rw [List.zipIdx_cons, List.mapM_cons] at h
    obtain ⟨value, hvalue, h⟩ := bind_eq_ok_iff.1 h
    obtain ⟨rest, hrest, h⟩ := bind_eq_ok_iff.1 h
    cases h
    rw [List.map_cons, (checkIndex_eq_ok_iff.1 hvalue).1, ih hrest]

namespace Fits

theorem value?_apply (hschema : schema.Built) (h : r.Fits schema) (w : Write) {k : Nat}
    {p : Property} (hp : schema.properties[k]? = some p) :
    (r.apply w).value? k = (w.effect? p).getD (r.value? k) := by
  cases hattempt : w.attempt r with
  | error e =>
    have hnone := (Write.exists_error_iff hschema h.schema_eq).1 ⟨e, hattempt⟩ p
      (List.mem_of_getElem? hp)
    rw [apply_of_error hattempt, hnone, Option.getD_none]
  | ok r' =>
    obtain ⟨k', p', value, hp', heffect, rfl⟩ :=
      (Write.attempt_eq_ok_iff hschema h.schema_eq).1 hattempt
    have hk' : k' < r.values.length := by
      rw [h.length_eq]
      exact (List.getElem?_eq_some_iff.1 hp').1
    rw [apply_of_ok hattempt, value?_setValue hk']
    by_cases hsame : k = k'
    · subst hsame
      rw [hp] at hp'
      cases hp'
      rw [if_pos rfl, heffect, Option.getD_some]
    · rw [if_neg hsame]
      -- a write has an effect on the property with its key only
      have hnone : w.effect? p = none := by
        apply Write.effect?_of_ne
        intro hkey
        apply hsame
        apply hschema.place_unique hp hp'
        rw [← hkey]
        by_contra hne
        rw [Write.effect?_of_ne hne] at heffect
        cases heffect
      rw [hnone, Option.getD_none]

theorem lt_of_effect? {w : Write} {p : Property} {v : Nat}
    (h : w.effect? p = some (some v)) : v < p.vocabulary.size := by
  cases w with
  | set key value =>
    rw [Write.effect?] at h
    split at h
    · obtain ⟨v', hv', hsame⟩ := Option.map_eq_some_iff.1 h
      cases hsame
      obtain ⟨hlt, _⟩ := List.idxOf?_eq_some_iff.1 hv'
      exact hlt
    · cases h
  | unset key =>
    rw [Write.effect?] at h
    split at h <;> cases h

theorem apply (hschema : schema.Built) (h : r.Fits schema) (w : Write) :
    (r.apply w).Fits schema := by
  have hvalue : ∀ (k : Nat) (p : Property) (v : Nat), schema.properties[k]? = some p →
      (r.apply w).value? k = some v → v < p.vocabulary.size := by
    intro k p v hp hv
    rw [h.value?_apply hschema w hp] at hv
    cases heffect : w.effect? p with
    | none =>
      rw [heffect, Option.getD_none] at hv
      exact h.value_lt k p v hp hv
    | some value =>
      rw [heffect, Option.getD_some] at hv
      rw [hv] at heffect
      exact lt_of_effect? heffect
  cases hattempt : w.attempt r with
  | error e =>
    rw [apply_of_error hattempt]
    exact h
  | ok r' =>
    rw [apply_of_ok hattempt] at hvalue ⊢
    obtain ⟨k, p, value, _, _, rfl⟩ := (Write.attempt_eq_ok_iff hschema h.schema_eq).1 hattempt
    exact ⟨h.schema_eq, by rw [List.length_set, h.length_eq], hvalue⟩

/-! ### Sequences of writes -/

theorem applyAll (hschema : schema.Built) (h : r.Fits schema) (ws : List Write) :
    (r.applyAll ws).Fits schema := by
  induction ws generalizing r with
  | nil => exact h
  | cons w ws ih => exact ih (h.apply hschema w)

/-- After writes a key has what the last of them with an effect on it left, or what it had. -/
theorem value?_applyAll (hschema : schema.Built) (h : r.Fits schema) (ws : List Write) {k : Nat}
    {p : Property} (hp : schema.properties[k]? = some p) :
    (r.applyAll ws).value? k = (ws.filterMap (Write.effect? p)).getLast?.getD (r.value? k) := by
  induction ws generalizing r with
  | nil => rfl
  | cons w ws ih =>
    rw [Record.applyAll, List.foldl_cons]
    rw [← Record.applyAll, ih (h.apply hschema w), h.value?_apply hschema w hp]
    cases heffect : w.effect? p with
    | none => rw [List.filterMap_cons_none heffect, Option.getD_none]
    | some value =>
      rw [List.filterMap_cons_some heffect, List.getLast?_cons, Option.getD_some, Option.getD_some]

theorem value?_eq_none (h : r.Fits schema) {k : Nat} (hk : schema.size ≤ k) :
    r.value? k = none := by
  rw [value?, List.getElem?_eq_none (h.length_eq ▸ hk)]
  rfl

end Fits

end Record

end QuestionTree
