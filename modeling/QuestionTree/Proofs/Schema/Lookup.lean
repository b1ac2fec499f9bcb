import QuestionTree.Proofs.Schema.Comparison
import QuestionTree.Record

/-!
# Looking up names

In a built schema no key and no symbol of a key stands twice, so a name is found where it stands and
nowhere else. A record that is made of pairs of names therefore has, for every key, the value that
the last pair with this key names.
-/

namespace QuestionTree

namespace Schema

theorem nodup_symbols_of_propertiesOf {seen : List String} {definitions : List Definition}
    {properties : List Property} (h : propertiesOf seen definitions = .ok properties) :
    ∀ p ∈ properties, p.vocabulary.symbols.Nodup := by
  induction definitions generalizing seen properties with
  | nil =>
    cases h
    exact fun p hp => absurd hp List.not_mem_nil
  | cons d rest ih =>
    obtain ⟨_, _, hnone, others, hothers, rfl⟩ := propertiesOf_cons_eq_ok_iff.1 h
    exact List.forall_mem_cons.2 ⟨(firstRepeated?_eq_none_iff.1 hnone).1, ih hothers⟩

section Set

variable {s : Schema}

theorem requireSet_eq_ok_iff : s.requireSet = .ok () ↔ s.isSet = true := by
  rw [requireSet]
  split <;> simp [*]

theorem isSet_of_getElem? {k : Nat} {p : Property} (hp : s.properties[k]? = some p) :
    s.isSet = true := by
  rw [isSet, Bool.not_eq_true', List.isEmpty_eq_false_iff]
  exact List.ne_nil_of_mem (List.mem_of_getElem? hp)

theorem requireVocabulary_eq_ok_iff {i : Nat} {v : Vocabulary} :
    s.requireVocabulary i = .ok v ↔ s.vocabulary? i = some v := by
  rw [requireVocabulary, bind_eq_ok_iff]
  constructor
  · rintro ⟨⟨⟩, _, hfound⟩
    split at hfound
    · rename_i hv
      cases hfound
      exact hv
    · cases hfound
  · intro hv
    obtain ⟨p, hp, _⟩ := Option.map_eq_some_iff.1 hv
    refine ⟨(), requireSet_eq_ok_iff.2 (isSet_of_getElem? hp), ?_⟩
    rw [hv]
    rfl

end Set

namespace Built

variable {s : Schema} (h : s.Built)

include h

theorem nodup_symbols {p : Property} (hp : p ∈ s.properties) : p.vocabulary.symbols.Nodup := by
  obtain ⟨definitions, hdefinitions⟩ := h
  obtain ⟨properties, hproperties, rfl⟩ := map_eq_ok_iff.1 hdefinitions
  exact nodup_symbols_of_propertiesOf hproperties p hp

theorem place_unique {i j : Nat} {p q : Property} (hp : s.properties[i]? = some p)
    (hq : s.properties[j]? = some q) (hkey : p.key = q.key) : i = j := by
  have hi : s.keys[i]? = some p.key := by
    rw [keys, List.getElem?_map, hp]
    rfl
  have hj : s.keys[j]? = some p.key := by
    rw [keys, List.getElem?_map, hq, hkey]
    rfl
  have hfound := (key?_eq_some_iff h.nodup_keys).2 hi
  rw [(key?_eq_some_iff h.nodup_keys).2 hj] at hfound
  exact (Option.some.inj hfound).symm

theorem requireKey_eq_ok_iff {key : String} {k : Nat} :
    s.requireKey key = .ok k ↔ ∃ p, s.properties[k]? = some p ∧ p.key = key := by
  have hplace : s.key? key = some k ↔ ∃ p, s.properties[k]? = some p ∧ p.key = key := by
    rw [key?_eq_some_iff h.nodup_keys, keys, List.getElem?_map, Option.map_eq_some_iff]
  rw [requireKey, bind_eq_ok_iff]
  constructor
  · rintro ⟨⟨⟩, _, hfound⟩
    split at hfound
    · rename_i hindex
      cases hfound
      exact hplace.1 hindex
    · cases hfound
  · rintro ⟨p, hp, hname⟩
    refine ⟨(), requireSet_eq_ok_iff.2 (isSet_of_getElem? hp), ?_⟩
    rw [hplace.2 ⟨p, hp, hname⟩]
    rfl

/-- A key and a value are found at the places where they stand. -/
theorem requireValue_eq_ok_iff {key value : String} {k v : Nat} :
    s.requireValue key value = .ok (k, v) ↔ ∃ p, s.properties[k]? = some p ∧ p.key = key ∧
      p.vocabulary.symbols[v]? = some value := by
  have hvalue : ∀ {p}, s.properties[k]? = some p → ((s.vocabulary? k).getD ⟨[]⟩ = p.vocabulary ∧
      ∀ v, p.vocabulary.index? value = some v ↔ p.vocabulary.symbols[v]? = some value) := by
    intro p hp
    refine ⟨?_, fun v => ?_⟩
    · rw [vocabulary?, hp]
      rfl
    · exact idxOf?_eq_some_iff_getElem? (h.nodup_symbols (List.mem_of_getElem? hp))
  rw [requireValue, bind_eq_ok_iff]
  constructor
  · rintro ⟨k', hk', hfound⟩
    dsimp only at hfound
    split at hfound
    · rename_i hindex
      cases hfound
      obtain ⟨p, hp, hname⟩ := h.requireKey_eq_ok_iff.1 hk'
      obtain ⟨hvocabulary, hsymbol⟩ := hvalue hp
      rw [hvocabulary, hsymbol] at hindex
      exact ⟨p, hp, hname, hindex⟩
    · cases hfound
  · rintro ⟨p, hp, hname, hindex⟩
    obtain ⟨hvocabulary, hsymbol⟩ := hvalue hp
    refine ⟨k, h.requireKey_eq_ok_iff.2 ⟨p, hp, hname⟩, ?_⟩
    dsimp only
    rw [hvocabulary, (hsymbol v).2 hindex]
    rfl

end Built

end Schema

/-- The value that the last pair with a key gives to it. -/
def lastValue? (pairs : List (String × String)) (key : String) : Option String :=
  (pairs.filter (·.1 == key)).getLast?.map Prod.snd

theorem lastValue?_eq_none_iff {pairs : List (String × String)} {key : String} :
    lastValue? pairs key = none ↔ ∀ pair ∈ pairs, pair.1 ≠ key := by
  simp [lastValue?]

theorem lastValue?_concat (pairs : List (String × String)) (pair : String × String)
    (key : String) : lastValue? (pairs ++ [pair]) key =
      if pair.1 = key then some pair.2 else lastValue? pairs key := by
  by_cases hkey : pair.1 = key
  · simp [lastValue?, hkey]
  · simp [lastValue?, hkey]

namespace Record

/-- Whether a record has of every key the value that pairs of names give to it. -/
structure Tells (r : Record) (schema : Schema) (pairs : List (String × String)) : Prop where
  schema_eq : r.schema = schema
  length_eq : r.values.length = schema.size
  unknown : ∀ (k : Nat) p, schema.properties[k]? = some p → lastValue? pairs p.key = none →
    r.value? k = none
  known : ∀ (k : Nat) p value, schema.properties[k]? = some p →
    lastValue? pairs p.key = some value →
      ∃ v, p.vocabulary.symbols[v]? = some value ∧ r.value? k = some v

variable {schema : Schema} {pairs : List (String × String)} {r r' : Record}

theorem value?_setValue {k : Nat} (hk : k < r.values.length) (value : Option Nat) (k' : Nat) :
    value? { r with values := r.values.set k value } k' =
      if k' = k then value else r.value? k' := by
  rw [value?, value?, List.getElem?_set]
  by_cases h : k' = k
  · subst h
    simp [hk]
  · rw [if_neg (Ne.symm h), if_neg h]

theorem tells_of_blank (h : blank schema = .ok r) : r.Tells schema [] := by
  obtain ⟨⟨⟩, _, h⟩ := bind_eq_ok_iff.1 h
  cases h
  refine ⟨rfl, List.length_replicate, fun k p _ _ => ?_, fun k p value _ hvalue => ?_⟩
  · rw [value?, List.getElem?_replicate]
    split <;> rfl
  · cases hvalue

theorem Tells.set (hschema : schema.Built) (h : r.Tells schema pairs) {key value : String}
    (hset : r.set key value = .ok r') : r'.Tells schema (pairs ++ [(key, value)]) := by
  obtain ⟨⟨k, v⟩, hfound, hset⟩ := bind_eq_ok_iff.1 hset
  cases hset
  rw [h.schema_eq, hschema.requireValue_eq_ok_iff] at hfound
  obtain ⟨p, hp, rfl, hv⟩ := hfound
  have hk : k < r.values.length := by
    rw [h.length_eq]
    exact (List.getElem?_eq_some_iff.1 hp).1
  have hsame : ∀ k', k' ≠ k →
      value? { r with values := r.values.set k (some v) } k' = r.value? k' :=
    fun k' hne => by rw [value?_setValue hk, if_neg hne]
  refine ⟨h.schema_eq, ?_, fun k' q hq hnone => ?_, fun k' q last hq hlast => ?_⟩
  · rw [List.length_set, h.length_eq]
  · rw [lastValue?_concat] at hnone
    split at hnone
    · cases hnone
    · rename_i hkey
      rw [hsame k' fun heq => hkey ?_]
      · exact h.unknown k' q hq hnone
      · rw [heq, hp] at hq
        rw [Option.some.inj hq]
  · rw [lastValue?_concat] at hlast
    split at hlast
    · rename_i hkey
      cases hlast
      obtain rfl := hschema.place_unique hp hq hkey
      rw [hp] at hq
      cases hq
      exact ⟨v, hv, by rw [value?_setValue hk, if_pos rfl]⟩
    · rename_i hkey
      rw [hsame k' fun heq => hkey ?_]
      · exact h.known k' q last hq hlast
      · rw [heq, hp] at hq
        rw [Option.some.inj hq]

theorem Tells.setAll (hschema : schema.Built) (h : r.Tells schema pairs)
    {more : List (String × String)}
    (hset : more.foldlM (fun r (key, value) => r.set key value) r = .ok r') :
    r'.Tells schema (pairs ++ more) := by
  induction more generalizing r pairs with
  | nil =>
    cases hset
    rw [List.append_nil]
    exact h
  | cons pair more ih =>
    obtain ⟨next, hnext, hset⟩ := bind_eq_ok_iff.1 hset
    have htells := ih (h.set hschema hnext) hset
    rwa [List.append_assoc] at htells

theorem tells_of_ofPairs (hschema : schema.Built) (h : ofPairs schema pairs = .ok r) :
    r.Tells schema pairs := by
  obtain ⟨start, hstart, hset⟩ := bind_eq_ok_iff.1 h
  exact (tells_of_blank hstart).setAll hschema hset

end Record

end QuestionTree
