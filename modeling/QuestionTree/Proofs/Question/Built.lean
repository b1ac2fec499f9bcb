import QuestionTree.Proofs.Json.Reading
import QuestionTree.Proofs.Question.Codec
import QuestionTree.Proofs.Schema.Lookup

/-!
# Questions as they are made

A question is made for a schema by naming a key and one or several of its values, or it is read from
a text. `Question.Built` says that a question has come about in one of these ways. Then its places
are words, as long as the keys and the symbols of schemas are counted in words, and a set is in
ascending order and not empty.
-/

namespace QuestionTree

/-! ### Ascending lists -/

theorem mem_insertAscending {n m : Nat} {ns : List Nat} :
    m ∈ insertAscending n ns ↔ m = n ∨ m ∈ ns := by
  induction ns with
  | nil => rw [insertAscending, List.mem_singleton, or_iff_left List.not_mem_nil]
  | cons k ns ih =>
    rw [insertAscending]
    split
    · exact List.mem_cons
    · split
      · rename_i heq
        rw [heq]
        exact ⟨fun h => .inr h, fun h => h.elim (fun hm => hm ▸ List.mem_cons_self) id⟩
      · rw [List.mem_cons, List.mem_cons, ih]
        exact or_left_comm

theorem pairwise_insertAscending {n : Nat} {ns : List Nat} (h : ns.Pairwise (· < ·)) :
    (insertAscending n ns).Pairwise (· < ·) := by
  induction ns with
  | nil => exact List.pairwise_singleton _ n
  | cons k ns ih =>
    obtain ⟨hk, hns⟩ := List.pairwise_cons.1 h
    rw [insertAscending]
    split
    · rename_i hlt
      refine List.pairwise_cons.2 ⟨fun m hm => ?_, h⟩
      rcases List.mem_cons.1 hm with rfl | hm
      · exact hlt
      · exact Nat.lt_trans hlt (hk m hm)
    · split
      · exact h
      · refine List.pairwise_cons.2 ⟨fun m hm => ?_, ih hns⟩
        rcases mem_insertAscending.1 hm with rfl | hm
        · omega
        · exact hk m hm

theorem mem_ascending {m : Nat} {ns : List Nat} : m ∈ ascending ns ↔ m ∈ ns := by
  induction ns with
  | nil => exact Iff.rfl
  | cons n ns ih =>
    rw [ascending, List.foldr_cons, mem_insertAscending, List.mem_cons]
    exact or_congr_right ih

theorem pairwise_ascending (ns : List Nat) : (ascending ns).Pairwise (· < ·) := by
  induction ns with
  | nil => exact .nil
  | cons n ns ih => exact pairwise_insertAscending ih

theorem ascending_eq_self {ns : List Nat} (h : ns.Pairwise (· < ·)) : ascending ns = ns := by
  induction ns with
  | nil => rfl
  | cons n ns ih =>
    obtain ⟨hn, hns⟩ := List.pairwise_cons.1 h
    rw [ascending, List.foldr_cons]
    change insertAscending n (ascending ns) = n :: ns
    rw [ih hns]
    cases ns with
    | nil => rfl
    | cons m ns => rw [insertAscending, if_pos (hn m List.mem_cons_self)]

namespace Acceptance

theorem normalize_set {values : List Nat} (h : values ≠ []) :
    (set values).normalize = .ok (set (ascending values)) := by
  cases values with
  | nil => exact absurd rfl h
  | cons v values => rfl

theorem normalize_ascending {values : List Nat} (h : values ≠ []) :
    (set (ascending values)).normalize = .ok (set (ascending values)) := by
  have hne : ascending values ≠ [] := by
    obtain ⟨v, hv⟩ := List.exists_mem_of_ne_nil values h
    exact List.ne_nil_of_mem (mem_ascending.2 hv)
  rw [normalize_set hne, ascending_eq_self (pairwise_ascending values)]

/-- What is put in order accepts the same values and is left as it is. -/
theorem normal_of_normalize {a b : Acceptance} (h : a.normalize = .ok b) :
    b.normalize = .ok b ∧ ∀ v, v ∈ b.values ↔ v ∈ a.values := by
  cases a with
  | single value =>
    cases h
    exact ⟨rfl, fun v => Iff.rfl⟩
  | set values =>
    by_cases hvalues : values = []
    · rw [hvalues] at h
      cases h
    · rw [normalize_set hvalues] at h
      cases h
      exact ⟨normalize_ascending hvalues, fun v => mem_ascending⟩

theorem only_wireDecoder : wireDecoder.Only fun a => ∀ v ∈ a.values, v < UInt64.size := by
  refine Decoder.only_variant (fun name a h => ?_) (fun name read h => ?_)
  · rcases List.mem_cons.1 h with h | h
    · cases h
    · rw [List.mem_singleton] at h
      cases h
  · rcases List.mem_cons.1 h with h | h
    · cases h
      intro room j a ha
      obtain ⟨n, hn, rfl⟩ := map_eq_ok_iff.1 ha
      exact List.forall_mem_singleton.2 (Decoder.only_natBelow _ room j n hn)
    · rw [List.mem_singleton] at h
      cases h
      intro room j a ha
      obtain ⟨ns, hns, rfl⟩ := map_eq_ok_iff.1 ha
      exact Decoder.only_list (Decoder.only_natBelow _) room j ns hns

theorem only_decoder : decoder.Only fun a =>
    (∀ v ∈ a.values, v < UInt64.size) ∧ a.normalize = .ok a := by
  intro room j a h
  obtain ⟨b, hb, hnormalize⟩ := Decoder.refine_eq_ok_iff.1 h
  obtain ⟨hnormal, hvalues⟩ := normal_of_normalize hnormalize
  exact ⟨fun v hv => only_wireDecoder room j b hb v ((hvalues v).1 hv), hnormal⟩

end Acceptance

/-! ### Questions -/

/-- Whether keys and symbols are counted in words. -/
structure Schema.Addressable (s : Schema) : Prop where
  size_lt : s.size < UInt64.size
  /-- A key has fewer symbols than there are words. -/
  vocabulary_lt : ∀ p ∈ s.properties, p.vocabulary.size < UInt64.size

theorem Schema.Addressable.lt_of_requireValue {s : Schema} (hs : s.Addressable)
    {key value : String} {k v : Nat} (h : s.requireValue key value = .ok (k, v)) :
    k < UInt64.size ∧ v < UInt64.size := by
  obtain ⟨k', hkey, h⟩ := bind_eq_ok_iff.1 h
  obtain ⟨⟨⟩, _, hkey⟩ := bind_eq_ok_iff.1 hkey
  dsimp only at h hkey
  split at hkey
  · rename_i hindex
    cases hkey
    obtain ⟨hk, _⟩ := List.idxOf?_eq_some_iff.1 hindex
    rw [Schema.keys, List.length_map] at hk
    rw [Schema.vocabulary?, List.getElem?_eq_getElem hk] at h
    split at h
    · rename_i hvalue
      cases h
      obtain ⟨hv, _⟩ := List.idxOf?_eq_some_iff.1 hvalue
      exact ⟨Nat.lt_trans hk hs.size_lt,
        Nat.lt_trans hv (hs.vocabulary_lt _ (List.getElem_mem hk))⟩
    · cases h
  · cases hkey

namespace Question

/-- A question passes its check exactly if its key and the values that it accepts are in the
schema. -/
theorem validate_eq_ok_iff {q : Question} {schema : Schema} :
    q.validate schema = .ok () ↔ ∃ vocabulary, schema.vocabulary? q.key = some vocabulary ∧
      ∀ v ∈ q.acceptance.values, v < vocabulary.size := by
  rw [validate, bind_eq_ok_iff]
  refine exists_congr fun vocabulary => and_congr Schema.requireVocabulary_eq_ok_iff ?_
  have hnone : q.acceptance.values.find? (vocabulary.size ≤ ·) = none ↔
      ∀ v ∈ q.acceptance.values, v < vocabulary.size := by
    simp
  rw [← hnone]
  cases q.acceptance.values.find? (vocabulary.size ≤ ·) with
  | none => exact iff_of_true rfl rfl
  | some v => exact iff_of_false (fun h => by cases h) (Option.some_ne_none v)

section Validate

variable {schema : Schema} {key description : String} {q : Question}

theorem single_eq_ok_iff (hschema : schema.Built) {value : String} :
    single schema key value description = .ok q ↔ ∃ k p v, schema.properties[k]? = some p ∧
      p.key = key ∧ p.vocabulary.symbols[v]? = some value ∧ q = ⟨k, .single v, description⟩ := by
  rw [single, bind_eq_ok_iff]
  constructor
  · rintro ⟨⟨k, v⟩, hfound, h⟩
    cases h
    obtain ⟨p, hp, hkey, hv⟩ := hschema.requireValue_eq_ok_iff.1 hfound
    exact ⟨k, p, v, hp, hkey, hv, rfl⟩
  · rintro ⟨k, p, v, hp, hkey, hv, rfl⟩
    exact ⟨(k, v), hschema.requireValue_eq_ok_iff.2 ⟨p, hp, hkey, hv⟩, rfl⟩

theorem validate_of_single (hschema : schema.Built) {value : String}
    (h : single schema key value description = .ok q) : q.validate schema = .ok () := by
  obtain ⟨k, p, v, hp, _, hv, rfl⟩ := (single_eq_ok_iff hschema).1 h
  refine validate_eq_ok_iff.2 ⟨p.vocabulary, ?_, List.forall_mem_singleton.2 ?_⟩
  · rw [Schema.vocabulary?, hp]
    rfl
  · exact (List.getElem?_eq_some_iff.1 hv).1

theorem validate_of_oneOf (hschema : schema.Built) {values : List String}
    (h : oneOf schema key values description = .ok q) : q.validate schema = .ok () := by
  cases values with
  | nil => cases h
  | cons value values =>
    obtain ⟨indices, hindices, h⟩ := bind_eq_ok_iff.1 h
    cases h
    have hplaces : ∀ i ∈ indices, ∃ p, schema.properties[i.1]? = some p ∧ p.key = key ∧
        i.2 < p.vocabulary.size := by
      refine forall_of_mapM (fun value i hi => ?_) hindices
      obtain ⟨p, hp, hkey, hv⟩ := hschema.requireValue_eq_ok_iff.1 hi
      exact ⟨p, hp, hkey, (List.getElem?_eq_some_iff.1 hv).1⟩
    -- there is a value, so the last of the places is the one of the key
    obtain ⟨last, hlast⟩ : ∃ last, indices.getLast? = some last :=
      ⟨_, List.getLast?_eq_some_getLast (ne_nil_of_mapM hindices)⟩
    obtain ⟨p, hp, hkey, _⟩ := hplaces last (List.mem_of_getLast? hlast)
    refine validate_eq_ok_iff.2 ⟨p.vocabulary, ?_, fun v hv => ?_⟩
    · show schema.vocabulary? ((indices.getLast?.map Prod.fst).getD 0) = _
      rw [hlast, Option.map_some, Option.getD_some, Schema.vocabulary?, hp]
      rfl
    · obtain ⟨i, hi, rfl⟩ := List.mem_map.1 (mem_ascending.1 hv)
      obtain ⟨p', hp', hkey', hlt⟩ := hplaces i hi
      rw [hschema.place_unique hp' hp (hkey'.trans hkey.symm), hp] at hp'
      cases hp'
      exact hlt

end Validate

/-- Whether a question has come about by naming values of a schema or by reading a text. -/
inductive Built : Question → Prop where
  | single {schema : Schema} {key value description : String} {q : Question}
    (hschema : schema.Addressable) (h : Question.single schema key value description = .ok q) :
    Built q
  | oneOf {schema : Schema} {key : String} {values : List String} {description : String}
    {q : Question} (hschema : schema.Addressable)
    (h : Question.oneOf schema key values description = .ok q) : Built q
  | read {room : Nat} {j : Json} {q : Question} (h : decoder room j = .ok q) : Built q

variable {q : Question}

theorem wellFormed_of_single {schema : Schema} {key value description : String}
    (hschema : schema.Addressable) (h : single schema key value description = .ok q) :
    q.WellFormed := by
  obtain ⟨⟨k, v⟩, hvalue, h⟩ := bind_eq_ok_iff.1 h
  cases h
  obtain ⟨hk, hv⟩ := hschema.lt_of_requireValue hvalue
  exact ⟨hk, List.forall_mem_singleton.2 hv, rfl⟩

theorem wellFormed_of_oneOf {schema : Schema} {key : String} {values : List String}
    {description : String} (hschema : schema.Addressable)
    (h : oneOf schema key values description = .ok q) : q.WellFormed := by
  cases values with
  | nil => cases h
  | cons value values =>
    obtain ⟨indices, hindices, h⟩ := bind_eq_ok_iff.1 h
    cases h
    have hwords : ∀ i ∈ indices, i.1 < UInt64.size ∧ i.2 < UInt64.size :=
      forall_of_mapM (fun value i hi => hschema.lt_of_requireValue hi) hindices
    have hne : indices.map Prod.snd ≠ [] := by
      simpa using ne_nil_of_mapM hindices
    refine ⟨?_, fun v hv => ?_, Acceptance.normalize_ascending hne⟩
    · cases hlast : indices.getLast? with
      | none => exact Nat.zero_lt_of_lt (hschema.size_lt)
      | some i => exact (hwords i (List.mem_of_getLast? hlast)).1
    · obtain ⟨i, hi, rfl⟩ := List.mem_map.1 (mem_ascending.1 hv)
      exact (hwords i hi).2

/-- Whether what was read of a question so far is well formed. -/
structure Draft.WellFormed (d : Draft) : Prop where
  key_lt : ∀ k, d.key = some k → k < UInt64.size
  /-- The accepted values are words, and a set of them is in order and not empty. -/
  kind : ∀ a, d.kind = some a → (∀ v ∈ a.values, v < UInt64.size) ∧ a.normalize = .ok a

theorem fields_keep (room : Nat) {f : Decoder.Field Draft} (hf : f ∈ fields room) {d d' : Draft}
    {j : Json} (hd : d.WellFormed) (h : f.read d j = .ok d') : d'.WellFormed := by
  rcases List.mem_cons.1 hf with rfl | hf
  · obtain ⟨k, hk, rfl⟩ := Decoder.exists_of_field h
    have hlt := Decoder.only_natBelow _ room j k hk
    exact ⟨fun k' heq => Option.some.inj heq ▸ hlt, hd.kind⟩
  rcases List.mem_cons.1 hf with rfl | hf
  · obtain ⟨a, ha, rfl⟩ := Decoder.exists_of_field h
    have hkind := Acceptance.only_decoder room j a ha
    exact ⟨hd.key_lt, fun a' heq => Option.some.inj heq ▸ hkind⟩
  · rw [List.mem_singleton.1 hf] at h
    obtain ⟨description, _, rfl⟩ := Decoder.exists_of_withDefault h
    exact ⟨hd.key_lt, hd.kind⟩

theorem only_decoder : decoder.Only WellFormed := by
  intro room j q h
  have hstart : ({} : Draft).WellFormed := ⟨fun k hk => (by cases hk), fun a ha => (by cases ha)⟩
  obtain ⟨d, hd, h⟩ := Decoder.exists_draft_of_structured
    (fun room f hf _ _ _ => fields_keep room hf) hstart h
  obtain ⟨k, hk, h⟩ := bind_eq_ok_iff.1 h
  obtain ⟨a, ha, h⟩ := bind_eq_ok_iff.1 h
  cases h
  obtain ⟨hvalues, hnormal⟩ := hd.kind a (Decoder.required_eq_ok_iff.1 ha)
  exact ⟨hd.key_lt k (Decoder.required_eq_ok_iff.1 hk), hvalues, hnormal⟩

theorem Built.wellFormed (h : q.Built) : q.WellFormed := by
  cases h with
  | single hschema h => exact wellFormed_of_single hschema h
  | oneOf hschema h => exact wellFormed_of_oneOf hschema h
  | read h => exact only_decoder _ _ _ h

end Question

end QuestionTree
