import QuestionTree.Record
import QuestionTree.Proofs.Failure
import QuestionTree.Schema
import Mathlib.Data.List.Nodup

/-!
# Schemas without differences

A schema that was built from definitions has no key twice. Two such schemas have no differences
exactly if they are equal: a key is found at one place only, so keys at the same places with the
same vocabularies are the same properties, and no key is left over.
-/

namespace QuestionTree

/-! ### Places in lists -/

theorem firstRepeated?_eq_none_iff {α : Type} [BEq α] [LawfulBEq α] {seen l : List α} :
    firstRepeated? seen l = none ↔ l.Nodup ∧ ∀ a ∈ l, a ∉ seen := by
  induction l generalizing seen with
  | nil => simp [firstRepeated?]
  | cons a l ih =>
    rw [firstRepeated?]
    split
    · rename_i hseen
      have hmem : a ∈ seen := List.contains_iff_mem.1 hseen
      constructor
      · intro h
        cases h
      · rintro ⟨_, hnew⟩
        exact absurd hmem (hnew a (List.mem_cons_self ..))
    · rename_i hseen
      have hnew : a ∉ seen := fun hmem => hseen (List.contains_iff_mem.2 hmem)
      rw [ih, List.nodup_cons]
      constructor
      · rintro ⟨hnodup, hrest⟩
        refine ⟨⟨fun ha => hrest a ha (List.mem_cons_self ..), hnodup⟩, ?_⟩
        intro b hb
        rcases List.mem_cons.1 hb with rfl | hb
        · exact hnew
        · exact fun hmem => hrest b hb (List.mem_cons_of_mem a hmem)
      · rintro ⟨⟨ha, hnodup⟩, hrest⟩
        refine ⟨hnodup, fun b hb hmem => ?_⟩
        rcases List.mem_cons.1 hmem with rfl | hmem
        · exact ha hb
        · exact hrest b (List.mem_cons_of_mem a hb) hmem

theorem idxOf?_eq_some_iff_getElem? {α : Type} [BEq α] [LawfulBEq α] {l : List α} (h : l.Nodup)
    {a : α} {i : Nat} : l.idxOf? a = some i ↔ l[i]? = some a := by
  rw [List.idxOf?_eq_some_iff]
  constructor
  · rintro ⟨hlt, heq, _⟩
    rw [List.getElem?_eq_getElem hlt, heq]
  · intro hget
    obtain ⟨hlt, heq⟩ := List.getElem?_eq_some_iff.1 hget
    refine ⟨hlt, heq, fun j hj hsame => ?_⟩
    have hindex := (List.Nodup.getElem_inj_iff h).1 (hsame.trans heq.symm)
    omega

theorem exists_getElem?_of_forall₂ {α β : Type} {R : α → β → Prop} {as : List α} {bs : List β}
    (h : List.Forall₂ R as bs) {i : Nat} {a : α} (ha : as[i]? = some a) :
    ∃ b, bs[i]? = some b ∧ R a b := by
  obtain ⟨hi, rfl⟩ := List.getElem?_eq_some_iff.1 ha
  have hi' : i < bs.length := h.length_eq ▸ hi
  exact ⟨bs[i], List.getElem?_eq_getElem hi', h.get hi hi'⟩

/-! ### Built schemas -/

/-- Whether a schema comes from definitions. -/
def Schema.Built (s : Schema) : Prop := ∃ definitions, ofDefinitions definitions = .ok s

namespace Schema

theorem propertiesOf_cons_eq_ok_iff {seen : List String} {d : Definition}
    {rest : List Definition} {properties : List Property} :
    propertiesOf seen (d :: rest) = .ok properties ↔
      2 ≤ d.values.length ∧ d.key ∉ seen ∧ firstRepeated? [] d.values = none ∧
        ∃ others, propertiesOf (d.key :: seen) rest = .ok others ∧
          properties = ⟨d.key, ⟨d.values⟩⟩ :: others := by
  rw [propertiesOf]
  by_cases hcount : d.values.length < 2
  · rw [if_pos hcount]
    constructor
    · intro h
      cases h
    · intro h
      omega
  · rw [if_neg hcount]
    dsimp only
    by_cases hseen : d.key ∈ seen
    · rw [if_pos (List.contains_iff_mem.2 hseen)]
      constructor
      · intro h
        cases h
      · intro h
        exact absurd hseen h.2.1
    · rw [if_neg fun h => hseen (List.contains_iff_mem.1 h), bind_eq_ok_iff]
      constructor
      · rintro ⟨vocabulary, hvocabulary, h⟩
        obtain ⟨others, hothers, h⟩ := bind_eq_ok_iff.1 h
        cases h
        rw [Vocabulary.ofList] at hvocabulary
        split at hvocabulary
        · cases hvocabulary
        · rename_i hnone
          cases hvocabulary
          exact ⟨by omega, hseen, hnone, others, hothers, rfl⟩
      · rintro ⟨_, _, hnone, others, hothers, rfl⟩
        refine ⟨⟨d.values⟩, ?_, bind_eq_ok_iff.2 ⟨others, hothers, rfl⟩⟩
        rw [Vocabulary.ofList, hnone]

theorem keys_of_propertiesOf {seen : List String} {definitions : List Definition}
    {properties : List Property} (h : propertiesOf seen definitions = .ok properties) :
    (properties.map Property.key).Nodup ∧ ∀ p ∈ properties, p.key ∉ seen := by
  induction definitions generalizing seen properties with
  | nil =>
    cases h
    exact ⟨List.nodup_nil, fun p hp => absurd hp List.not_mem_nil⟩
  | cons d rest ih =>
    obtain ⟨_, hkey, _, others, hothers, rfl⟩ := propertiesOf_cons_eq_ok_iff.1 h
    obtain ⟨hnodup, hseen⟩ := ih hothers
    refine ⟨?_, ?_⟩
    · rw [List.map_cons, List.nodup_cons]
      refine ⟨fun hmem => ?_, hnodup⟩
      obtain ⟨p, hp, hsame⟩ := List.mem_map.1 hmem
      exact hseen p hp (hsame ▸ List.mem_cons_self ..)
    · intro p hp
      rcases List.mem_cons.1 hp with rfl | hp
      · exact hkey
      · exact fun hmem => hseen p hp (List.mem_cons_of_mem d.key hmem)

theorem Built.nodup_keys {s : Schema} (h : s.Built) : s.keys.Nodup := by
  obtain ⟨definitions, hdefinitions⟩ := h
  obtain ⟨properties, hproperties, rfl⟩ := map_eq_ok_iff.1 hdefinitions
  exact (keys_of_propertiesOf hproperties).1

theorem key?_eq_some_iff {s : Schema} (h : s.keys.Nodup) {name : String} {i : Nat} :
    s.key? name = some i ↔ s.keys[i]? = some name :=
  idxOf?_eq_some_iff_getElem? h

theorem differencesAt_eq_nil_iff {other : Schema} (h : other.keys.Nodup) {i : Nat} {p : Property} :
    differencesAt other i p = [] ↔ other.properties[i]? = some p := by
  have hkeys : ∀ j, other.keys[j]? = other.properties[j]?.map Property.key := fun j =>
    List.getElem?_map
  rw [differencesAt]
  split
  · rename_i hnone
    constructor
    · intro hnil
      cases hnil
    · intro hget
      have hsome := (key?_eq_some_iff h).2
          (show other.keys[i]? = some p.key by rw [hkeys i, hget]; rfl)
      rw [hnone] at hsome
      cases hsome
  · rename_i j hj
    obtain ⟨p', hp', hkey⟩ := Option.map_eq_some_iff.1
      ((hkeys j).symm.trans ((key?_eq_some_iff h).1 hj))
    -- the key is found at one place only, and the property there is the one to compare
    have hvocabulary : (other.vocabulary? j).getD ⟨[]⟩ = p'.vocabulary := by
      rw [vocabulary?, hp']
      rfl
    rw [List.append_eq_nil_iff, hvocabulary]
    constructor
    · rintro ⟨hplace, hvalues⟩
      have hij : i = j := by
        by_contra hne
        rw [if_neg hne] at hplace
        cases hplace
      have hsame : p.vocabulary = p'.vocabulary := by
        by_contra hne
        rw [if_neg hne] at hvalues
        cases hvalues
      rw [hij, hp']
      cases p
      cases p'
      simp_all
    · intro hget
      have hij : i = j := by
        have hi := (key?_eq_some_iff h).2
          (show other.keys[i]? = some p.key by rw [hkeys i, hget]; rfl)
        rw [hj] at hi
        exact (Option.some.inj hi).symm
      rw [hij, hp'] at hget
      cases hget
      exact ⟨if_pos hij, if_pos rfl⟩

theorem eq_of_properties {s other : Schema} (hother : other.keys.Nodup)
    (hat : ∀ (i : Nat) (p : Property), s.properties[i]? = some p → other.properties[i]? = some p)
    (hover : ∀ key ∈ other.keys, key ∈ s.keys) : s = other := by
  have hproperties : s.properties = other.properties := by
    refine List.ext_getElem? fun i => ?_
    cases hi : s.properties[i]? with
    | some p => exact (hat i p hi).symm
    | none =>
      cases hi' : other.properties[i]? with
      | none => rfl
      | some p' =>
        have hkey : other.keys[i]? = some p'.key := by
          rw [keys, List.getElem?_map, hi']
          rfl
        obtain ⟨j, hj⟩ := List.mem_iff_getElem?.1 (hover p'.key (List.mem_of_getElem? hkey))
        rw [keys, List.getElem?_map] at hj
        obtain ⟨p, hp, hsame⟩ := Option.map_eq_some_iff.1 hj
        have hkey' : other.keys[j]? = some p'.key := by
          rw [keys, List.getElem?_map, hat j p hp, ← hsame]
          rfl
        have hij := (key?_eq_some_iff hother).2 hkey
        rw [(key?_eq_some_iff hother).2 hkey'] at hij
        rw [Option.some.inj hij, hi] at hp
        cases hp
  cases s
  cases other
  exact congrArg Schema.mk hproperties

/-- Built schemas have no differences exactly if they are equal. -/
theorem differences_eq_nil_iff {s other : Schema} (hs : s.Built) (hother : other.Built) :
    s.differences other = [] ↔ s = other := by
  have hcontains : ∀ key, s.contains key = true ↔ key ∈ s.keys := fun key => by
    rw [contains, key?, List.isSome_idxOf?]
  rw [differences, List.append_eq_nil_iff, List.flatMap_eq_nil_iff, List.map_eq_nil_iff,
    List.filter_eq_nil_iff]
  constructor
  · rintro ⟨hat, hover⟩
    refine eq_of_properties hother.nodup_keys ?_ ?_
    · intro i p hp
      have hmem : (p, i) ∈ s.properties.zipIdx := List.mem_zipIdx_iff_getElem?.2 hp
      exact (differencesAt_eq_nil_iff hother.nodup_keys).1 (hat _ hmem)
    · intro key hkey
      have hnot := hover key hkey
      rw [Bool.not_eq_true', Bool.not_eq_false] at hnot
      exact (hcontains key).1 hnot
  · rintro rfl
    refine ⟨fun ⟨p, i⟩ hmem => ?_, fun key hkey => ?_⟩
    · exact (differencesAt_eq_nil_iff hs.nodup_keys).2 (List.mem_zipIdx_iff_getElem?.1 hmem)
    · rw [(hcontains key).2 hkey]
      exact Bool.false_ne_true

theorem requireSame_eq {s other : Schema} (hs : s.Built) (hother : other.Built) :
    s.requireSame other =
      if s = other then .ok () else .error (.schemaMismatch (s.differences other)) := by
  rw [requireSame]
  split
  · rename_i hnil
    rw [if_pos ((differences_eq_nil_iff hs hother).1 hnil)]
  · rename_i hne
    rw [if_neg fun heq => hne ((differences_eq_nil_iff hs hother).2 heq)]

/-- Compares two schemas unless they are one and the same, as the handles tell. -/
def requireShared (x y : Handle Schema) : Except Error Unit :=
  if x.same y then .ok () else x.item.requireSame y.item

theorem requireShared_eq {x y : Handle Schema} (hx : x.item.Built) (hy : y.item.Built)
    (hsame : x.same y = true → x.item = y.item) :
    requireShared x y = x.item.requireSame y.item := by
  rw [requireShared]
  split
  · rename_i hshared
    rw [requireSame_eq hx hy, if_pos (hsame hshared)]
  · rfl

end Schema

end QuestionTree
