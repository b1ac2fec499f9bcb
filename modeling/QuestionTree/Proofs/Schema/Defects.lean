import QuestionTree.Proofs.Schema.Comparison

/-!
# Definitions that are refused

The definitions of a schema are checked one after the other: that there are two symbols at least,
that the key is not one of the keys before it, that no symbol is listed twice. `Definition.Sound`
says that nothing is wrong with a definition after those before it, and `Definition.Defect` says
what is, namely the first of the three things that fails. A schema is built exactly from lists of
the same length all of whose definitions are sound, and otherwise the first defect is what is
refused.
-/

namespace QuestionTree

theorem mem_take_iff_getElem? {α : Type} {l : List α} {i : Nat} {a : α} :
    a ∈ l.take i ↔ ∃ j < i, l[j]? = some a := by
  simp [List.mem_iff_getElem?, List.getElem?_take]

/-- The item that is listed twice first: what stands before it is listed once. -/
theorem firstRepeated?_eq_some_iff {α : Type} [BEq α] [LawfulBEq α] {seen l : List α} {a : α} :
    firstRepeated? seen l = some a ↔ ∃ i, l[i]? = some a ∧ (a ∈ seen ∨ a ∈ l.take i) ∧
      (l.take i).Nodup ∧ ∀ b ∈ l.take i, b ∉ seen := by
  induction l generalizing seen with
  | nil => simp [firstRepeated?]
  | cons b l ih =>
    rw [firstRepeated?]
    by_cases hb : b ∈ seen
    · rw [if_pos (List.contains_iff_mem.2 hb), Option.some_inj]
      constructor
      · rintro rfl
        exact ⟨0, rfl, .inl hb, List.nodup_nil, by simp⟩
      · rintro ⟨i, hi, _, _, hnew⟩
        cases i with
        | zero => exact Option.some.inj hi
        | succ i => exact absurd hb (hnew b (by simp))
    · rw [if_neg fun h => hb (List.contains_iff_mem.1 h), ih]
      constructor
      · rintro ⟨i, hi, hbefore, hnodup, hnew⟩
        refine ⟨i + 1, hi, ?_, ?_, ?_⟩
        · simpa [or_comm, or_left_comm, or_assoc] using hbefore
        · rw [List.take_succ_cons, List.nodup_cons]
          exact ⟨fun hmem => hnew b hmem List.mem_cons_self, hnodup⟩
        · rw [List.take_succ_cons, List.forall_mem_cons]
          exact ⟨hb, fun c hc hseen => hnew c hc (List.mem_cons_of_mem b hseen)⟩
      · rintro ⟨i, hi, hbefore, hnodup, hnew⟩
        cases i with
        | zero =>
          obtain rfl := Option.some.inj hi
          simp [hb] at hbefore
        | succ i =>
          rw [List.take_succ_cons, List.nodup_cons] at hnodup
          rw [List.take_succ_cons, List.forall_mem_cons] at hnew
          refine ⟨i, hi, ?_, hnodup.2, fun c hc hseen => ?_⟩
          · simpa [or_comm, or_left_comm, or_assoc] using hbefore
          · rcases List.mem_cons.1 hseen with rfl | hseen
            · exact hnodup.1 hc
            · exact hnew.2 c hc hseen

namespace Definition

variable {earlier seen : List String} {d : Definition} {refusal : Refusal}

/-- Whether nothing is wrong with a definition after definitions of some keys. -/
structure Sound (earlier : List String) (d : Definition) : Prop where
  two_le : 2 ≤ d.values.length
  new : d.key ∉ earlier
  nodup : d.values.Nodup

/-- What is wrong first with a definition after definitions of some keys. -/
inductive Defect (earlier : List String) (d : Definition) : Refusal → Prop where
  | tooFewValues (hsize : d.values.length < 2) :
    Defect earlier d (.tooFewValues d.key d.values.length)
  | repeatedKey (hsize : 2 ≤ d.values.length) (hkey : d.key ∈ earlier) :
    Defect earlier d (.repeatedKey d.key)
  /-- A symbol stands there already, and it is the first one that does. -/
  | repeatedValue (hsize : 2 ≤ d.values.length) (hkey : d.key ∉ earlier) {i : Nat} {symbol : String}
    (hat : d.values[i]? = some symbol) (hbefore : symbol ∈ d.values.take i)
    (hfirst : (d.values.take i).Nodup) : Defect earlier d (.repeatedValue d.key symbol)

/-- The refusal of a definition, if it is refused. -/
def refusal? (earlier : List String) (d : Definition) : Option Refusal :=
  if d.values.length < 2 then some (.tooFewValues d.key d.values.length)
  else if d.key ∈ earlier then some (.repeatedKey d.key)
  else (firstRepeated? [] d.values).map (.repeatedValue d.key)

theorem refusal?_eq_none_iff : d.refusal? earlier = none ↔ d.Sound earlier := by
  have hnodup : firstRepeated? [] d.values = none ↔ d.values.Nodup := by
    simp [firstRepeated?_eq_none_iff]
  rw [refusal?]
  split
  · rename_i hsize
    exact ⟨fun h => (by cases h), fun h => absurd h.two_le (by omega)⟩
  · rename_i hsize
    split
    · rename_i hkey
      exact ⟨fun h => (by cases h), fun h => absurd hkey h.new⟩
    · rename_i hkey
      rw [Option.map_eq_none_iff, hnodup]
      exact ⟨fun h => ⟨by omega, hkey, h⟩, Sound.nodup⟩

theorem refusal?_eq_some_iff : d.refusal? earlier = some refusal ↔ d.Defect earlier refusal := by
  rw [refusal?]
  split
  · rename_i hsize
    rw [Option.some_inj]
    constructor
    · rintro rfl
      exact .tooFewValues hsize
    · intro h
      cases h with
      | tooFewValues => rfl
      | repeatedKey hmany | repeatedValue hmany => omega
  · rename_i hsize
    have hmany : 2 ≤ d.values.length := by omega
    split
    · rename_i hkey
      rw [Option.some_inj]
      constructor
      · rintro rfl
        exact .repeatedKey hmany hkey
      · intro h
        cases h with
        | tooFewValues hfew => exact absurd hfew hsize
        | repeatedKey => rfl
        | repeatedValue _ hnew => exact absurd hkey hnew
    · rename_i hkey
      rw [Option.map_eq_some_iff]
      constructor
      · rintro ⟨symbol, hsymbol, rfl⟩
        obtain ⟨i, hat, hbefore, hfirst, _⟩ := firstRepeated?_eq_some_iff.1 hsymbol
        exact .repeatedValue hmany hkey hat (by simpa using hbefore) hfirst
      · intro h
        cases h with
        | tooFewValues hfew => exact absurd hfew hsize
        | repeatedKey _ hold => exact absurd hold hkey
        | repeatedValue _ _ hat hbefore hfirst =>
          exact ⟨_, firstRepeated?_eq_some_iff.2 ⟨_, hat, .inr hbefore, hfirst, by simp⟩, rfl⟩

theorem refusal?_congr (h : ∀ key, key ∈ earlier ↔ key ∈ seen) (d : Definition) :
    d.refusal? earlier = d.refusal? seen := by
  rw [refusal?, refusal?]
  simp only [h]

/-- The property of a definition that is not refused. -/
def property (d : Definition) : Property := ⟨d.key, ⟨d.values⟩⟩

end Definition

namespace Schema

open Definition (Sound Defect)

theorem propertiesOf_cons (seen : List String) (d : Definition) (rest : List Definition) :
    propertiesOf seen (d :: rest) =
      match d.refusal? seen with
      | some refusal => .error refusal
      | none => (d.property :: ·) <$> propertiesOf (d.key :: seen) rest := by
  rw [propertiesOf, Definition.refusal?]
  by_cases hsize : d.values.length < 2
  · rw [if_pos hsize, if_pos hsize]
    rfl
  rw [if_neg hsize, if_neg hsize]
  by_cases hkey : d.key ∈ seen
  · rw [if_pos hkey]
    dsimp only
    rw [if_pos (List.contains_iff_mem.2 hkey)]
    rfl
  rw [if_neg hkey]
  dsimp only
  rw [if_neg fun h => hkey (List.contains_iff_mem.1 h), Vocabulary.ofList]
  cases firstRepeated? [] d.values with
  | some symbol => rfl
  | none =>
    show (propertiesOf (d.key :: seen) rest >>= fun _ => _) = _
    cases propertiesOf (d.key :: seen) rest <;> rfl

@[simp] theorem keys_concat (properties : List Property) (d : Definition) :
    (Schema.mk (properties ++ [d.property])).keys = (Schema.mk properties).keys ++ [d.key] := by
  simp [keys, Definition.property]

/-- The refusal of the definition at a place after those before it, if it is refused. -/
def refusalAt? (seen : List String) (definitions : List Definition) (i : Nat) : Option Refusal :=
  definitions[i]?.bind (·.refusal? (seen ++ (definitions.take i).map Definition.key))

@[simp] theorem refusalAt?_nil (seen : List String) (i : Nat) : refusalAt? seen [] i = none := by
  simp [refusalAt?]

@[simp] theorem refusalAt?_zero (seen : List String) (d : Definition) (rest : List Definition) :
    refusalAt? seen (d :: rest) 0 = d.refusal? seen := by
  simp [refusalAt?]

@[simp] theorem refusalAt?_succ (seen : List String) (d : Definition) (rest : List Definition)
    (i : Nat) : refusalAt? seen (d :: rest) (i + 1) = refusalAt? (d.key :: seen) rest i := by
  rw [refusalAt?, refusalAt?, List.getElem?_cons_succ]
  congr 1
  funext other
  apply Definition.refusal?_congr
  intro key
  simp [or_left_comm]

variable {seen : List String} {definitions : List Definition}

/-- Definitions are refused for the first of them that is. -/
theorem propertiesOf_eq_error_iff {refusal : Refusal} :
    propertiesOf seen definitions = .error refusal ↔
      ∃ i, refusalAt? seen definitions i = some refusal ∧
        ∀ j < i, refusalAt? seen definitions j = none := by
  induction definitions generalizing seen with
  | nil => simp [propertiesOf]
  | cons d rest ih =>
    rw [propertiesOf_cons]
    cases hd : d.refusal? seen with
    | some first =>
      dsimp only
      constructor
      · intro h
        cases h
        exact ⟨0, by simpa using hd, by simp⟩
      · rintro ⟨i, hi, hbefore⟩
        cases i with
        | zero =>
          rw [refusalAt?_zero, hd] at hi
          rw [Option.some.inj hi]
        | succ i =>
          have hzero := hbefore 0 (Nat.zero_lt_succ i)
          rw [refusalAt?_zero, hd] at hzero
          cases hzero
    | none =>
      have hrest : (d.property :: ·) <$> propertiesOf (d.key :: seen) rest = .error refusal ↔
          propertiesOf (d.key :: seen) rest = .error refusal := by
        cases propertiesOf (d.key :: seen) rest <;> simp [Functor.map, Except.map]
      dsimp only
      rw [hrest, ih]
      constructor
      · rintro ⟨i, hi, hbefore⟩
        refine ⟨i + 1, by simpa using hi, fun j hj => ?_⟩
        cases j with
        | zero => simpa using hd
        | succ j => simpa using hbefore j (by omega)
      · rintro ⟨i, hi, hbefore⟩
        cases i with
        | zero => simp [hd] at hi
        | succ i =>
          exact ⟨i, by simpa using hi, fun j hj => by simpa using hbefore (j + 1) (by omega)⟩

theorem propertiesOf_eq_ok_iff {properties : List Property} :
    propertiesOf seen definitions = .ok properties ↔
      properties = definitions.map Definition.property ∧
        ∀ i, refusalAt? seen definitions i = none := by
  induction definitions generalizing seen properties with
  | nil => simp [propertiesOf, eq_comm]
  | cons d rest ih =>
    rw [propertiesOf_cons]
    cases hd : d.refusal? seen with
    | some first =>
      refine ⟨fun h => (by cases h), fun h => ?_⟩
      have hzero := h.2 0
      rw [refusalAt?_zero, hd] at hzero
      cases hzero
    | none =>
      dsimp only
      rw [map_eq_ok_iff]
      constructor
      · rintro ⟨others, hothers, rfl⟩
        obtain ⟨rfl, hnone⟩ := ih.1 hothers
        refine ⟨rfl, fun i => ?_⟩
        cases i with
        | zero => simpa using hd
        | succ i => simpa using hnone i
      · rintro ⟨rfl, hnone⟩
        exact ⟨_, ih.2 ⟨rfl, fun i => by simpa using hnone (i + 1)⟩, rfl⟩

/-! ### Keys with their symbols -/

/-- Whether lists of keys and of their symbols describe a schema. -/
structure Describes (keys : List String) (values : List (List String)) : Prop where
  length_eq : keys.length = values.length
  two_le : ∀ symbols ∈ values, 2 ≤ symbols.length
  nodup_keys : keys.Nodup
  nodup_symbols : ∀ symbols ∈ values, symbols.Nodup

/-- The first thing that is wrong with lists of keys and of their symbols. The definitions are gone
through in the order of the keys, and nothing is wrong with those before the one that is refused. -/
inductive FirstDefect (keys : List String) (values : List (List String)) : Error → Prop where
  | mismatchedCounts (h : keys.length ≠ values.length) :
    FirstDefect keys values (.mismatchedCounts keys.length values.length)
  | refused (h : keys.length = values.length) {i : Nat} {key : String} {symbols : List String}
    {refusal : Refusal} (hkey : keys[i]? = some key) (hsymbols : values[i]? = some symbols)
    (hat : Defect (keys.take i) ⟨key, symbols⟩ refusal)
    (hbefore : ∀ (j : Nat) (key' : String) (symbols' : List String), j < i → keys[j]? = some key' →
      values[j]? = some symbols' → Sound (keys.take j) ⟨key', symbols'⟩) :
    FirstDefect keys values (.refused refusal)

variable {keys : List String} {values : List (List String)}

/-- The definitions of keys with their symbols. -/
def definitionsOf (keys : List String) (values : List (List String)) : List Definition :=
  List.zipWith Definition.mk keys values

theorem map_key_definitionsOf (h : keys.length = values.length) :
    (definitionsOf keys values).map Definition.key = keys := by
  have hkeys := List.map_fst_zip (Nat.le_of_eq h)
  rw [List.zip, List.map_zipWith] at hkeys
  rw [definitionsOf, List.map_zipWith]
  exact hkeys

theorem map_values_definitionsOf (h : keys.length = values.length) :
    (definitionsOf keys values).map Definition.values = values := by
  have hvalues := List.map_snd_zip (Nat.le_of_eq h.symm)
  rw [List.zip, List.map_zipWith] at hvalues
  rw [definitionsOf, List.map_zipWith]
  exact hvalues

theorem definitions_eq (s : Schema) :
    s.definitions = definitionsOf s.keys (s.properties.map fun p => p.vocabulary.symbols) := by
  simp [definitions, definitionsOf, keys]

theorem map_property_definitions (s : Schema) :
    s.definitions.map Definition.property = s.properties := by
  simp [definitions, Definition.property, Function.comp_def]

theorem getElem?_definitionsOf {i : Nat} {d : Definition} :
    (definitionsOf keys values)[i]? = some d ↔
      keys[i]? = some d.key ∧ values[i]? = some d.values := by
  rw [definitionsOf, List.getElem?_zipWith_eq_some]
  constructor
  · rintro ⟨key, symbols, hkey, hsymbols, rfl⟩
    exact ⟨hkey, hsymbols⟩
  · rintro ⟨hkey, hsymbols⟩
    exact ⟨d.key, d.values, hkey, hsymbols, rfl⟩

theorem refusalAt?_definitionsOf (h : keys.length = values.length) (i : Nat) :
    refusalAt? [] (definitionsOf keys values) i =
      (definitionsOf keys values)[i]?.bind (·.refusal? (keys.take i)) := by
  rw [refusalAt?, List.map_take, map_key_definitionsOf h, List.nil_append]

theorem refusalAt?_definitionsOf_eq_some_iff (h : keys.length = values.length) {i : Nat}
    {refusal : Refusal} : refusalAt? [] (definitionsOf keys values) i = some refusal ↔
      ∃ key symbols, keys[i]? = some key ∧ values[i]? = some symbols ∧
        Defect (keys.take i) ⟨key, symbols⟩ refusal := by
  rw [refusalAt?_definitionsOf h, Option.bind_eq_some_iff]
  constructor
  · rintro ⟨d, hd, hrefusal⟩
    obtain ⟨hkey, hsymbols⟩ := getElem?_definitionsOf.1 hd
    exact ⟨d.key, d.values, hkey, hsymbols, Definition.refusal?_eq_some_iff.1 hrefusal⟩
  · rintro ⟨key, symbols, hkey, hsymbols, hdefect⟩
    exact ⟨⟨key, symbols⟩, getElem?_definitionsOf.2 ⟨hkey, hsymbols⟩,
      Definition.refusal?_eq_some_iff.2 hdefect⟩

theorem refusalAt?_definitionsOf_eq_none_iff (h : keys.length = values.length) {i : Nat} :
    refusalAt? [] (definitionsOf keys values) i = none ↔
      ∀ key symbols, keys[i]? = some key → values[i]? = some symbols →
        Sound (keys.take i) ⟨key, symbols⟩ := by
  rw [refusalAt?_definitionsOf h, Option.bind_eq_none_iff]
  constructor
  · intro hnone key symbols hkey hsymbols
    exact Definition.refusal?_eq_none_iff.1
      (hnone ⟨key, symbols⟩ (getElem?_definitionsOf.2 ⟨hkey, hsymbols⟩))
  · intro hsound d hd
    obtain ⟨hkey, hsymbols⟩ := getElem?_definitionsOf.1 hd
    exact Definition.refusal?_eq_none_iff.2 (hsound d.key d.values hkey hsymbols)

theorem describes_iff (h : keys.length = values.length) :
    Describes keys values ↔ ∀ (i : Nat) (key : String) (symbols : List String),
      keys[i]? = some key → values[i]? = some symbols → Sound (keys.take i) ⟨key, symbols⟩ := by
  constructor
  · intro hdescribes i key symbols hkey hsymbols
    have hmem := List.mem_of_getElem? hsymbols
    refine ⟨hdescribes.two_le symbols hmem, fun hbefore => ?_,
      hdescribes.nodup_symbols symbols hmem⟩
    obtain ⟨j, hj, hsame⟩ := mem_take_iff_getElem?.1 hbefore
    apply List.nodup_iff_getElem?_ne_getElem?.1 hdescribes.nodup_keys j i hj
    · exact (List.getElem?_eq_some_iff.1 hkey).1
    · rw [hkey, hsame]
  · intro hsound
    -- each list of symbols is that of a key
    have hat : ∀ symbols ∈ values, ∃ (i : Nat) (key : String), keys[i]? = some key ∧
        values[i]? = some symbols := by
      intro symbols hmem
      obtain ⟨i, hi⟩ := List.mem_iff_getElem?.1 hmem
      have hlt : i < keys.length := by
        rw [h]
        exact (List.getElem?_eq_some_iff.1 hi).1
      exact ⟨i, keys[i], List.getElem?_eq_getElem hlt, hi⟩
    refine ⟨h, fun symbols hmem => ?_, ?_, fun symbols hmem => ?_⟩
    · obtain ⟨i, key, hkey, hsymbols⟩ := hat symbols hmem
      exact (hsound i key symbols hkey hsymbols).two_le
    · apply List.nodup_iff_getElem?_ne_getElem?.2
      intro i j hij hj hsame
      have hj' : j < values.length := h ▸ hj
      have hnew := (hsound j keys[j] values[j] (List.getElem?_eq_getElem hj)
        (List.getElem?_eq_getElem hj')).new
      apply hnew
      rw [List.getElem?_eq_getElem hj] at hsame
      exact mem_take_iff_getElem?.2 ⟨i, hij, hsame⟩
    · obtain ⟨i, key, hkey, hsymbols⟩ := hat symbols hmem
      exact (hsound i key symbols hkey hsymbols).nodup

theorem ofLists_eq_of_length (h : keys.length = values.length) :
    ofLists keys values =
      match ofDefinitions (definitionsOf keys values) with
      | .ok s => .ok s
      | .error refusal => .error (.refused refusal) := by
  rw [ofLists, if_neg (not_not_intro h)]
  rfl

theorem ofLists_eq_ok_iff {s : Schema} :
    ofLists keys values = .ok s ↔ Describes keys values ∧
      s = ⟨(definitionsOf keys values).map Definition.property⟩ := by
  by_cases hlength : keys.length = values.length
  · rw [ofLists_eq_of_length hlength, describes_iff hlength]
    have hsound : (∀ i, refusalAt? [] (definitionsOf keys values) i = none) ↔
        ∀ (i : Nat) (key : String) (symbols : List String), keys[i]? = some key →
          values[i]? = some symbols → Sound (keys.take i) ⟨key, symbols⟩ :=
      forall_congr' fun i => refusalAt?_definitionsOf_eq_none_iff hlength
    rw [← hsound]
    cases hproperties : propertiesOf [] (definitionsOf keys values) with
    | error refusal =>
      have hfail : ofDefinitions (definitionsOf keys values) = .error refusal := by
        rw [ofDefinitions, hproperties]
        rfl
      rw [hfail]
      refine ⟨fun h => (by cases h), fun h => ?_⟩
      rw [propertiesOf_eq_ok_iff.2 ⟨rfl, h.1⟩] at hproperties
      cases hproperties
    | ok properties =>
      obtain ⟨rfl, hnone⟩ := propertiesOf_eq_ok_iff.1 hproperties
      have hbuilt : ofDefinitions (definitionsOf keys values) =
          .ok ⟨(definitionsOf keys values).map Definition.property⟩ := by
        rw [ofDefinitions, hproperties]
        rfl
      rw [hbuilt]
      refine ⟨fun h => ⟨hnone, (Except.ok.inj h).symm⟩, fun h => ?_⟩
      rw [h.2]
  · rw [ofLists, if_pos hlength]
    exact ⟨fun h => (by cases h), fun h => absurd h.1.length_eq hlength⟩

theorem ofLists_eq_error_iff {e : Error} :
    ofLists keys values = .error e ↔ FirstDefect keys values e := by
  by_cases hlength : keys.length = values.length
  · have hrefused : ofLists keys values = .error e ↔ ∃ refusal, e = .refused refusal ∧
        propertiesOf [] (definitionsOf keys values) = .error refusal := by
      rw [ofLists_eq_of_length hlength, ofDefinitions]
      cases propertiesOf [] (definitionsOf keys values) <;>
        simp [Functor.map, Except.map, eq_comm]
    rw [hrefused]
    constructor
    · rintro ⟨refusal, rfl, hrefusal⟩
      obtain ⟨i, hi, hbefore⟩ := propertiesOf_eq_error_iff.1 hrefusal
      obtain ⟨key, symbols, hkey, hsymbols, hdefect⟩ :=
        (refusalAt?_definitionsOf_eq_some_iff hlength).1 hi
      refine .refused hlength hkey hsymbols hdefect fun j key' symbols' hj => ?_
      exact (refusalAt?_definitionsOf_eq_none_iff hlength).1 (hbefore j hj) key' symbols'
    · intro h
      cases h with
      | mismatchedCounts hne => exact absurd hlength hne
      | @refused _ i key symbols refusal hkey hsymbols hat hbefore =>
        refine ⟨refusal, rfl, propertiesOf_eq_error_iff.2 ⟨i, ?_, fun j hj => ?_⟩⟩
        · exact (refusalAt?_definitionsOf_eq_some_iff hlength).2 ⟨key, symbols, hkey, hsymbols, hat⟩
        · exact (refusalAt?_definitionsOf_eq_none_iff hlength).2 fun key' symbols' =>
            hbefore j key' symbols' hj
  · rw [ofLists, if_pos hlength]
    constructor
    · intro h
      cases h
      exact .mismatchedCounts hlength
    · intro h
      cases h with
      | mismatchedCounts => rfl
      | refused h => exact absurd h hlength

end Schema

end QuestionTree
