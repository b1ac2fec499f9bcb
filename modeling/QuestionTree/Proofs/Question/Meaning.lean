import QuestionTree.Proofs.Json.Roundtrip
import QuestionTree.Proofs.Question.Built

/-!
# What questions mean

A question is made of names, but it keeps places: it looks a record up at the place of its key and
accepts the value at a place. `Question.Means` says what this comes to in names. The question is
answered by the last value that the record was given under the name of the key, and by nothing if it
was given none. This is so on every way to make a question, by one name, by several names, or by
reading the places off a text, where the names or places may come in any order and more than once.

The values are kept in ascending order and each of them once, so that they need not be compared one
by one: halving the list finds the values that are accepted and no others.
-/

namespace QuestionTree

/-! ### Halving -/

/-- Whether a number is found in a list by comparing it with the item in the middle and going on
with one half, until one item is left. -/
def foundByHalving (n : Nat) (ns : List Nat) : Bool :=
  if h : 2 ≤ ns.length then
    if n < ns[ns.length / 2] then foundByHalving n (ns.take (ns.length - ns.length / 2))
    else foundByHalving n (ns.drop (ns.length / 2))
  else ns.head? == some n
termination_by ns.length
decreasing_by
  · simp only [List.length_take]
    omega
  · simp only [List.length_drop]
    omega

theorem getElem_le_of_ascending {ns : List Nat} (h : ns.Pairwise (· < ·)) {i j : Nat}
    (hj : j < ns.length) (hij : i ≤ j) : ns[i] ≤ ns[j] := by
  rcases Nat.lt_or_eq_of_le hij with hlt | rfl
  · exact Nat.le_of_lt (List.pairwise_iff_getElem.1 h i j (by omega) hj hlt)
  · exact Nat.le_refl _

/-- In an ascending list halving finds the items. -/
theorem foundByHalving_iff {n : Nat} {ns : List Nat} (h : ns.Pairwise (· < ·)) :
    foundByHalving n ns = true ↔ n ∈ ns := by
  induction ns using foundByHalving.induct n with
  | case1 ns hlength hlt ih =>
    rw [foundByHalving, dif_pos hlength, if_pos hlt, ih (h.sublist (List.take_sublist ..))]
    refine ⟨List.mem_of_mem_take, fun hmem => ?_⟩
    obtain ⟨i, hi, rfl⟩ := List.mem_iff_getElem.1 hmem
    -- what is less than the item in the middle stands before it
    have hbefore : i < ns.length / 2 := by
      by_contra hnot
      have hle := getElem_le_of_ascending h hi (Nat.le_of_not_lt hnot)
      omega
    exact List.mem_take_iff_getElem.2 ⟨i, by omega, rfl⟩
  | case2 ns hlength hlt ih =>
    rw [foundByHalving, dif_pos hlength, if_neg hlt, ih (h.sublist (List.drop_sublist ..))]
    refine ⟨List.mem_of_mem_drop, fun hmem => ?_⟩
    obtain ⟨i, hi, rfl⟩ := List.mem_iff_getElem.1 hmem
    have hbehind : ns.length / 2 ≤ i := by
      by_contra hnot
      have hless := List.pairwise_iff_getElem.1 h i (ns.length / 2) hi (by omega) (by omega)
      omega
    refine List.mem_drop_iff_getElem.2 ⟨i - ns.length / 2, by omega, ?_⟩
    simp only [Nat.add_sub_cancel' hbehind]
  | case3 ns hlength =>
    rw [foundByHalving, dif_neg hlength]
    match ns with
    | [] => simp
    | [m] =>
      rw [List.head?_cons, beq_iff_eq, Option.some_inj, List.mem_singleton]
      exact eq_comm
    | m :: k :: ns => exact absurd (Nat.le_add_left 2 ns.length) hlength

example : foundByHalving 5 [1, 2, 5, 7, 9] = true ∧ foundByHalving 6 [1, 2, 5, 7, 9] = false := by
  decide +kernel

/-! ### Names and places -/

/-- The places of names in the vocabulary of a key. -/
def Property.placesOf (p : Property) (names : List String) : List Nat :=
  names.filterMap p.vocabulary.index?

/-- The names at places of the vocabulary of a key. -/
def Property.namesAt (p : Property) (values : List Nat) : List String :=
  values.filterMap (p.vocabulary.symbols[·]?)

namespace Property

variable {p : Property} (hsymbols : p.vocabulary.symbols.Nodup)

include hsymbols

theorem mem_placesOf_iff {names : List String} {v : Nat} {name : String}
    (hv : p.vocabulary.symbols[v]? = some name) : v ∈ p.placesOf names ↔ name ∈ names := by
  have hplace : ∀ other, p.vocabulary.index? other = some v ↔ other = name := by
    intro other
    rw [Vocabulary.index?, idxOf?_eq_some_iff_getElem? hsymbols, hv, Option.some_inj, eq_comm]
  simp [placesOf, hplace]

theorem mem_namesAt_iff {values : List Nat} {v : Nat} {name : String}
    (hv : p.vocabulary.symbols[v]? = some name) : name ∈ p.namesAt values ↔ v ∈ values := by
  have hplace : ∀ w, p.vocabulary.symbols[w]? = some name ↔ w = v := by
    intro w
    rw [← idxOf?_eq_some_iff_getElem? hsymbols] at hv ⊢
    rw [hv, Option.some_inj, eq_comm]
  simp [namesAt, hplace]

theorem placesOf_eq_map {names : List String}
    (hnames : ∀ name ∈ names, name ∈ p.vocabulary.symbols) :
    p.placesOf names = names.map p.vocabulary.symbols.idxOf := by
  rw [placesOf, ← List.filterMap_eq_map]
  refine List.filterMap_congr fun name hname => ?_
  exact (idxOf?_eq_some_iff_getElem? hsymbols).2 (List.getElem?_idxOf (hnames name hname))

end Property

/-! ### Answers by name -/

namespace Question

/-- Whether a question about a key answers a record by the last value that the key was given. -/
structure AnswersBy (q : Question) (key : String) (names : List String)
    (pairs : List (String × String)) (r : Record) : Prop where
  /-- There is no answer if no pair names the key. -/
  undefined_iff : q.evaluate r = .undefined ↔ ∀ pair ∈ pairs, pair.1 ≠ key
  yes_iff : q.evaluate r = .yes ↔ ∃ name ∈ names, lastValue? pairs key = some name
  no_iff : q.evaluate r = .no ↔ ∃ name, name ∉ names ∧ lastValue? pairs key = some name

/-- Whether a question asks if the value of a key is one of some names, which stand at some places
of its vocabulary. -/
structure Means (q : Question) (schema : Schema) (key : String) (names : List String)
    (values : List Nat) : Prop where
  accepts_iff : ∀ v, q.accepts v = true ↔ v ∈ values
  /-- Halving the values that are kept comes to the same. -/
  found_iff : ∀ v, foundByHalving v q.acceptance.values = true ↔ v ∈ values
  /-- Records are answered by name if their schema does not differ. -/
  answers : ∀ (other : Schema) (pairs : List (String × String)) (r : Record), other.Built →
    schema.requireSame other = .ok () → Record.ofPairs other pairs = .ok r →
      q.AnswersBy key names pairs r

variable {schema : Schema} {p : Property} {q : Question}

/-- A question that accepts the places of names answers by these names. -/
theorem answersBy_of_tells (hp : schema.properties[q.key]? = some p)
    {names : List String} (hnames : ∀ (v : Nat) name, p.vocabulary.symbols[v]? = some name →
      (q.accepts v = true ↔ name ∈ names)) {pairs : List (String × String)} {r : Record}
    (htells : r.Tells schema pairs) : q.AnswersBy p.key names pairs r := by
  cases hlast : lastValue? pairs p.key with
  | none =>
    have hanswer : q.evaluate r = .undefined := by
      rw [evaluate, htells.unknown q.key p hp hlast]
    refine ⟨iff_of_true hanswer (lastValue?_eq_none_iff.1 hlast), ?_, ?_⟩ <;>
      simp [hanswer, hlast]
  | some name =>
    obtain ⟨v, hv, hvalue⟩ := htells.known q.key p name hp hlast
    have hsome : ¬ ∀ pair ∈ pairs, pair.1 ≠ p.key := by
      rw [← lastValue?_eq_none_iff, hlast]
      exact Option.some_ne_none name
    by_cases hmem : name ∈ names
    · have hanswer : q.evaluate r = .yes := by
        rw [evaluate, hvalue]
        exact if_pos ((hnames v name hv).2 hmem)
      refine ⟨iff_of_false (by simp [hanswer]) hsome, ?_, ?_⟩ <;> simp [hanswer, hlast, hmem]
    · have hanswer : q.evaluate r = .no := by
        rw [evaluate, hvalue]
        exact if_neg fun haccepts => hmem ((hnames v name hv).1 haccepts)
      refine ⟨iff_of_false (by simp [hanswer]) hsome, ?_, ?_⟩ <;> simp [hanswer, hlast, hmem]

theorem means_of_ascending (hschema : schema.Built) (hp : schema.properties[q.key]? = some p)
    {names : List String} {values : List Nat}
    (hnames : ∀ (v : Nat) name, p.vocabulary.symbols[v]? = some name → (v ∈ values ↔ name ∈ names))
    (hkept : ∀ v, v ∈ q.acceptance.values ↔ v ∈ values)
    (hascending : q.acceptance.values.Pairwise (· < ·)) :
    q.Means schema p.key names values := by
  have haccepts : ∀ v, q.accepts v = true ↔ v ∈ values := fun v =>
    List.contains_iff_mem.trans (hkept v)
  refine ⟨haccepts, fun v => (foundByHalving_iff hascending).trans (hkept v), ?_⟩
  intro other pairs r hother hsame hr
  have heq : schema = other := by
    by_contra hne
    rw [Schema.requireSame_eq hschema hother, if_neg hne] at hsame
    cases hsame
  rw [← heq] at hr
  exact answersBy_of_tells hp (fun v name hv => (haccepts v).trans (hnames v name hv))
    (Record.tells_of_ofPairs hschema hr)

/-! ### The ways to make a question -/

theorem exists_normalize {raw : Acceptance} (h : raw.values ≠ []) :
    ∃ a, raw.normalize = .ok a := by
  cases raw with
  | single value => exact ⟨_, rfl⟩
  | set values => exact ⟨_, Acceptance.normalize_set h⟩

theorem requireValue_of_mem (hschema : schema.Built) {k : Nat}
    (hk : schema.properties[k]? = some p) {name : String} (hname : name ∈ p.vocabulary.symbols) :
    schema.requireValue p.key name = .ok (k, p.vocabulary.symbols.idxOf name) :=
  hschema.requireValue_eq_ok_iff.2 ⟨p, hk, rfl, List.getElem?_idxOf hname⟩

theorem exists_single (hschema : schema.Built) (hp : p ∈ schema.properties) {name : String}
    (hname : name ∈ p.vocabulary.symbols) (description : String) :
    ∃ q, single schema p.key name description = .ok q ∧
      q.Means schema p.key [name] (p.placesOf [name]) := by
  obtain ⟨k, hk⟩ := List.mem_iff_getElem?.1 hp
  have hsymbols := hschema.nodup_symbols hp
  have hplaces : p.placesOf [name] = [p.vocabulary.symbols.idxOf name] :=
    Property.placesOf_eq_map hsymbols (List.forall_mem_singleton.2 hname)
  refine ⟨⟨k, .single (p.vocabulary.symbols.idxOf name), description⟩, ?_, ?_⟩
  · rw [single, requireValue_of_mem hschema hk hname]
    rfl
  · refine means_of_ascending hschema hk (fun _ _ => Property.mem_placesOf_iff hsymbols)
      (fun v => ?_)
      (List.pairwise_singleton _ _)
    rw [hplaces]
    exact Iff.rfl

theorem exists_oneOf (hschema : schema.Built) (hp : p ∈ schema.properties) {names : List String}
    (hne : names ≠ []) (hnames : ∀ name ∈ names, name ∈ p.vocabulary.symbols)
    (description : String) :
    ∃ q, oneOf schema p.key names description = .ok q ∧
      q.Means schema p.key names (p.placesOf names) := by
  obtain ⟨k, hk⟩ := List.mem_iff_getElem?.1 hp
  have hsymbols := hschema.nodup_symbols hp
  have hfound := mapM_eq_ok fun name hname => requireValue_of_mem hschema hk (hnames name hname)
  have hlast : ((names.map fun name => (k, p.vocabulary.symbols.idxOf name)).getLast?.map
      Prod.fst).getD 0 = k := by
    rw [List.getLast?_map, List.getLast?_eq_some_getLast hne]
    rfl
  have hplaces : (names.map fun name => (k, p.vocabulary.symbols.idxOf name)).map Prod.snd =
      p.placesOf names := by
    rw [Property.placesOf_eq_map hsymbols hnames, List.map_map]
    rfl
  refine ⟨⟨k, .set (ascending (p.placesOf names)), description⟩, ?_, ?_⟩
  · rw [oneOf, if_neg (by rwa [List.isEmpty_iff])]
    simp only [hfound, bind, Except.bind, pure, Except.pure, hlast, hplaces]
  · exact means_of_ascending hschema hk (fun _ _ => Property.mem_placesOf_iff hsymbols)
      (fun _ => mem_ascending) (pairwise_ascending _)

theorem means_of_normalize (hschema : schema.Built) {k : Nat}
    (hk : schema.properties[k]? = some p) {raw a : Acceptance} (h : raw.normalize = .ok a)
    (description : String) :
    Means ⟨k, a, description⟩ schema p.key (p.namesAt raw.values) raw.values := by
  have hsymbols := hschema.nodup_symbols (List.mem_of_getElem? hk)
  refine means_of_ascending hschema hk (fun _ _ hv => (Property.mem_namesAt_iff hsymbols hv).symm)
    (Acceptance.normal_of_normalize h).2 ?_
  cases raw with
  | single value =>
    cases h
    exact List.pairwise_singleton _ _
  | set values =>
    cases values with
    | nil => cases h
    | cons v values =>
      cases h
      exact pairwise_ascending _

/-- A question means what its names or its places say, whether it is made of one name, of several
names, or read from a text. There the values of its kind may be spelled in any way. -/
theorem means_names (hschema : schema.Built) {k : Nat} (hk : schema.properties[k]? = some p)
    (description : String) :
    (∀ name ∈ p.vocabulary.symbols, ∃ q, single schema p.key name description = .ok q ∧
      q.Means schema p.key [name] (p.placesOf [name])) ∧
    (∀ names : List String, names ≠ [] → (∀ name ∈ names, name ∈ p.vocabulary.symbols) →
      ∃ q, oneOf schema p.key names description = .ok q ∧
        q.Means schema p.key names (p.placesOf names)) ∧
    (∀ (raw : Acceptance) (room : Nat) (j : Json), raw.values ≠ [] →
      Acceptance.wireDecoder room j = .ok raw → ∃ a, Acceptance.decoder room j = .ok a ∧
        Means ⟨k, a, description⟩ schema p.key (p.namesAt raw.values) raw.values) ∧
    ∀ raw : Acceptance, raw.values ≠ [] → k < UInt64.size →
      (∀ v ∈ raw.values, v < UInt64.size) →
      ∃ q, decoder.load (toJson ⟨k, raw, description⟩).write = .ok q ∧
        q.Means schema p.key (p.namesAt raw.values) raw.values := by
  have hp := List.mem_of_getElem? hk
  refine ⟨fun name hname => exists_single hschema hp hname description,
    fun names hne hnames => exists_oneOf hschema hp hne hnames description, ?_, ?_⟩
  · intro raw room j hne hwire
    obtain ⟨a, ha⟩ := exists_normalize hne
    exact ⟨a, Decoder.refine_eq_ok_iff.2 ⟨raw, hwire, ha⟩, means_of_normalize hschema hk ha _⟩
  · intro raw hne hkey hvalues
    obtain ⟨a, ha⟩ := exists_normalize hne
    refine ⟨⟨k, a, description⟩, ?_, means_of_normalize hschema hk ha description⟩
    exact Decoder.load_of_read (spelled_toJson _)
      (decoder_toJson_of_normalize hkey hvalues ha (Decoder.maxNesting - 3))

/-- Sizes that things may have. -/
def sizes : Property := ⟨"size", ⟨["small", "medium", "large"]⟩⟩

/-- The question for two of the sizes, one of which is named twice. -/
theorem means_large_or_small : (⟨[sizes]⟩ : Schema).Built ∧
    ∃ q, oneOf ⟨[sizes]⟩ "size" ["large", "small", "large"] "" = .ok q ∧
      q.Means ⟨[sizes]⟩ "size" ["large", "small", "large"] [2, 0, 2] := by
  have hbuilt : (⟨[sizes]⟩ : Schema).Built :=
    ⟨[⟨"size", ["small", "medium", "large"]⟩], by decide +kernel⟩
  have hmeans := (means_names (p := sizes) hbuilt (k := 0) rfl "").2.1
  exact ⟨hbuilt, hmeans ["large", "small", "large"] (by decide) (by decide)⟩

end Question

end QuestionTree
