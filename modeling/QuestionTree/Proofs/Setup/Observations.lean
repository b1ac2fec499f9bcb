import QuestionTree.Proofs.Example.Rows
import QuestionTree.Proofs.Record.History
import QuestionTree.Proofs.Setup.Examples

/-!
# Observations of described examples

An example is built exactly if the schema lists all that it tells of itself, its rows are equally
long and the memory has room for them. Then the rows stand in the box as they were described. Until
then values are written to cells inside only, and nothing depends on the order in which the keys are
told.
-/

namespace QuestionTree

/-- Whether a value is one of those of a key. -/
def Schema.Lists (s : Schema) (key value : String) : Prop :=
  ∃ p ∈ s.properties, p.key = key ∧ value ∈ p.vocabulary.symbols

namespace Record

variable {schema : Schema} {r : Record} {listed : List (String × String)}

theorem exists_set_iff (hschema : schema.Built) (hr : r.schema = schema) {key value : String} :
    (∃ r', r.set key value = .ok r') ↔ schema.Lists key value := by
  constructor
  · rintro ⟨r', hset⟩
    obtain ⟨⟨k, v⟩, hfound, -⟩ := bind_eq_ok_iff.1 hset
    rw [hr, hschema.requireValue_eq_ok_iff] at hfound
    obtain ⟨p, hp, hkey, hvalue⟩ := hfound
    exact ⟨p, List.mem_of_getElem? hp, hkey, List.mem_of_getElem? hvalue⟩
  · rintro ⟨p, hp, hkey, hvalue⟩
    obtain ⟨k, hk⟩ := List.mem_iff_getElem?.1 hp
    obtain ⟨v, hv⟩ := List.mem_iff_getElem?.1 hvalue
    have hfound : r.schema.requireValue key value = .ok (k, v) := by
      rw [hr, hschema.requireValue_eq_ok_iff]
      exact ⟨p, hk, hkey, hv⟩
    exact ⟨_, bind_eq_ok_iff.2 ⟨(k, v), hfound, rfl⟩⟩

theorem exists_setAll_iff (hschema : schema.Built) (hr : r.schema = schema) :
    (∃ r', listed.foldlM (fun r (key, value) => r.set key value) r = .ok r') ↔
      ∀ pair ∈ listed, schema.Lists pair.1 pair.2 := by
  induction listed generalizing r with
  | nil => exact iff_of_true ⟨r, rfl⟩ (List.forall_mem_nil _)
  | cons pair listed ih =>
    rw [List.forall_mem_cons, ← exists_set_iff hschema hr]
    have hnext : ∀ r', r.set pair.1 pair.2 = .ok r' → r'.schema = schema := by
      intro r' hset
      obtain ⟨_, -, hset⟩ := bind_eq_ok_iff.1 hset
      cases hset
      exact hr
    constructor
    · rintro ⟨last, hlast⟩
      obtain ⟨r', hset, hrest⟩ := bind_eq_ok_iff.1 hlast
      exact ⟨⟨r', hset⟩, (ih (hnext r' hset)).1 ⟨last, hrest⟩⟩
    · rintro ⟨⟨r', hset⟩, hrest⟩
      obtain ⟨last, hlast⟩ := (ih (hnext r' hset)).2 hrest
      exact ⟨last, bind_eq_ok_iff.2 ⟨r', hset, hlast⟩⟩

/-- A record comes about exactly if all pairs are listed in the schema. -/
theorem exists_ofPairs_iff (hschema : schema.Built) (hset : schema.isSet = true) :
    (∃ r, ofPairs schema listed = .ok r) ↔ ∀ pair ∈ listed, schema.Lists pair.1 pair.2 := by
  have hstart : blank schema = .ok ⟨schema, List.replicate schema.size none⟩ :=
    bind_eq_ok_iff.2 ⟨(), Schema.requireSet_eq_ok_iff.2 hset, rfl⟩
  have hrun : ofPairs schema listed =
      listed.foldlM (fun r (key, value) => r.set key value)
        ⟨schema, List.replicate schema.size none⟩ := by
    rw [ofPairs, hstart]
    rfl
  rw [hrun, exists_setAll_iff hschema rfl]

end Record

namespace ExampleSetup

/-- Whether an example holds what was described. -/
structure Holds (e : ExampleSetup) (x : Example Float) : Prop where
  rows_eq : x.box.rows = e.matrix.length
  columns_eq : x.box.columns = Box.width e.matrix
  data_eq : x.box.data = e.matrix.flatten
  /-- A value is read in its row and its column. -/
  at?_eq : ∀ i j row value, e.matrix[i]? = some row → row[j]? = some value →
    x.box.at? i j = some value
  /-- Inside the box there are these values only. -/
  inside_iff : ∀ i j, x.box.Inside i j ↔ ∃ row, e.matrix[i]? = some row ∧ j < row.length
  /-- The box is that of the values in their order. -/
  ofValues_eq : Box.ofValues e.matrix.length (Box.width e.matrix) e.matrix.flatten = .ok x.box
  record_eq : Record.ofPairs x.record.schema (inOrder e.properties) = .ok x.record
  mass_eq : x.mass = e.mass

variable {e : ExampleSetup} {memory : Memory} {schema : Schema} {x : Example Float}

theorem build_eq_ok_iff : e.build memory schema = .ok x ↔
    Record.ofPairs schema (inOrder e.properties) = .ok x.record ∧
      Box.ofRows memory e.matrix = .ok x.box ∧ x.mass = e.mass := by
  constructor
  · intro h
    obtain ⟨record, hrecord, h⟩ := bind_eq_ok_iff.1 h
    obtain ⟨box, hbox, h⟩ := bind_eq_ok_iff.1 h
    cases h
    exact ⟨hrecord, hbox, rfl⟩
  · rintro ⟨hrecord, hbox, hmass⟩
    refine bind_eq_ok_iff.2 ⟨x.record, hrecord, bind_eq_ok_iff.2 ⟨x.box, hbox, ?_⟩⟩
    rw [← hmass]
    rfl

/-- Whether there is room for the rows. -/
def HasRoom (e : ExampleSetup) (memory : Memory) : Prop :=
  ∃ zero : Box Float, Box.zeros memory e.matrix.length (Box.width e.matrix) = .ok zero

theorem exists_build_iff (hschema : schema.Built) (hset : schema.isSet = true) :
    (∃ x, e.build memory schema = .ok x) ↔
      (∀ pair ∈ e.properties, schema.Lists pair.1 pair.2) ∧ e.HasRoom memory ∧
        Box.Uniform (Box.width e.matrix) e.matrix := by
  have hperm : (inOrder e.properties).Perm e.properties := List.mergeSort_perm _ _
  have hlisted : (∃ r, Record.ofPairs schema (inOrder e.properties) = .ok r) ↔
      ∀ pair ∈ e.properties, schema.Lists pair.1 pair.2 := by
    rw [Record.exists_ofPairs_iff hschema hset]
    simp only [hperm.mem_iff]
  rw [← hlisted, HasRoom, ← Box.exists_ofRows_iff]
  constructor
  · rintro ⟨x, hx⟩
    obtain ⟨hrecord, hbox, -⟩ := build_eq_ok_iff.1 hx
    exact ⟨⟨x.record, hrecord⟩, ⟨x.box, hbox⟩⟩
  · rintro ⟨⟨record, hrecord⟩, ⟨box, hbox⟩⟩
    exact ⟨⟨record, box, e.mass⟩, build_eq_ok_iff.2 ⟨hrecord, hbox, rfl⟩⟩

theorem holds_of_build (hschema : schema.Built) (h : e.build memory schema = .ok x) :
    e.Holds x := by
  obtain ⟨hrecord, hbox, hmass⟩ := build_eq_ok_iff.1 h
  obtain ⟨⟨zero, hroom⟩, huniform⟩ := Box.exists_ofRows_iff.1 ⟨x.box, hbox⟩
  rw [Box.ofRows_of_uniform hroom huniform] at hbox
  have hlength := Box.length_flatten_of_uniform huniform
  have hcount := (Box.zeros_eq_ok hroom).1
  have hx : x.box = ⟨e.matrix.length, Box.width e.matrix, e.matrix.flatten⟩ :=
    (Except.ok.inj hbox).symm
  have hlist : ∀ {i : Nat} {row : List Float}, e.matrix[i]? = some row →
      row.length = Box.width e.matrix :=
    fun hrow => huniform _ (List.mem_of_getElem? hrow)
  have hinside : ∀ i j, x.box.Inside i j ↔ ∃ row, e.matrix[i]? = some row ∧ j < row.length := by
    intro i j
    rw [hx]
    constructor
    · rintro ⟨hi, hj⟩
      have hrow : e.matrix[i]? = some e.matrix[i] := List.getElem?_eq_getElem hi
      exact ⟨e.matrix[i], hrow, by rw [hlist hrow]; exact hj⟩
    · rintro ⟨row, hrow, hj⟩
      rw [hlist hrow] at hj
      exact ⟨(List.getElem?_eq_some_iff.1 hrow).1, hj⟩
  have hschemaEq : x.record.schema = schema := (Record.fits_of_ofPairs hschema hrecord).schema_eq
  refine
    { rows_eq := by rw [hx]
      columns_eq := by rw [hx]
      data_eq := by rw [hx]
      at?_eq := fun i j row value hrow hvalue => ?_
      inside_iff := hinside
      ofValues_eq := ?_
      record_eq := by rw [hschemaEq, hrecord]
      mass_eq := hmass }
  · have hj : j < row.length := (List.getElem?_eq_some_iff.1 hvalue).1
    have haddressed : x.box.Addressed := by
      rw [hx]
      exact ⟨hlength, hlength.trans_lt hcount⟩
    have hposition := haddressed.position_eq ((hinside i j).2 ⟨row, hrow, hj⟩)
    rw [hlist hrow] at hj
    rw [Box.at?, hposition, hx, Box.getElem?_flatten_of_uniform huniform hj, hrow]
    exact hvalue
  · rw [hx, Box.ofValues, if_pos hlength.symm]

/-- What is true of building an example, whatever the memory grants. -/
structure Observed (e : ExampleSetup) (memory : Memory) (schema : Schema) : Prop where
  exists_iff : (∃ x, e.build memory schema = .ok x) ↔
    (∀ pair ∈ e.properties, schema.Lists pair.1 pair.2) ∧ e.HasRoom memory ∧
      Box.Uniform (Box.width e.matrix) e.matrix
  /-- Room is a matter of the number of values alone. -/
  room_iff : e.HasRoom memory ↔
    e.matrix.length * Box.width e.matrix < Box.placeCount ∧
      Box.roomFor memory (e.matrix.length * Box.width e.matrix) = true
  holds : ∀ x, e.build memory schema = .ok x → e.Holds x
  /-- Until a row is refused, all writes go to cells inside. -/
  inside : ∀ zero, Box.zeros memory e.matrix.length (Box.width e.matrix) = .ok zero →
    ∀ b i j value, Box.Writes zero e.matrix b i j value →
      b.Inside i j ∧ (b.setAt? i j value).isSome = true
  /-- The same is built, or the same is wrong, in whatever order the keys are told. -/
  order : ∀ properties, e.properties.Perm properties →
    ExampleSetup.build { e with properties } memory schema = e.build memory schema

theorem observed_of_built (memory : Memory) (hschema : schema.Built) (hset : schema.isSet = true)
    (hkeys : (e.properties.map Prod.fst).Nodup) : e.Observed memory schema := by
  refine
    { exists_iff := exists_build_iff hschema hset
      room_iff := Box.exists_zeros_iff
      holds := fun x hx => holds_of_build hschema hx
      inside := fun zero hzero b i j value hwrites => ?_
      order := fun properties hperm => ?_ }
  · have hrows : zero.rows = e.matrix.length := by rw [(Box.zeros_eq_ok hzero).2]
    exact (Box.inside_of_writes (Box.addressed_of_zeros hzero) hrows hwrites).2
  · rw [build, build, inOrder_perm hperm hkeys]

/-- A small red thing. -/
def smallAndRed (matrix : List (List Float)) : ExampleSetup where
  properties := [("size", "small"), ("color", "red")]
  matrix := matrix

open Record (colorAndSize built_colorAndSize) in
/-- Two rows of three values are observed where there is room for six values, and refused where
there is not. A row of another length is refused although all that the example tells of itself is
listed. -/
theorem observed_smallAndRed :
    let even := smallAndRed [[1, 2, 3], [4, 5, 6]]
    let ragged := smallAndRed [[1, 2, 3], [4, 5]]
    (∃ x, even.build (.ofSize 48) colorAndSize = .ok x ∧ x.box.rows = 2 ∧ x.box.columns = 3 ∧
      x.box.at? 1 1 = some 5 ∧ x.box.Inside 1 2 ∧ ¬ x.box.Inside 0 3) ∧
    (¬ ∃ x, even.build (.ofSize 47) colorAndSize = .ok x) ∧
    ragged.HasRoom (.ofSize 48) ∧ ¬ ∃ x, ragged.build (.ofSize 48) colorAndSize = .ok x := by
  intro even ragged
  have hobserved : ∀ matrix memory, (smallAndRed matrix).Observed memory colorAndSize :=
    fun matrix memory => observed_of_built memory built_colorAndSize (by decide)
      (show ["size", "color"].Nodup by decide)
  have hlisted : ∀ pair ∈ even.properties, colorAndSize.Lists pair.1 pair.2 := by
    simp [even, smallAndRed, colorAndSize, Schema.Lists]
  refine ⟨?_, fun hbuilt => ?_, ⟨_, rfl⟩, fun hbuilt => ?_⟩
  · have huniform : Box.Uniform 3 even.matrix := by simp [even, smallAndRed, Box.Uniform]
    have hroom : even.HasRoom (.ofSize 48) := ⟨_, rfl⟩
    obtain ⟨x, hx⟩ := (hobserved _ _).exists_iff.2 ⟨hlisted, hroom, huniform⟩
    have hholds := (hobserved _ _).holds x hx
    refine ⟨x, hx, hholds.rows_eq, hholds.columns_eq, hholds.at?_eq 1 1 [4, 5, 6] 5 rfl rfl,
      (hholds.inside_iff 1 2).2 ⟨[4, 5, 6], rfl, by decide⟩, fun hinside => ?_⟩
    obtain ⟨row, hrow, hlt⟩ := (hholds.inside_iff 0 3).1 hinside
    cases hrow
    exact absurd hlt (by decide)
  · have hroom := ((hobserved _ _).exists_iff.1 hbuilt).2.1
    exact absurd ((hobserved _ _).room_iff.1 hroom).2 (by decide)
  · have huniform := ((hobserved _ _).exists_iff.1 hbuilt).2.2
    exact absurd (huniform [4, 5] (by simp [smallAndRed])) (by decide)

end ExampleSetup

end QuestionTree
