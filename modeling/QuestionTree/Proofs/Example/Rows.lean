import QuestionTree.Proofs.Example.Cells

/-!
# Boxes from rows

A box of zeros is filled value by value, one row after the other. As long as the rows are as long as
the box is wide, the values come to stand in their order over the zeros, each in a cell of its own:
`inside_of_comes` says of every write on the way that its row and column lie inside the shape. The
first row of another length ends the filling, so a box comes about exactly if there is none.
-/

namespace QuestionTree

namespace Box

variable {ν : Type}

/-- Whether all rows have a length. -/
def Uniform (columns : Nat) (rows : List (List ν)) : Prop := ∀ row ∈ rows, row.length = columns

variable {rows columns i j : Nat} {values : List (List ν)}

theorem length_flatten_of_uniform (h : Uniform columns values) :
    values.flatten.length = values.length * columns := by
  have hlengths : values.map List.length = List.replicate values.length columns :=
    List.eq_replicate_iff.2 ⟨List.length_map _, by simpa [Uniform] using h⟩
  rw [List.length_flatten, hlengths, List.sum_replicate, smul_eq_mul]

theorem getElem?_flatten_of_uniform (h : Uniform columns values) (hj : j < columns) :
    values.flatten[i * columns + j]? = values[i]?.bind (·[j]?) := by
  induction values generalizing i with
  | nil => simp
  | cons row values ih =>
    obtain ⟨hrow, hrest⟩ := List.forall_mem_cons.1 h
    rw [List.flatten_cons]
    cases i with
    | zero =>
      rw [Nat.zero_mul, Nat.zero_add, List.getElem?_append_left (by omega)]
      rfl
    | succ i =>
      have hnext : (i + 1) * columns + j - row.length = i * columns + j := by
        rw [hrow, Nat.succ_mul]
        omega
      rw [List.getElem?_append_right (by rw [hrow, Nat.succ_mul]; omega), hnext, ih hrest]
      rfl

theorem uniform_or_ragged (columns : Nat) (values : List (List ν)) :
    Uniform columns values ∨ ∃ above row below, values = above ++ row :: below ∧
      Uniform columns above ∧ row.length ≠ columns := by
  induction values with
  | nil => exact .inl (List.forall_mem_nil _)
  | cons row values ih =>
    by_cases hrow : row.length = columns
    · rcases ih with hall | ⟨above, ragged, below, rfl, habove, hragged⟩
      · exact .inl (List.forall_mem_cons.2 ⟨hrow, hall⟩)
      · exact .inr ⟨row :: above, ragged, below, rfl, List.forall_mem_cons.2 ⟨hrow, habove⟩,
          hragged⟩
    · exact .inr ⟨[], row, values, rfl, List.forall_mem_nil _, hrow⟩

/-! ### Writing rows -/

theorem writeRow?_eq {first old row last : List ν} (hplace : i * columns + j = first.length)
    (hlength : old.length = row.length) (hsize : first.length + row.length ≤ placeCount) :
    (⟨rows, columns, first ++ (old ++ last)⟩ : Box ν).writeRow? i j row =
      some ⟨rows, columns, first ++ (row ++ last)⟩ := by
  induction row generalizing j first old with
  | nil =>
    rw [List.eq_nil_of_length_eq_zero hlength]
    rfl
  | cons value row ih =>
    obtain ⟨o, old, rfl⟩ := List.exists_cons_of_length_eq_add_one hlength
    simp only [List.length_cons] at hlength hsize
    have hposition : (⟨rows, columns, first ++ (o :: old ++ last)⟩ : Box ν).position i j =
        first.length := by
      rw [position, hplace]
      exact Nat.mod_eq_of_lt (by omega)
    have hwritten : (⟨rows, columns, first ++ (o :: old ++ last)⟩ : Box ν).setAt? i j value =
        some ⟨rows, columns, (first ++ [value]) ++ (old ++ last)⟩ := by
      rw [setAt?_eq_some_iff, hposition]
      refine ⟨by simp [size], ?_⟩
      simp [put]
    have hrest : (⟨rows, columns, (first ++ [value]) ++ (old ++ last)⟩ : Box ν).writeRow? i (j + 1)
        row = some ⟨rows, columns, (first ++ [value]) ++ (row ++ last)⟩ := ih
      (by rw [List.length_append, List.length_singleton]; omega) (by omega)
      (by rw [List.length_append, List.length_singleton]; omega)
    rw [writeRow?, hwritten]
    exact hrest.trans (by simp)

theorem fillRows_append (b : Box ν) (i : Nat) (above below : List (List ν)) :
    b.fillRows i (above ++ below) =
      b.fillRows i above >>= fun b => b.fillRows (i + above.length) below := by
  induction above generalizing b i with
  | nil => rfl
  | cons row above ih =>
    rw [List.cons_append, fillRows, fillRows]
    split
    · rfl
    · split
      · rw [ih, List.length_cons, Nat.add_right_comm, Nat.add_assoc]
      · rfl

theorem fillRows_eq {first old : List ν} (hplace : i * columns = first.length)
    (hlength : old.length = values.length * columns)
    (hsize : first.length + old.length ≤ placeCount) (h : Uniform columns values) (last : List ν) :
    (⟨rows, columns, first ++ (old ++ last)⟩ : Box ν).fillRows i values =
      .ok ⟨rows, columns, first ++ (values.flatten ++ last)⟩ := by
  induction values generalizing i first old with
  | nil =>
    rw [List.eq_nil_of_length_eq_zero (hlength.trans (Nat.zero_mul columns))]
    rfl
  | cons row values ih =>
    obtain ⟨hrow, hrest⟩ := List.forall_mem_cons.1 h
    rw [List.length_cons, Nat.succ_mul] at hlength
    -- the row takes the first of the old values, the rest is left for the rows below
    have hhere : (old.take columns).length = row.length := by
      rw [List.length_take]
      omega
    have hwritten : (⟨rows, columns, first ++ (old ++ last)⟩ : Box ν).writeRow? i 0 row =
        some ⟨rows, columns, (first ++ row) ++ (old.drop columns ++ last)⟩ := by
      have hwrite : (⟨rows, columns, first ++ (old.take columns ++ (old.drop columns ++ last))⟩ :
          Box ν).writeRow? i 0 row =
            some ⟨rows, columns, first ++ (row ++ (old.drop columns ++ last))⟩ :=
        writeRow?_eq (by rw [Nat.add_zero, hplace]) hhere (by omega)
      rwa [← List.append_assoc (old.take columns), List.take_append_drop,
        ← List.append_assoc first row] at hwrite
    rw [fillRows, if_neg (not_not.2 hrow), hwritten]
    have hbelow : (⟨rows, columns, (first ++ row) ++ (old.drop columns ++ last)⟩ : Box ν).fillRows
        (i + 1) values = .ok ⟨rows, columns, (first ++ row) ++ (values.flatten ++ last)⟩ := ih
      (by rw [Nat.succ_mul, hplace, List.length_append, hrow])
      (by rw [List.length_drop]; omega)
      (by rw [List.length_append, List.length_drop]; omega) hrest
    refine hbelow.trans ?_
    rw [List.flatten_cons, List.append_assoc, List.append_assoc]

/-! ### The writes on the way -/

/-- Whether two boxes have the same shape and equally many values. -/
structure SameShape (b b' : Box ν) : Prop where
  rows_eq : b'.rows = b.rows
  columns_eq : b'.columns = b.columns
  size_eq : b'.size = b.size

namespace SameShape

variable {b₁ b₂ b₃ : Box ν}

theorem refl (b : Box ν) : SameShape b b := ⟨rfl, rfl, rfl⟩

theorem trans (h : SameShape b₁ b₂) (h' : SameShape b₂ b₃) : SameShape b₁ b₃ :=
  ⟨h'.rows_eq.trans h.rows_eq, h'.columns_eq.trans h.columns_eq, h'.size_eq.trans h.size_eq⟩

theorem setAt? {value : ν} (h : b₁.setAt? i j value = some b₂) : SameShape b₁ b₂ := by
  obtain ⟨-, rfl⟩ := setAt?_eq_some_iff.1 h
  exact ⟨rfl, rfl, size_put b₁ _ value⟩

theorem writeRow? {row : List ν} (h : b₁.writeRow? i j row = some b₂) : SameShape b₁ b₂ := by
  induction row generalizing b₁ j with
  | nil =>
    cases h
    exact refl _
  | cons value row ih =>
    obtain ⟨c, hset, hrest⟩ := Option.bind_eq_some_iff.1 h
    exact (setAt? hset).trans (ih hrest)

theorem fillRows (h : b₁.fillRows i values = .ok b₂) : SameShape b₁ b₂ := by
  induction values generalizing b₁ i with
  | nil =>
    cases h
    exact refl _
  | cons row values ih =>
    rw [Box.fillRows] at h
    split at h
    · cases h
    · split at h
      · rename_i c hwrite
        exact (writeRow? hwrite).trans (ih h)
      · cases h

theorem addressed (h : SameShape b₁ b₂) (hb : b₁.Addressed) : b₂.Addressed := by
  have hfilled : b₁.size = b₁.rows * b₁.columns := hb.filled
  refine ⟨?_, h.size_eq.trans_lt hb.size_lt⟩
  show b₂.size = b₂.rows * b₂.columns
  rw [h.size_eq, h.rows_eq, h.columns_eq, hfilled]

end SameShape

/-- Whether a value is about to be written to a cell while rows are filled into a box: the rows
above are filled, the row has the right length, and its values to the left are written. -/
inductive Writes (start : Box ν) : List (List ν) → Box ν → Nat → Nat → ν → Prop where
  | write {above below : List (List ν)} {left right : List ν} {value : ν} {filled b : Box ν}
      (habove : start.fillRows 0 above = .ok filled)
      (hlength : (left ++ value :: right).length = filled.columns)
      (hleft : filled.writeRow? above.length 0 left = some b) :
      Writes start (above ++ (left ++ value :: right) :: below) b above.length left.length value

/-- Rows that were announced are filled into cells inside. -/
theorem inside_of_writes {zero b : Box ν} {value : ν} (hzero : zero.Addressed)
    (hrows : zero.rows = values.length) (h : Writes zero values b i j value) :
    b.Addressed ∧ b.Inside i j ∧ (b.setAt? i j value).isSome = true := by
  cases h with
  | write habove hlength hleft =>
    rename_i above below left right filled
    have hfilled := SameShape.fillRows habove
    have hshape := hfilled.trans (SameShape.writeRow? hleft)
    have hb := hshape.addressed hzero
    have hrow : above.length < b.rows := by
      rw [hshape.rows_eq, hrows, List.length_append, List.length_cons]
      omega
    have hcolumn : left.length < b.columns := by
      rw [hshape.columns_eq, ← hfilled.columns_eq, ← hlength, List.length_append, List.length_cons]
      omega
    have hinside : b.Inside above.length left.length := ⟨hrow, hcolumn⟩
    exact ⟨hb, hinside, isSome_setAt?_iff.2 (hb.position_lt hinside)⟩

/-! ### Boxes from rows -/

variable [Arithmetic ν] {memory : Memory} {zero b : Box ν}

theorem zeros_eq_ok (h : zeros memory rows columns = .ok b) :
    rows * columns < placeCount ∧ b = ⟨rows, columns, List.replicate (rows * columns) 0⟩ := by
  rw [zeros] at h
  split at h
  · cases h
  · rename_i hcount
    split at h
    · cases h
      have hmax : maxCount + 1 = placeCount := rfl
      exact ⟨by omega, rfl⟩
    · cases h

theorem exists_zeros_iff : (∃ b : Box ν, zeros memory rows columns = .ok b) ↔
    rows * columns < placeCount ∧ roomFor memory (rows * columns) = true := by
  have hmax : maxCount + 1 = placeCount := rfl
  constructor
  · rintro ⟨b, hb⟩
    refine ⟨(zeros_eq_ok hb).1, ?_⟩
    rw [zeros] at hb
    split at hb
    · cases hb
    · split at hb
      · assumption
      · cases hb
  · rintro ⟨hcount, hroom⟩
    exact ⟨_, by rw [zeros, if_neg (by omega), if_pos hroom]⟩

/-- The width of the first row. -/
def width (values : List (List ν)) : Nat := (values.head?.map List.length).getD 0

/-- Rows as long as the first one make a box that holds them one after the other. -/
theorem ofRows_of_uniform (hroom : zeros memory values.length (width values) = .ok zero)
    (h : Uniform (width values) values) :
    ofRows memory values = .ok ⟨values.length, width values, values.flatten⟩ := by
  obtain ⟨hcount, rfl⟩ := zeros_eq_ok hroom
  have hfill : (⟨values.length, width values,
      [] ++ (List.replicate (values.length * width values) 0 ++ [])⟩ : Box ν).fillRows 0 values =
        .ok ⟨values.length, width values, [] ++ (values.flatten ++ [])⟩ :=
    fillRows_eq (Nat.zero_mul _) List.length_replicate
      (by rw [List.length_nil, List.length_replicate]; omega) h []
  rw [List.append_nil, List.append_nil] at hfill
  exact bind_eq_ok_iff.2 ⟨_, hroom, hfill⟩

theorem ofRows_of_ragged {above below : List (List ν)} {row : List ν}
    (hroom : zeros memory values.length (width values) = .ok zero)
    (hvalues : values = above ++ row :: below) (habove : Uniform (width values) above)
    (hrow : row.length ≠ width values) :
    ofRows memory values = .error (.invalidShape values.length (width values) row.length) := by
  obtain ⟨hcount, hzero⟩ := zeros_eq_ok hroom
  have hlength : values.length = above.length + (below.length + 1) := by
    rw [hvalues, List.length_append, List.length_cons]
  have hdata : zero.data = [] ++ (List.replicate (above.length * width values) 0 ++
      List.replicate ((below.length + 1) * width values) 0) := by
    rw [hzero, List.nil_append, ← List.replicate_add, ← Nat.add_mul, ← hlength]
  have hsplit : zero = ⟨values.length, width values, zero.data⟩ := by rw [hzero]
  have hfits : ([] : List ν).length +
      (List.replicate (above.length * width values) (0 : ν)).length ≤ placeCount := by
    have hle : above.length * width values ≤ values.length * width values :=
      Nat.mul_le_mul_right _ (by omega)
    rw [List.length_nil, List.length_replicate]
    omega
  have hfill : (⟨values.length, width values,
      [] ++ (List.replicate (above.length * width values) 0 ++
        List.replicate ((below.length + 1) * width values) 0)⟩ : Box ν).fillRows 0 above =
          .ok ⟨values.length, width values,
            [] ++ (above.flatten ++ List.replicate ((below.length + 1) * width values) 0)⟩ :=
    fillRows_eq (Nat.zero_mul _) List.length_replicate hfits habove _
  rw [← hdata, ← hsplit] at hfill
  have hstart : ofRows memory values = zeros memory values.length (width values) >>= fun b =>
      b.fillRows 0 values := rfl
  rw [hstart, hroom]
  show zero.fillRows 0 values = _
  rw [hvalues, fillRows_append, ← hvalues, hfill]
  show fillRows _ _ (row :: below) = _
  rw [fillRows, if_pos hrow]

theorem exists_ofRows_iff : (∃ b, ofRows memory values = .ok b) ↔
    (∃ zero : Box ν, zeros memory values.length (width values) = .ok zero) ∧
      Uniform (width values) values := by
  refine ⟨?_, fun ⟨⟨_, hroom⟩, h⟩ => ⟨_, ofRows_of_uniform hroom h⟩⟩
  rintro ⟨b, hb⟩
  obtain ⟨zero, hroom, -⟩ := bind_eq_ok_iff.1 hb
  refine ⟨⟨zero, hroom⟩, ?_⟩
  rcases uniform_or_ragged (width values) values with h | ⟨above, row, below, hvalues, habove, hrow⟩
  · exact h
  · rw [ofRows_of_ragged hroom hvalues habove hrow] at hb
    cases hb

theorem addressed_of_zeros (h : zeros memory rows columns = .ok b) : b.Addressed := by
  have hcount := (zeros_eq_ok h).1
  have hfilled : b.size = b.rows * b.columns := filled_of_zeros h
  obtain ⟨-, rfl⟩ := zeros_eq_ok h
  exact ⟨hfilled, hfilled.trans_lt hcount⟩

end Box

end QuestionTree
