import QuestionTree.Proofs.Example.Box

/-!
# The cells of a box

Cells are read and written by their places alone. In a box that is filled, and whose values are
counted in one word, every row and column inside the shape has a place of its own, and every place
is that of one cell inside. A row and a column outside the shape may come to a place all the same:
then they stand for the cell inside that has it. What is written there is read wherever the place is
the same, and all else is read as before.
-/

namespace QuestionTree

namespace Box

variable {ν : Type}

/-- Whether a row and a column lie inside the shape. -/
def Inside (b : Box ν) (i j : Nat) : Prop := i < b.rows ∧ j < b.columns

/-- The row and the column of the cell inside that has a place. -/
def cell (b : Box ν) (place : Nat) : Nat × Nat := (place / b.columns, place % b.columns)

/-- Whether a box is filled with values that are counted in one word. -/
structure Addressed (b : Box ν) : Prop where
  filled : b.Filled
  size_lt : b.size < placeCount

variable {b b' : Box ν} {i j place : Nat} {value : ν}

/-! ### Cells and places -/

theorem flat_lt (h : b.Inside i j) : i * b.columns + j < b.rows * b.columns := by
  have hrow : (i + 1) * b.columns ≤ b.rows * b.columns := Nat.mul_le_mul_right _ h.1
  have hcolumn := h.2
  rw [Nat.succ_mul] at hrow
  omega

namespace Addressed

theorem position_eq (h : b.Addressed) (hij : b.Inside i j) :
    b.position i j = i * b.columns + j := by
  have hflat := flat_lt hij
  have hsize := h.size_lt
  rw [h.filled] at hsize
  exact Nat.mod_eq_of_lt (hflat.trans hsize)

theorem position_lt (h : b.Addressed) (hij : b.Inside i j) : b.position i j < b.size := by
  rw [h.position_eq hij, h.filled]
  exact flat_lt hij

theorem cell_position (h : b.Addressed) (hij : b.Inside i j) :
    b.cell (b.position i j) = (i, j) := by
  have hpos : 0 < b.columns := Nat.zero_lt_of_lt hij.2
  rw [cell, h.position_eq hij, Nat.mul_comm, Nat.mul_add_div hpos, Nat.div_eq_of_lt hij.2,
    Nat.add_zero, Nat.mul_add_mod, Nat.mod_eq_of_lt hij.2]

theorem inside_cell (h : b.Addressed) (hplace : place < b.size) :
    b.Inside (b.cell place).1 (b.cell place).2 := by
  rw [h.filled] at hplace
  have hpos : 0 < b.columns := Nat.pos_of_ne_zero fun hzero => by
    rw [hzero, Nat.mul_zero] at hplace
    exact Nat.not_lt_zero _ hplace
  exact ⟨(Nat.div_lt_iff_lt_mul hpos).2 hplace, Nat.mod_lt _ hpos⟩

theorem position_cell (h : b.Addressed) (hplace : place < b.size) :
    b.position (b.cell place).1 (b.cell place).2 = place := by
  rw [h.position_eq (h.inside_cell hplace), cell, Nat.mul_comm, Nat.div_add_mod]

/-- In a column of the box a place that does not wrap around is one of the box in its rows only. -/
theorem position_lt_iff (h : b.Addressed) (hj : j < b.columns)
    (hflat : i * b.columns + j < placeCount) : b.position i j < b.size ↔ i < b.rows := by
  refine ⟨fun hplace => ?_, fun hi => h.position_lt ⟨hi, hj⟩⟩
  have hposition : b.position i j = i * b.columns + j := Nat.mod_eq_of_lt hflat
  rw [hposition, h.filled] at hplace
  exact Nat.lt_of_mul_lt_mul_right (Nat.lt_of_le_of_lt (Nat.le_add_right _ j) hplace)

end Addressed

/-! ### Reading and writing -/

theorem isSome_at?_iff : (b.at? i j).isSome = true ↔ b.position i j < b.size := by
  simp [at?, size]

theorem isSome_setAt?_iff : (b.setAt? i j value).isSome = true ↔ b.position i j < b.size := by
  rw [setAt?]
  split
  · rename_i hplace
    exact iff_of_true rfl hplace
  · rename_i hplace
    exact iff_of_false Bool.false_ne_true hplace

/-- The box with another value at a place. -/
def put (b : Box ν) (place : Nat) (value : ν) : Box ν := { b with data := b.data.set place value }

@[simp] theorem put_rows (b : Box ν) (place : Nat) (value : ν) :
    (b.put place value).rows = b.rows := rfl

@[simp] theorem put_columns (b : Box ν) (place : Nat) (value : ν) :
    (b.put place value).columns = b.columns := rfl

@[simp] theorem size_put (b : Box ν) (place : Nat) (value : ν) :
    (b.put place value).size = b.size := by
  simp [put, size]

theorem setAt?_eq_some_iff : b.setAt? i j value = some b' ↔
    b.position i j < b.size ∧ b' = b.put (b.position i j) value := by
  rw [setAt?]
  split
  · rename_i hplace
    rw [Option.some_inj, and_iff_right hplace, eq_comm, put]
  · rename_i hplace
    exact iff_of_false (Option.some_ne_none b').symm fun h => hplace h.1

/-- A row of the box holds the values from its first place on. -/
theorem Addressed.row?_eq (h : b.Addressed) (hi : i < b.rows) :
    b.row? i = some ((b.data.drop (i * b.columns)).take b.columns) := by
  have hrow : (i + 1) * b.columns ≤ b.rows * b.columns := Nat.mul_le_mul_right _ hi
  have hsize := h.size_lt
  have hfilled : b.size = b.rows * b.columns := h.filled
  have hstop : b.position (i + 1) 0 = (i + 1) * b.columns := Nat.mod_eq_of_lt (by omega)
  have hnext : (i + 1) * b.columns = i * b.columns + b.columns := Nat.succ_mul ..
  have hstart : b.position i 0 = i * b.columns := Nat.mod_eq_of_lt (by omega)
  rw [row?, hstart, hstop, if_pos (by omega), hnext, List.take_drop]

/-- Whether a box has another value at one place and is the same elsewhere. -/
structure Written (b b' : Box ν) (place : Nat) (value : ν) : Prop where
  shape_eq : b'.rows = b.rows ∧ b'.columns = b.columns
  same_place : ∀ i j, b.position i j = place → b'.at? i j = some value
  other_place : ∀ i j, b.position i j ≠ place → b'.at? i j = b.at? i j
  /-- Of the cells inside only one reads otherwise than before. -/
  other_cell : ∀ i j, b.Inside i j → (i, j) ≠ b.cell place → b'.at? i j = b.at? i j
  /-- Its row changes in its column. -/
  same_row : ∃ row, b.row? (b.cell place).1 = some row ∧
    b'.row? (b.cell place).1 = some (row.set (b.cell place).2 value)
  other_row : ∀ i < b.rows, i ≠ (b.cell place).1 → b'.row? i = b.row? i

theorem at?_put (hplace : place < b.size) (i j : Nat) :
    (b.put place value).at? i j = if b.position i j = place then some value else b.at? i j := by
  change (b.data.set place value)[b.position i j]? = _
  rw [List.getElem?_set]
  by_cases hsame : b.position i j = place
  · rw [if_pos hsame, if_pos hsame.symm, if_pos (by exact hplace)]
  · rw [if_neg hsame, if_neg (Ne.symm hsame), at?]

theorem row_set (data : List ν) (columns i place : Nat) (value : ν) :
    ((data.set place value).drop (i * columns)).take columns =
      if i = place / columns then
        ((data.drop (i * columns)).take columns).set (place % columns) value
      else (data.drop (i * columns)).take columns := by
  rcases Nat.eq_zero_or_pos columns with rfl | hpos
  · simp only [List.take_zero, List.set_nil, ite_self]
  have hplace := Nat.div_add_mod place columns
  have hmod := Nat.mod_lt place hpos
  rw [Nat.mul_comm columns] at hplace
  split
  · rename_i hrow
    rw [← hrow] at hplace
    have hle : ¬ place < i * columns := by omega
    have hcolumn : place - i * columns = place % columns := by omega
    rw [List.drop_set, if_neg hle, List.take_set, hcolumn]
  · rename_i hrow
    rcases Nat.lt_or_gt_of_ne hrow with hlt | hgt
    · have hnext : (i + 1) * columns ≤ place / columns * columns := Nat.mul_le_mul_right _ hlt
      rw [Nat.succ_mul] at hnext
      have hle : ¬ place < i * columns := by omega
      rw [List.drop_set, if_neg hle, List.take_set, List.set_eq_of_length_le]
      rw [List.length_take]
      omega
    · have hnext : (place / columns + 1) * columns ≤ i * columns := Nat.mul_le_mul_right _ hgt
      rw [Nat.succ_mul] at hnext
      rw [List.drop_set, if_pos (by omega)]

theorem Addressed.put (h : b.Addressed) (place : Nat) (value : ν) :
    (b.put place value).Addressed :=
  ⟨(b.size_put place value).trans h.filled, (b.size_put place value).trans_lt h.size_lt⟩

theorem Addressed.row?_put (h : b.Addressed) (hi : i < b.rows) :
    (b.put place value).row? i = (b.row? i).map fun row =>
      if i = (b.cell place).1 then row.set (b.cell place).2 value else row := by
  rw [(h.put place value).row?_eq hi, h.row?_eq hi, Option.map_some]
  exact congrArg some (row_set b.data b.columns i place value)

theorem Addressed.written (h : b.Addressed) (hset : b.setAt? i j value = some b') :
    b.Written b' (b.position i j) value := by
  obtain ⟨hplace, rfl⟩ := setAt?_eq_some_iff.1 hset
  generalize b.position i j = place at hplace
  have hrow := (h.inside_cell hplace).1
  refine ⟨⟨rfl, rfl⟩, fun i j hsame => ?_, fun i j hother => ?_, fun i j hij hother => ?_,
    ⟨_, h.row?_eq hrow, ?_⟩, fun i hi hother => ?_⟩
  · rw [at?_put hplace, if_pos hsame]
  · rw [at?_put hplace, if_neg hother]
  · rw [at?_put hplace, if_neg]
    rintro rfl
    exact hother (h.cell_position hij).symm
  · rw [h.row?_put hrow, h.row?_eq hrow, Option.map_some, if_pos rfl]
  · rw [h.row?_put hi, h.row?_eq hi, Option.map_some, if_neg hother]

/-- What is true of a row and a column in which a box is read and written. -/
structure Accessed (b : Box ν) (i j : Nat) (value : ν) : Prop where
  /-- There is something to read exactly if there is a value at the place. -/
  reads_iff : (b.at? i j).isSome = true ↔ b.position i j < b.rows * b.columns
  writes_iff : (b.setAt? i j value).isSome = true ↔ b.position i j < b.rows * b.columns
  /-- Inside the shape there is a value at the place, and it is that of the cell itself. -/
  inside : b.Inside i j →
    b.position i j < b.rows * b.columns ∧ b.cell (b.position i j) = (i, j)
  /-- In a column of the box, and as long as the places do not wrap around, the rows inside are the
  only ones with a value at the place. -/
  in_column : j < b.columns → i * b.columns + j < placeCount →
    (b.position i j < b.rows * b.columns ↔ i < b.rows)
  /-- What is read is the value of the cell inside that has the place. -/
  reads : b.position i j < b.rows * b.columns →
    let (k, l) := b.cell (b.position i j)
    b.Inside k l ∧ b.position k l = b.position i j ∧ b.at? i j = b.at? k l
  written : ∀ b', b.setAt? i j value = some b' → b.Written b' (b.position i j) value

theorem Addressed.accessed (h : b.Addressed) (i j : Nat) (value : ν) : b.Accessed i j value := by
  have hsize : b.size = b.rows * b.columns := h.filled
  refine ⟨?_, ?_, fun hij => ?_, fun hj hflat => ?_, fun hplace => ?_, fun b' => h.written⟩
  · rw [isSome_at?_iff, hsize]
  · rw [isSome_setAt?_iff, hsize]
  · rw [← hsize]
    exact ⟨h.position_lt hij, h.cell_position hij⟩
  · rw [← hsize]
    exact h.position_lt_iff hj hflat
  · rw [← hsize] at hplace
    have hposition := h.position_cell hplace
    exact ⟨h.inside_cell hplace, hposition, congrArg (b.data[·]?) hposition.symm⟩

variable [Arithmetic ν]

theorem Made.addressed (h : b.Made) (hsize : b.size < placeCount) : b.Addressed :=
  ⟨h.filled, hsize⟩

/-- However a box was made, it is read and written by places. -/
theorem accessed_of_made (h : b.Made) (hsize : b.size < placeCount) (i j : Nat) (value : ν) :
    b.Accessed i j value :=
  (h.addressed hsize).accessed i j value

/-- Two rows of three values each. -/
def twoByThree : Box Float := ⟨2, 3, [1, 2, 3, 4, 5, 6]⟩

theorem made_twoByThree : twoByThree.Made := by
  have hvalues : ofValues 2 3 [1, 2, 3, 4, 5, 6] = .ok twoByThree := rfl
  exact .ofValues hvalues

/-- A value is written to the fourth column of the first row, which is the first one of the second
row. -/
theorem accessed_twoByThree : twoByThree.Made ∧ twoByThree.size < placeCount ∧
    twoByThree.cell (twoByThree.position 0 3) = (1, 0) ∧ twoByThree.Accessed 0 3 7 := by
  have hsize : twoByThree.size < placeCount := by decide
  exact ⟨made_twoByThree, hsize, by decide, accessed_of_made made_twoByThree hsize 0 3 7⟩

/-- There is something to read beside the last column. -/
theorem reads_beside_columns : twoByThree.Made ∧ twoByThree.at? 0 3 = some 4 ∧
    ¬ ((twoByThree.at? 0 3).isSome = true ↔ twoByThree.Inside 0 3) :=
  ⟨made_twoByThree, rfl, fun h => absurd (h.1 rfl).2 (Nat.lt_irrefl 3)⟩

end Box

end QuestionTree
