import AtomLines.Proofs.Table.Written
/-!
# Columns and rows exchanged

Reading lines as columns does what reading them as rows does, with the cells in
exchanged places, and writing a table by columns gives the lines of the table that has
its columns as rows. Both ways refuse the same lines with the same error.
-/

namespace AtomLines.Table

namespace Matrix

variable {m t t' : Matrix} {i j : Nat}

/-- The cell at a place, unless the place is outside the table. -/
def cell? (m : Matrix) (i j : Nat) : Option String :=
  m[i]?.bind (·[j]?)

/-- One table has the cells of the other with rows and columns exchanged, and no more. -/
structure Transposed (m t : Matrix) : Prop where
  height : t.length = m.width
  width : ∀ column ∈ t, column.length = m.length
  cell : ∀ i j, t.cell? j i = m.cell? i j

theorem Transposed.unique (h : m.Transposed t) (h' : m.Transposed t') : t = t' := by
  refine List.ext_getElem (by rw [h.height, h'.height]) fun j hj hj' => ?_
  apply List.ext_getElem?
  intro i
  have hc : t.cell? j i = t'.cell? j i := (h.cell i j).trans (h'.cell i j).symm
  simpa [cell?, hj, hj'] using hc

theorem Rectangular.transposed (h : m.Rectangular) : m.Transposed m.columns where
  height := length_columns
  width := by
    intro column hc
    obtain ⟨j, hj, rfl⟩ := List.mem_map.1 hc
    exact length_columnAt (h.lt_length (List.mem_range.1 hj))
  cell := by
    intro i j
    by_cases hj : j < m.width
    · rw [cell?, columns_getElem? hj, Option.bind_some, getElem?_columnAt (h.lt_length hj), cell?]
    · -- No row has a cell there.
      have hc : m.columns[j]? = none := List.getElem?_eq_none (by simpa using hj)
      have hr : ∀ row, m[i]? = some row → row[j]? = none := fun row hrow =>
        List.getElem?_eq_none (by rw [h row (List.mem_of_getElem? hrow)]; omega)
      rw [cell?, hc, Option.bind_none, cell?, Option.bind_eq_none_iff.2 hr]

/-- The columns, each cell taken from its place in the row; nothing if a row is too short. -/
def pickedColumns? (m : Matrix) : Option Matrix :=
  (List.range m.width).mapM fun j => m.mapM (·[j]?)

theorem reads_columnAt {rows : Matrix} (h : ∀ row ∈ rows, j < row.length) :
    Reads (fun row : List String => row[j]?) rows (columnAt j rows) := by
  induction rows with
  | nil => exact .nil
  | cons row rows ih =>
    rw [List.forall_mem_cons] at h
    rw [columnAt_cons_of_lt h.1]
    exact Reads.cons_iff.2 ⟨_, _, List.getElem?_eq_getElem h.1, ih h.2, rfl⟩

/-- In a rectangular table no cell is looked for outside its row. -/
theorem Rectangular.pickedColumns?_eq (h : m.Rectangular) : m.pickedColumns? = some m.columns := by
  refine Reads.mapM_eq_some.2 ?_
  rw [Reads, Matrix.columns, List.map_map]
  refine List.map_congr_left fun j hj => ?_
  exact Reads.mapM_eq_some.2 (reads_columnAt (h.lt_length (List.mem_range.1 hj)))

end Matrix

section
variable {lines : List SExpr} {m t : Matrix}

/-! ## Reading -/

theorem decodeRow_of_cells (h : indexedCells lines = .ok m) : decodeRow lines = rectangular m := by
  rw [decodeRow, h]
  rfl

theorem decodeColumn_of_cells (h : indexedCells lines = .ok m) : decodeColumn lines = ofColumns m := by
  rw [decodeColumn, h]
  rfl

/-- Lines that are no rows are no columns, for the same reason. -/
theorem decode_column_eq_error (lines : List SExpr) (e : TableError) :
    decode .column lines = .error e ↔ decode .row lines = .error e := by
  show decodeColumn lines = .error e ↔ decodeRow lines = .error e
  cases hc : indexedCells lines with
  | error e' => rw [decodeColumn, decodeRow, hc]; rfl
  | ok m =>
    rw [decodeColumn_of_cells hc, decodeRow_of_cells hc, ofColumns, rectangular]
    cases m.checkRectangular with
    | error e' => rfl
    | ok height => exact iff_of_false (fun h => by cases h) (fun h => by cases h)

theorem decode_column_of_row (h : decode .row lines = .ok m) : decode .column lines = .ok m.columns ∧ m.Rectangular := by
  obtain ⟨xs, hr, hp, hm⟩ := decodeRow_eq_ok.1 h
  exact ⟨decodeColumn_eq_ok.2 ⟨xs, m, hr, hp, hm, rfl⟩, hm⟩

/-! ## Writing -/

theorem encode_row_columns (h : m.Rectangular) :
    encode .column m = .ok (rowLines 0 m.columns) ∧ encode .row m.columns = .ok (rowLines 0 m.columns) := by
  have hc : encode .column m = .ok (columnLines m) := by
    rw [encode, h.check]
    rfl
  have hr : encode .row m.columns = .ok (rowLines 0 m.columns) := by
    rw [encode, h.columns.check]
    rfl
  refine ⟨?_, hr⟩
  rw [hc, columnLines_eq, rowLines_eq]

/-- Lines are read as columns exactly if they are read as rows, with the same error else,
and the two tables have each other's cells with rows and columns exchanged; no place
outside a row is looked at, and rows without cells make the empty table. A table is
written by columns as the table that has its columns as rows is written by rows. -/
theorem column_transposes_row (lines : List SExpr) :
    (∀ e, decode .column lines = .error e ↔ decode .row lines = .error e) ∧
      (∀ m, decode .row lines = .ok m → ∃ t, decode .column lines = .ok t ∧ m.Transposed t ∧
        m.pickedColumns? = some t ∧ (m.width = 0 → t = [])) ∧
      ∀ m : Matrix, m.Rectangular → (∃ t, m.Transposed t) ∧
        ∀ t, m.Transposed t → ∃ written, encode .column m = .ok written ∧ encode .row t = .ok written := by
  refine ⟨decode_column_eq_error lines, fun m h => ?_, fun m h => ⟨⟨_, h.transposed⟩, fun t ht => ?_⟩⟩
  · obtain ⟨hc, hm⟩ := decode_column_of_row h
    exact ⟨m.columns, hc, hm.transposed, hm.pickedColumns?_eq, Matrix.columns_eq_nil⟩
  · obtain rfl := ht.unique h.transposed
    exact ⟨_, encode_row_columns h⟩

-- The number of rows without cells is lost.
example : decode .row [rowLine 1 [], rowLine 0 []] = .ok [[], []] ∧
    decode .column [rowLine 1 [], rowLine 0 []] = .ok [] := by
  constructor <;> cbv

end

end AtomLines.Table
