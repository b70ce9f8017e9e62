import AtomLines.Table.Decode
import Mathlib.Data.List.Basic
/-!
# Rectangular tables

The check of a table succeeds exactly if all rows are equally long, and else it names
the first row that is not as long as the first one. The columns of a rectangular table
are the rows of another one, and unless they hold nothing their columns are the rows
again.
-/

namespace AtomLines.Table

namespace Matrix

variable {m rows : Matrix} {n expected i j : Nat}

/-- All rows are as long as the first. -/
def Rectangular (m : Matrix) : Prop :=
  ∀ row ∈ m, row.length = m.width

instance (m : Matrix) : Decidable m.Rectangular :=
  inferInstanceAs (Decidable (∀ row ∈ m, row.length = m.width))

@[simp]
theorem width_nil : width [] = 0 := rfl

@[simp]
theorem width_cons (row : List String) (rest : Matrix) : width (row :: rest) = row.length := rfl

theorem rectangular_nil : Rectangular [] := by simp [Rectangular]

theorem rectangular_cons {row : List String} : Rectangular (row :: rows) ↔ ∀ r ∈ rows, r.length = row.length := by
  simp [Rectangular]

/-- The first row, where the layout takes it as column names. -/
def header (m : Matrix) : List String :=
  m.head?.getD []

@[simp]
theorem header_cons (row : List String) (rest : Matrix) : header (row :: rest) = row := rfl

theorem ne_nil_of_width (h : 0 < m.width) : m ≠ [] := by
  rintro rfl
  exact Nat.lt_irrefl 0 h

/-! ## The check -/

theorem raggedFrom_eq_none (next : Nat) : raggedFrom expected next m = none ↔ ∀ row ∈ m, row.length = expected := by
  induction m generalizing next with
  | nil => simp [raggedFrom]
  | cons row m ih =>
    rw [raggedFrom, List.forall_mem_cons]
    by_cases h : row.length = expected
    · simp [h, ih]
    · simp [h]

/-- The row that is named is the first that has not the expected length. -/
theorem raggedFrom_of_not (next : Nat) (h : ¬ ∀ row ∈ m, row.length = expected) :
    ∃ before row after, m = before ++ row :: after ∧ (∀ r ∈ before, r.length = expected) ∧ row.length ≠ expected ∧
      raggedFrom expected next m = some (.ragged (next + before.length) expected row.length) := by
  induction m generalizing next with
  | nil => simp at h
  | cons row m ih =>
    rw [raggedFrom]
    by_cases hr : row.length = expected
    · have hm : ¬ ∀ r ∈ m, r.length = expected := fun hm => h (List.forall_mem_cons.2 ⟨hr, hm⟩)
      obtain ⟨before, bad, after, rfl, hb, hl, he⟩ := ih (next + 1) hm
      refine ⟨row :: before, bad, after, rfl, List.forall_mem_cons.2 ⟨hr, hb⟩, hl, ?_⟩
      rw [if_pos hr, he, List.length_cons, Nat.add_right_comm, Nat.add_assoc]
    · exact ⟨[], row, m, rfl, by simp, hr, by simp [hr]⟩

theorem checkRectangular_eq_ok : m.checkRectangular = .ok n ↔ m.Rectangular ∧ m.width = n := by
  rw [Rectangular, ← raggedFrom_eq_none 0, checkRectangular]
  cases raggedFrom m.width 0 m <;> simp

theorem Rectangular.check (h : m.Rectangular) : m.checkRectangular = .ok m.width :=
  checkRectangular_eq_ok.2 ⟨h, rfl⟩

theorem checkRectangular_of_not (h : ¬ m.Rectangular) :
    ∃ before row after, m = before ++ row :: after ∧ (∀ r ∈ before, r.length = m.width) ∧ row.length ≠ m.width ∧
      m.checkRectangular = .error (.ragged before.length m.width row.length) := by
  obtain ⟨before, row, after, hm, hb, hl, he⟩ := raggedFrom_of_not 0 h
  refine ⟨before, row, after, hm, hb, hl, ?_⟩
  rw [checkRectangular, he, Nat.zero_add]

/-! ## Columns -/

/-- The columns of a table, as the rows of another one. -/
def columns (m : Matrix) : Matrix :=
  (List.range m.width).map m.columnAt

@[simp]
theorem length_columns : m.columns.length = m.width := by simp [columns]

theorem columns_eq_nil (h : m.width = 0) : m.columns = [] := by
  rw [columns, h]
  rfl

theorem columns_getElem? (h : j < m.width) : m.columns[j]? = some (m.columnAt j) := by
  simp [columns, h]

theorem columnAt_cons_of_lt {row : List String} (h : j < row.length) :
    columnAt j (row :: rows) = row[j] :: columnAt j rows := by
  simp [columnAt, h]

/-- Where every row is long enough, a column has one cell of each row. -/
theorem getElem?_columnAt (h : ∀ row ∈ rows, j < row.length) (i : Nat) :
    (columnAt j rows)[i]? = rows[i]?.bind (·[j]?) := by
  induction rows generalizing i with
  | nil => rfl
  | cons row rows ih =>
    rw [List.forall_mem_cons] at h
    rw [columnAt_cons_of_lt h.1]
    cases i with
    | zero => simp [h.1]
    | succ i => simpa using ih h.2 i

theorem length_columnAt (h : ∀ row ∈ rows, j < row.length) : (columnAt j rows).length = rows.length := by
  induction rows with
  | nil => rfl
  | cons row rows ih =>
    rw [List.forall_mem_cons] at h
    rw [columnAt_cons_of_lt h.1, List.length_cons, List.length_cons, ih h.2]

namespace Rectangular

/-- No row is empty if the first is not. -/
theorem nil_notMem_iff (h : m.Rectangular) : [] ∉ m ↔ m = [] ∨ 0 < m.width := by
  cases m with
  | nil => simp
  | cons row rest =>
    rw [width_cons, List.length_pos_iff]
    constructor
    · rintro hn
      refine .inr ?_
      rintro rfl
      exact hn List.mem_cons_self
    · rintro (hm | hrow) hn
      · cases hm
      · exact hrow (List.length_eq_zero_iff.1 (h [] hn).symm)

theorem lt_length (h : m.Rectangular) (hj : j < m.width) : ∀ row ∈ m, j < row.length := by
  intro row hr
  rw [h row hr]
  exact hj

/-- The order of the rows does not matter. -/
theorem perm (h : m.Rectangular) (hp : m.Perm rows) : rows.Rectangular ∧ rows.width = m.width := by
  cases rows with
  | nil =>
    rw [hp.eq_nil]
    exact ⟨rectangular_nil, rfl⟩
  | cons row rest =>
    have hw : row.length = m.width := h row (hp.mem_iff.2 List.mem_cons_self)
    refine ⟨fun r hr => ?_, hw⟩
    rw [width_cons, hw]
    exact h r (hp.mem_iff.2 hr)

theorem width_columns (h : m.Rectangular) (hw : 0 < m.width) : m.columns.width = m.length := by
  have hc : m.columns.head? = some (m.columnAt 0) := by
    rw [List.head?_eq_getElem?, columns_getElem? hw]
  rw [width, hc]
  exact length_columnAt (h.lt_length hw)

theorem columns (h : m.Rectangular) : m.columns.Rectangular := by
  intro column hc
  obtain ⟨j, hj, rfl⟩ := List.mem_map.1 hc
  rw [List.mem_range] at hj
  rw [length_columnAt (h.lt_length hj), h.width_columns (Nat.zero_lt_of_lt hj)]

/-- Each cell of a column comes from its row. -/
theorem columnAt_columns (h : m.Rectangular) {row : List String} (hi : m[i]? = some row) :
    columnAt i m.columns = row := by
  have hil : i < m.length := (List.getElem?_eq_some_iff.1 hi).1
  have hlen : row.length = m.width := h row (List.mem_of_getElem? hi)
  have hcol : ∀ column ∈ m.columns, i < column.length := by
    intro column hc
    obtain ⟨j, hj, rfl⟩ := List.mem_map.1 hc
    rw [length_columnAt (h.lt_length (List.mem_range.1 hj))]
    exact hil
  apply List.ext_getElem?
  intro j
  rw [getElem?_columnAt hcol]
  by_cases hj : j < m.width
  · rw [columns_getElem? hj, Option.bind_some, getElem?_columnAt (h.lt_length hj), hi, Option.bind_some]
  · have hc : m.columns[j]? = none := List.getElem?_eq_none (by simpa using hj)
    have hr : row[j]? = none := List.getElem?_eq_none (by omega)
    rw [hc, hr, Option.bind_none]

/-- The columns of the columns are the rows. -/
theorem columns_columns (h : m.Rectangular) (hw : 0 < m.width) : m.columns.columns = m := by
  apply List.ext_getElem?
  intro i
  by_cases hi : i < m.length
  · have hwi : i < m.columns.width := by rwa [h.width_columns hw]
    have hrow : m[i]? = some m[i] := List.getElem?_eq_getElem hi
    rw [columns_getElem? hwi, h.columnAt_columns hrow, hrow]
  · have hl : m.columns.columns.length = m.length := by rw [length_columns, h.width_columns hw]
    rw [List.getElem?_eq_none (by omega), List.getElem?_eq_none (by omega)]

end Rectangular

end Matrix

theorem rectangular_eq_ok {m m' : Matrix} : rectangular m = .ok m' ↔ m.Rectangular ∧ m = m' := by
  rw [rectangular]
  by_cases h : m.Rectangular
  · rw [h.check]
    show Except.ok m = .ok m' ↔ _
    simp [h]
  · obtain ⟨_, _, _, _, _, _, he⟩ := Matrix.checkRectangular_of_not h
    rw [he]
    show Except.error _ = Except.ok m' ↔ _
    simp [h]

theorem ofColumns_eq_ok {columns m : Matrix} : ofColumns columns = .ok m ↔ columns.Rectangular ∧ columns.columns = m := by
  rw [ofColumns]
  by_cases h : columns.Rectangular
  · rw [h.check]
    show Except.ok columns.columns = .ok m ↔ _
    simp [h]
  · obtain ⟨_, _, _, _, _, _, he⟩ := Matrix.checkRectangular_of_not h
    rw [he]
    show Except.error _ = Except.ok m ↔ _
    simp [h]

end AtomLines.Table
