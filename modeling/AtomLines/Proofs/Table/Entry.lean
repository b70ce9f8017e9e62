import AtomLines.Proofs.Readings
import AtomLines.Proofs.SExpr.Atoms
import AtomLines.Table.Decode
import AtomLines.Table.Encode
/-!
# What a line of a table says

Each layout has its own kind of entry: a row or a column with its index, a column with
its name, the named cells of a row, or one cell with its address. An entry is read from
a line whichever atoms spell its texts, and it is read back from the line that is
written for it. Respelling a line gives the line that is written for its entry.
-/

namespace AtomLines.Table

/-! ## Entries -/

/-- The texts of a list of atoms. -/
def texts? : SExpr → Option (List String)
  | .list items => items.mapM SExpr.name?
  | _ => none

/-- A row or a column after its index. -/
def readIndexed? : SExpr → Option (Nat × List String)
  | .list [i, row] => do
    let i ← i.index?
    let row ← texts? row
    return (i, row)
  | _ => none

/-- A row after its index; the header has none. -/
def readHeaderRow? : SExpr → Option (Option Nat × List String)
  | .list [head, row] => do
    let row ← texts? row
    if head = .symbol "header" then return (none, row) else
      let i ← head.index?
      return (some i, row)
  | _ => none

/-- The name of a column and its cells. -/
def readColumn? : SExpr → Option (String × List String)
  | .list [name, column] => do
    let name ← name.name?
    let column ← texts? column
    return (name, column)
  | _ => none

def namedCell? : SExpr → Option (String × String)
  | .list [name, value] => do
    let name ← name.name?
    let value ← value.name?
    return (name, value)
  | _ => none

/-- The cells of a row with their names. -/
def readStruct? : SExpr → Option (List (String × String))
  | .list items => items.mapM namedCell?
  | _ => none

/-- A cell with its row and its name. -/
def readField? : SExpr → Option (Nat × String × String)
  | .list [i, name, value] => do
    let i ← i.index?
    let name ← name.name?
    let value ← value.name?
    return (i, name, value)
  | _ => none

/-- The two parts of the address and the value of an equality. -/
def equality? : SExpr → Option (SExpr × SExpr × String)
  | .list [head, .list [call, .list [a, b]], value] =>
    if head = .symbol "=" ∧ call = .symbol "value" then value.name?.map fun v => (a, b, v) else none
  | _ => none

def readFunction? (e : SExpr) : Option (Nat × String × String) := do
  let (name, i, value) ← equality? e
  let i ← i.index?
  let name ← name.name?
  return (i, name, value)

/-- A cell with its row and its column. -/
def readCell? (e : SExpr) : Option (Nat × Nat × String) := do
  let (r, c, value) ← equality? e
  let r ← r.index?
  let c ← c.index?
  return (r, c, value)

/-! ## Parts of a line -/

section Parts
variable {line : Nat} {e a b c : SExpr}

theorem pair_eq_ok : pair line e = .ok (a, b) ↔ e = .list [a, b] := by
  unfold pair
  split <;> simp_all

theorem triple_eq_ok : triple line e = .ok (a, b, c) ↔ e = .list [a, b, c] := by
  unfold triple
  split <;> simp_all

theorem cell_eq_ok {s : String} : cell line e = .ok s ↔ e.name? = some s := by
  unfold cell
  split <;> simp_all

theorem index_eq_ok {i : Nat} : index line e = .ok i ↔ e.index? = some i := by
  unfold index
  split <;> simp_all

theorem cells_eq_ok {row : List String} : cells line e = .ok row ↔ texts? e = some row := by
  cases e with
  | list items => exact (Reads.mapM_eq_ok fun _ _ => cell_eq_ok).trans Reads.mapM_eq_some.symm
  | _ => simp [cells, texts?]

theorem equality?_eq_some {value : String} : equality? e = some (a, b, value) ↔
    ∃ v, e = .list [.symbol "=", .list [.symbol "value", .list [a, b]], v] ∧ v.name? = some value := by
  constructor
  · intro h
    unfold equality? at h
    split at h
    · split at h
      · rename_i hs
        obtain ⟨rfl, rfl⟩ := hs
        obtain ⟨v, hv, hv'⟩ := Option.map_eq_some_iff.1 h
        cases hv'
        exact ⟨_, rfl, hv⟩
      · cases h
    · cases h
  · rintro ⟨v, rfl, hv⟩
    simp [equality?, hv]

theorem equalityParts_eq_ok {value : String} : equalityParts line e = .ok (a, b, value) ↔ equality? e = some (a, b, value) := by
  rw [equality?_eq_some]
  simp only [equalityParts, bind_eq_ok, Prod.exists, triple_eq_ok]
  constructor
  · rintro ⟨head, call, v, rfl, h⟩
    split at h
    · cases h
    · simp only [bind_eq_ok, Prod.exists, pair_eq_ok] at h
      obtain ⟨word, address, rfl, h⟩ := h
      split at h
      · cases h
      · simp only [bind_eq_ok, Prod.exists, pair_eq_ok, cell_eq_ok] at h
        obtain ⟨a', b', rfl, text, hv, h⟩ := h
        cases h
        exact ⟨v, by simp_all, hv⟩
  · rintro ⟨v, rfl, hv⟩
    refine ⟨_, _, v, rfl, ?_⟩
    simp only [ne_eq, not_true_eq_false, if_false, bind_eq_ok, Prod.exists, pair_eq_ok]
    refine ⟨_, _, rfl, ?_⟩
    simp only [not_true_eq_false, if_false, bind_eq_ok, Prod.exists, pair_eq_ok, cell_eq_ok]
    exact ⟨a, b, rfl, value, hv, rfl⟩

end Parts

/-! ## Entries, shape by shape -/

section Shapes
variable {line i : Nat} {e : SExpr} {name value : String} {row : List String}

theorem readIndexed?_eq_some :
    readIndexed? e = some (i, row) ↔ ∃ a b, e = .list [a, b] ∧ a.index? = some i ∧ texts? b = some row := by
  constructor
  · intro h
    unfold readIndexed? at h
    split at h
    · simp only [bind, Option.bind_eq_some_iff] at h
      obtain ⟨j, hj, r, hr, h⟩ := h
      cases h
      exact ⟨_, _, rfl, hj, hr⟩
    · cases h
  · rintro ⟨a, b, rfl, ha, hb⟩
    simp [readIndexed?, ha, hb]

theorem readHeaderRow?_eq_some {place : Option Nat} :
    readHeaderRow? e = some (place, row) ↔ ∃ a b, e = .list [a, b] ∧ texts? b = some row ∧
      if a = .symbol "header" then place = none else ∃ i, a.index? = some i ∧ place = some i := by
  constructor
  · intro h
    unfold readHeaderRow? at h
    split at h
    · simp only [bind, Option.bind_eq_some_iff] at h
      obtain ⟨r, hr, h⟩ := h
      split at h
      · rename_i ha
        cases h
        exact ⟨_, _, rfl, hr, by simp [ha]⟩
      · rename_i ha
        simp only [Option.bind_eq_some_iff] at h
        obtain ⟨j, hj, h⟩ := h
        cases h
        exact ⟨_, _, rfl, hr, by simp [ha, hj]⟩
    · cases h
  · rintro ⟨a, b, rfl, hb, hp⟩
    split at hp
    · simp_all [readHeaderRow?]
    · obtain ⟨j, hj, rfl⟩ := hp
      simp_all [readHeaderRow?]

theorem readColumn?_eq_some :
    readColumn? e = some (name, row) ↔ ∃ a b, e = .list [a, b] ∧ a.name? = some name ∧ texts? b = some row := by
  constructor
  · intro h
    unfold readColumn? at h
    split at h
    · simp only [bind, Option.bind_eq_some_iff] at h
      obtain ⟨n, hn, r, hr, h⟩ := h
      cases h
      exact ⟨_, _, rfl, hn, hr⟩
    · cases h
  · rintro ⟨a, b, rfl, ha, hb⟩
    simp [readColumn?, ha, hb]

theorem namedCell?_eq_some :
    namedCell? e = some (name, value) ↔ ∃ a b, e = .list [a, b] ∧ a.name? = some name ∧ b.name? = some value := by
  constructor
  · intro h
    unfold namedCell? at h
    split at h
    · simp only [bind, Option.bind_eq_some_iff] at h
      obtain ⟨n, hn, v, hv, h⟩ := h
      cases h
      exact ⟨_, _, rfl, hn, hv⟩
    · cases h
  · rintro ⟨a, b, rfl, ha, hb⟩
    simp [namedCell?, ha, hb]

theorem readField?_eq_some : readField? e = some (i, name, value) ↔
    ∃ a b c, e = .list [a, b, c] ∧ a.index? = some i ∧ b.name? = some name ∧ c.name? = some value := by
  constructor
  · intro h
    unfold readField? at h
    split at h
    · simp only [bind, Option.bind_eq_some_iff] at h
      obtain ⟨j, hj, n, hn, v, hv, h⟩ := h
      cases h
      exact ⟨_, _, _, rfl, hj, hn, hv⟩
    · cases h
  · rintro ⟨a, b, c, rfl, ha, hb, hc⟩
    simp [readField?, ha, hb, hc]

theorem readFunction?_eq_some : readFunction? e = some (i, name, value) ↔
    ∃ a b, equality? e = some (a, b, value) ∧ b.index? = some i ∧ a.name? = some name := by
  simp only [readFunction?, bind, Option.bind_eq_some_iff, Prod.exists]
  constructor
  · rintro ⟨a, b, v, he, j, hj, n, hn, h⟩
    cases h
    exact ⟨a, b, he, hj, hn⟩
  · rintro ⟨a, b, he, hi, hn⟩
    exact ⟨a, b, value, he, i, hi, name, hn, rfl⟩

theorem readCell?_eq_some {r c : Nat} : readCell? e = some (r, c, value) ↔
    ∃ a b, equality? e = some (a, b, value) ∧ a.index? = some r ∧ b.index? = some c := by
  simp only [readCell?, bind, Option.bind_eq_some_iff, Prod.exists]
  constructor
  · rintro ⟨a, b, v, he, j, hj, k, hk, h⟩
    cases h
    exact ⟨a, b, he, hj, hk⟩
  · rintro ⟨a, b, he, hr, hc⟩
    exact ⟨a, b, value, he, r, hr, c, hc, rfl⟩

theorem namedCell_eq_ok : namedCell line e = .ok (name, value) ↔ namedCell? e = some (name, value) := by
  rw [namedCell?_eq_some]
  simp only [namedCell, bind_eq_ok, Prod.exists, pair_eq_ok, cell_eq_ok]
  constructor
  · rintro ⟨a, b, rfl, n, hn, v, hv, h⟩
    cases h
    exact ⟨a, b, rfl, hn, hv⟩
  · rintro ⟨a, b, rfl, hn, hv⟩
    exact ⟨a, b, rfl, name, hn, value, hv, rfl⟩

end Shapes

/-! ## Written lines -/

section Written
variable {i : Nat}

theorem texts?_cellList (row : List String) : texts? (cellList row) = some row :=
  Reads.mapM_eq_some.2 (Reads.of_write fun _ _ => rfl)

theorem readIndexed?_rowLine (h : i < Text.indexBound) (row : List String) :
    readIndexed? (rowLine i row) = some (i, row) :=
  readIndexed?_eq_some.2 ⟨_, _, rfl, SExpr.index?_ofIndex h, texts?_cellList row⟩

theorem readHeaderRow?_headerLine (row : List String) : readHeaderRow? (headerLine row) = some (none, row) :=
  readHeaderRow?_eq_some.2 ⟨_, _, rfl, texts?_cellList row, rfl⟩

theorem readHeaderRow?_rowLine (h : i < Text.indexBound) (row : List String) :
    readHeaderRow? (rowLine i row) = some (some i, row) :=
  readHeaderRow?_eq_some.2 ⟨_, _, rfl, texts?_cellList row, i, SExpr.index?_ofIndex h, rfl⟩

/-- The line of a column under its name. -/
def columnLine (name : String) (column : List String) : SExpr :=
  .list [.string name, cellList column]

theorem readColumn?_columnLine (name : String) (column : List String) :
    readColumn? (columnLine name column) = some (name, column) :=
  readColumn?_eq_some.2 ⟨_, _, rfl, rfl, texts?_cellList column⟩

/-- The line of cells with their names. -/
def namedLine (named : List (String × String)) : SExpr :=
  .list (named.map fun (name, value) => cellList [name, value])

theorem readStruct?_namedLine (named : List (String × String)) : readStruct? (namedLine named) = some named :=
  Reads.mapM_eq_some.2 (Reads.of_write fun _ _ => rfl)

theorem readField?_fieldLine (h : i < Text.indexBound) (name value : String) :
    readField? (fieldLine i name value) = some (i, name, value) :=
  readField?_eq_some.2 ⟨_, _, _, rfl, SExpr.index?_ofIndex h, rfl, rfl⟩

theorem equality?_equality (a b : SExpr) (value : String) :
    equality? (equality (.list [a, b]) value) = some (a, b, value) :=
  equality?_eq_some.2 ⟨_, rfl, rfl⟩

theorem readFunction?_functionLine (h : i < Text.indexBound) (name value : String) :
    readFunction? (functionLine i name value) = some (i, name, value) :=
  readFunction?_eq_some.2 ⟨_, _, equality?_equality .., SExpr.index?_ofIndex h, rfl⟩

theorem readCell?_cellLine {r c : Nat} (hr : r < Text.indexBound) (hc : c < Text.indexBound) (value : String) :
    readCell? (cellLine r c value) = some (r, c, value) :=
  readCell?_eq_some.2 ⟨_, _, equality?_equality .., SExpr.index?_ofIndex hr, SExpr.index?_ofIndex hc⟩

/-! An index that was read is small enough to be read again. -/

section Again
variable {e : SExpr}

theorem reread_indexed {x : Nat × List String} (h : readIndexed? e = some x) : readIndexed? (rowLine x.1 x.2) = some x := by
  obtain ⟨a, b, -, hi, -⟩ := readIndexed?_eq_some.1 h
  exact readIndexed?_rowLine (SExpr.lt_of_index? hi) x.2

theorem reread_headerRow {x : Option Nat × List String} (h : readHeaderRow? e = some x) :
    readHeaderRow? (x.1.elim (headerLine x.2) (rowLine · x.2)) = some x := by
  obtain ⟨place, row⟩ := x
  obtain ⟨a, b, -, -, hp⟩ := readHeaderRow?_eq_some.1 h
  split at hp
  · subst hp
    exact readHeaderRow?_headerLine row
  · obtain ⟨i, hi, rfl⟩ := hp
    exact readHeaderRow?_rowLine (SExpr.lt_of_index? hi) row

theorem reread_field {x : Nat × String × String} (h : readField? e = some x) :
    readField? (fieldLine x.1 x.2.1 x.2.2) = some x := by
  obtain ⟨a, b, c, -, hi, -⟩ := readField?_eq_some.1 h
  exact readField?_fieldLine (SExpr.lt_of_index? hi) x.2.1 x.2.2

theorem reread_function {x : Nat × String × String} (h : readFunction? e = some x) :
    readFunction? (functionLine x.1 x.2.1 x.2.2) = some x := by
  obtain ⟨a, b, -, hi, -⟩ := readFunction?_eq_some.1 h
  exact readFunction?_functionLine (SExpr.lt_of_index? hi) x.2.1 x.2.2

theorem reread_cell {x : Nat × Nat × String} (h : readCell? e = some x) :
    readCell? (cellLine x.1 x.2.1 x.2.2) = some x := by
  obtain ⟨a, b, -, hr, hc⟩ := readCell?_eq_some.1 h
  exact readCell?_cellLine (SExpr.lt_of_index? hr) (SExpr.lt_of_index? hc) x.2.2

end Again

end Written

/-! ## Respelling -/

/-- An atom as the string of its text. -/
def asString (e : SExpr) : SExpr :=
  (e.name?.map .string).getD e

/-- An index in canonical decimal. -/
def asDecimal (e : SExpr) : SExpr :=
  (e.index?.map .ofIndex).getD e

def asStrings : SExpr → SExpr
  | .list items => .list (items.map asString)
  | e => e

/-- The line with every cell and name spelled as a string and every index in canonical
decimal; all else is left as it is. -/
def Layout.respell : Layout → SExpr → SExpr
  | .row, .list [i, cells] | .headerRow, .list [i, cells] | .column, .list [i, cells] =>
    .list [asDecimal i, asStrings cells]
  | .columnHeader, .list [name, cells] => .list [asString name, asStrings cells]
  | .struct, .list pairs => .list (pairs.map asStrings)
  | .field, .list [i, name, value] => .list [asDecimal i, asString name, asString value]
  | .function, .list [head, .list [call, .list [name, i]], value] =>
    .list [head, .list [call, .list [asString name, asDecimal i]], asString value]
  | .cell, .list [head, .list [call, .list [r, c]], value] =>
    .list [head, .list [call, .list [asDecimal r, asDecimal c]], asString value]
  | _, e => e

section Respelling
variable {e : SExpr} {i : Nat} {name value s : String} {row : List String}

theorem asString_of_name (h : e.name? = some s) : asString e = .string s := by
  simp [asString, h]

theorem asDecimal_of_index (h : e.index? = some i) : asDecimal e = .ofIndex i := by
  simp [asDecimal, h]

theorem asStrings_of_texts (h : texts? e = some row) : asStrings e = cellList row := by
  cases e with
  | list items => exact congrArg SExpr.list ((Reads.mapM_eq_some.1 h).map_eq asString_of_name)
  | _ => cases h

theorem asStrings_of_namedCell (h : namedCell? e = some (name, value)) : asStrings e = cellList [name, value] := by
  obtain ⟨a, b, rfl, ha, hb⟩ := namedCell?_eq_some.1 h
  simp [asStrings, asString_of_name ha, asString_of_name hb, cellList]

theorem respell_indexed {layout : Layout} (hl : layout = .row ∨ layout = .column)
    (h : readIndexed? e = some (i, row)) : layout.respell e = rowLine i row := by
  obtain ⟨a, b, rfl, ha, hb⟩ := readIndexed?_eq_some.1 h
  rcases hl with rfl | rfl <;> simp only [Layout.respell, asDecimal_of_index ha, asStrings_of_texts hb, rowLine]

theorem respell_headerRow {place : Option Nat} (h : readHeaderRow? e = some (place, row)) :
    Layout.headerRow.respell e = place.elim (headerLine row) (rowLine · row) := by
  obtain ⟨a, b, rfl, hb, hp⟩ := readHeaderRow?_eq_some.1 h
  split at hp
  · rename_i ha
    subst ha hp
    simp only [Layout.respell, asStrings_of_texts hb]
    rfl
  · obtain ⟨i, hi, rfl⟩ := hp
    simp only [Layout.respell, asDecimal_of_index hi, asStrings_of_texts hb]
    rfl

theorem respell_columnHeader (h : readColumn? e = some (name, row)) :
    Layout.columnHeader.respell e = columnLine name row := by
  obtain ⟨a, b, rfl, ha, hb⟩ := readColumn?_eq_some.1 h
  simp only [Layout.respell, asString_of_name ha, asStrings_of_texts hb, columnLine]

theorem respell_struct {named : List (String × String)} (h : readStruct? e = some named) :
    Layout.struct.respell e = namedLine named := by
  cases e with
  | list items =>
    exact congrArg SExpr.list ((Reads.mapM_eq_some.1 h).map_eq fun h => asStrings_of_namedCell h)
  | _ => cases h

theorem respell_field (h : readField? e = some (i, name, value)) :
    Layout.field.respell e = fieldLine i name value := by
  obtain ⟨a, b, c, rfl, ha, hb, hc⟩ := readField?_eq_some.1 h
  simp only [Layout.respell, asDecimal_of_index ha, asString_of_name hb, asString_of_name hc, fieldLine]

theorem respell_function (h : readFunction? e = some (i, name, value)) :
    Layout.function.respell e = functionLine i name value := by
  obtain ⟨a, b, he, hb, ha⟩ := readFunction?_eq_some.1 h
  obtain ⟨v, rfl, hv⟩ := equality?_eq_some.1 he
  simp only [Layout.respell, asDecimal_of_index hb, asString_of_name ha, asString_of_name hv]
  rfl

theorem respell_cell {r c : Nat} (h : readCell? e = some (r, c, value)) :
    Layout.cell.respell e = cellLine r c value := by
  obtain ⟨a, b, he, ha, hb⟩ := readCell?_eq_some.1 h
  obtain ⟨v, rfl, hv⟩ := equality?_eq_some.1 he
  simp only [Layout.respell, asDecimal_of_index ha, asDecimal_of_index hb, asString_of_name hv]
  rfl

end Respelling

end AtomLines.Table
