import AtomLines.Proofs.Table.Written
/-!
# The formats of the layouts

Each layout reads its lines as entries of one kind and writes them from entries. The
lines of a table are its entries in written order, and lines are accepted as a table
exactly if their entries make it. What one layout says of its entries is said here once
for all eight; what follows from it follows for every layout alike.
-/

namespace AtomLines.Table

open Keyed (placed keys ungrouped)

/-- A table whose rows and columns can be numbered, as those of every table in memory
can. -/
structure Matrix.Addressable (m : Matrix) : Prop where
  length : m.length ≤ Text.indexBound
  width : m.width ≤ Text.indexBound

namespace Layout

/-- The table can be told from its lines. -/
def Keeps : Layout → Matrix → Prop
  | .row, _ | .headerRow, _ => True
  | .column, m | .cell, m => m = [] ∨ 0 < m.width
  | .columnHeader, m => 0 < m.width ∧ m.header.Nodup
  | .struct, m => 1 < m.length
  | .field, m | .function, m => 1 < m.length ∧ 0 < m.width ∧ m.header.Nodup

instance : (layout : Layout) → (m : Matrix) → Decidable (layout.Keeps m)
  | .row, _ | .headerRow, _ => .isTrue trivial
  | .column, m | .cell, m => inferInstanceAs (Decidable (m = [] ∨ 0 < m.width))
  | .columnHeader, m => inferInstanceAs (Decidable (0 < m.width ∧ m.header.Nodup))
  | .struct, m => inferInstanceAs (Decidable (1 < m.length))
  | .field, m | .function, m => inferInstanceAs (Decidable (1 < m.length ∧ 0 < m.width ∧ m.header.Nodup))

/-- The written lines are the given ones in an order that the layout does not see. Columns
without cells are not written again. -/
def Rearranges : Layout → Matrix → List SExpr → List SExpr → Prop
  | .struct, _, written, lines | .columnHeader, _, written, lines => written = lines
  | .column, m, written, lines =>
    written.Perm lines ∨ m = [] ∧ ∃ n, lines.Perm ((List.range n).map (rowLine · []))
  | _, _, written, lines => written.Perm lines

end Layout

/-! ## Cells below their names -/

section Labeled
variable {xs : List (Nat × String × String)} {m : Matrix}

/-- The cells are those of rows below their names. -/
def MakesLabeled (xs : List (Nat × String × String)) (m : Matrix) : Prop :=
  ∃ rows, xs ≠ [] ∧ xs.Perm (labeledEntries (namesOf xs) rows) ∧ m = namesOf xs :: rows ∧ m.Rectangular

theorem makesLabeled_entries (h : m.Rectangular) (hk : 1 < m.length ∧ 0 < m.width ∧ m.header.Nodup) :
    MakesLabeled (labeledEntries m.header m.tail) m := by
  obtain ⟨hl, hw, hn⟩ := hk
  obtain ⟨header, rows, rfl⟩ := List.exists_cons_of_ne_nil (Matrix.ne_nil_of_width hw)
  have hrows : rows ≠ [] := List.length_pos_iff.1 (Nat.lt_of_succ_lt_succ hl)
  have hnames : namesOf (labeledEntries header rows) = header :=
    namesOf_labeledEntries hn hrows (Matrix.rectangular_cons.1 h)
  refine ⟨rows, ?_, ?_, ?_, h⟩
  · rw [← namesOf_eq_nil.ne, Matrix.header_cons, List.tail_cons, hnames]
    exact List.length_pos_iff.1 hw
  · rw [Matrix.header_cons, List.tail_cons, hnames]
  · rw [Matrix.header_cons, List.tail_cons, hnames]

theorem MakesLabeled.keeps (h : MakesLabeled xs m) :
    m.Rectangular ∧ m ≠ [] ∧ 1 < m.length ∧ 0 < m.width ∧ m.header.Nodup := by
  obtain ⟨rows, hne, hp, rfl, hrect⟩ := h
  have hrows : rows ≠ [] := by
    rintro rfl
    exact hne hp.eq_nil
  have hnames : namesOf xs ≠ [] := mt namesOf_eq_nil.1 hne
  exact ⟨hrect, List.cons_ne_nil _ _, Nat.succ_lt_succ (List.length_pos_iff.2 hrows), List.length_pos_iff.2 hnames,
    nodup_namesOf xs⟩

theorem MakesLabeled.perm (h : MakesLabeled xs m) : (labeledEntries m.header m.tail).Perm xs := by
  obtain ⟨rows, -, hp, rfl, -⟩ := h
  exact hp.symm

theorem encode_labeled {line : Nat → String → String → SExpr} (hne : m ≠ []) :
    withHeader m (labeledLines line) = .ok ((labeledEntries m.header m.tail).map fun e => line e.1 e.2.1 e.2.2) := by
  obtain ⟨header, rows, rfl⟩ := List.exists_cons_of_ne_nil hne
  exact congrArg Except.ok (labeledLines_eq line header rows)

theorem lt_of_mem_labeledEntries (hm : m.Addressable) {x : Nat × String × String}
    (hx : x ∈ labeledEntries m.header m.tail) : x.1 < Text.indexBound := by
  obtain ⟨group, hg, -⟩ := Keyed.mem_ungrouped.1 hx
  have hi := Keyed.lt_of_mem_placed hg
  rw [List.length_map, List.length_tail] at hi
  have := hm.length
  simp only at hi
  omega

end Labeled

/-! ## Formats -/

/-- Columns without cells are the columns of the empty table. -/
theorem columns_cases {columns : Matrix} (h : columns.Rectangular) :
    columns.columns.columns = columns ∧ 0 < columns.columns.width ∨
      columns.columns = [] ∧ columns = (List.range columns.length).map fun _ => [] := by
  by_cases hw : 0 < columns.width
  · refine .inl ⟨h.columns_columns hw, ?_⟩
    rw [h.width_columns hw]
    exact List.length_pos_iff.2 (Matrix.ne_nil_of_width hw)
  · have hw0 : columns.width = 0 := Nat.eq_zero_of_not_pos hw
    refine .inr ⟨Matrix.columns_eq_nil hw0, ?_⟩
    rw [List.map_const', List.length_range]
    exact List.eq_replicate_iff.2 ⟨rfl, fun column hc => List.length_eq_zero_iff.1 ((h column hc).trans hw0)⟩

/-- The entries of a layout: how they are read and written, which ones a table has, in
written order, and which ones are accepted as which table. -/
structure Format (layout : Layout) where
  Entry : Type
  read? : SExpr → Option Entry
  write : Entry → SExpr
  entries : Matrix → List Entry
  Makes : List Entry → Matrix → Prop
  respell : ∀ {e x}, read? e = some x → layout.respell e = write x
  reread : ∀ {e x}, read? e = some x → read? (write x) = some x
  faithful : ∀ x, (write x).Faithful
  read_entries : ∀ {m : Matrix}, m.Addressable → m.Rectangular → ∀ x ∈ entries m, read? (write x) = some x
  encode_eq : ∀ {m : Matrix}, m.Rectangular → (layout.usesHeader = true → m ≠ []) →
    encode layout m = .ok ((entries m).map write)
  decode_eq_ok : ∀ {lines m}, decode layout lines = .ok m ↔ ∃ xs, Reads read? lines xs ∧ Makes xs m
  makes_entries : ∀ {m : Matrix}, m.Rectangular → (layout.usesHeader = true → m ≠ []) → layout.Keeps m →
    Makes (entries m) m
  of_makes : ∀ {xs} {m : Matrix}, Makes xs m →
    m.Rectangular ∧ (layout.usesHeader = true → m ≠ []) ∧ layout.Keeps m
  mem_of_makes : ∀ {xs m x}, Makes xs m → x ∈ entries m → x ∈ xs
  rearranges : ∀ {xs m}, Makes xs m → layout.Rearranges m ((entries m).map write) (xs.map write)

namespace Format

/-! ## Rows and columns -/

def row : Format .row where
  Entry := Nat × List String
  read? := readIndexed?
  write e := rowLine e.1 e.2
  entries := placed 0
  Makes xs m := xs.Perm (placed 0 m) ∧ m.Rectangular
  respell := respell_indexed (.inl rfl)
  reread := reread_indexed
  faithful x := faithful_rowLine x.1 x.2
  read_entries {m} hm _ x hx := by
    have hi := Keyed.lt_of_mem_placed hx
    have := hm.length
    exact readIndexed?_rowLine (by omega) x.2
  encode_eq {m} h _ := by
    rw [encode, h.check, ← rowLines_eq]
    rfl
  decode_eq_ok := decodeRow_eq_ok
  makes_entries h _ _ := ⟨.refl _, h⟩
  of_makes h := ⟨h.2, nofun, trivial⟩
  mem_of_makes h hx := h.1.mem_iff.2 hx
  rearranges h := h.1.symm.map _

def headerRow : Format .headerRow where
  Entry := Option Nat × List String
  read? := readHeaderRow?
  write e := e.1.elim (headerLine e.2) (rowLine · e.2)
  entries m := headerRowEntries m.header m.tail
  Makes xs m := ∃ header rows, xs.Perm (headerRowEntries header rows) ∧ m = header :: rows ∧ m.Rectangular
  respell := respell_headerRow
  reread := reread_headerRow
  faithful x := by
    obtain ⟨place, row⟩ := x
    cases place with
    | none => exact faithful_headerLine row
    | some i => exact faithful_rowLine i row
  read_entries {m} hm _ x hx := by
    rcases List.mem_cons.1 hx with rfl | hx
    · exact readHeaderRow?_headerLine m.header
    · obtain ⟨e, he, rfl⟩ := List.mem_map.1 hx
      have hi := Keyed.lt_of_mem_placed he
      have hl := hm.length
      rw [List.length_tail] at hi
      exact readHeaderRow?_rowLine (by omega) e.2
  encode_eq {m} h hne := by
    obtain ⟨header, rows, rfl⟩ := List.exists_cons_of_ne_nil (hne rfl)
    rw [encode, h.check, headerRowEntries, belowHeader, List.map_cons, List.map_map]
    exact congrArg (fun lines => Except.ok (headerLine header :: lines)) (rowLines_eq 0 rows)
  decode_eq_ok {lines m} := by
    rw [decode, decodeHeaderRow_eq_ok]
    simp only [exists_and_left]
  makes_entries {m} h hne _ := by
    obtain ⟨header, rows, rfl⟩ := List.exists_cons_of_ne_nil (hne rfl)
    exact ⟨header, rows, .refl _, rfl, h⟩
  of_makes {xs m} h := by
    obtain ⟨header, rows, -, rfl, hrect⟩ := h
    exact ⟨hrect, fun _ => List.cons_ne_nil _ _, trivial⟩
  mem_of_makes {xs m x} h hx := by
    obtain ⟨header, rows, hp, rfl, -⟩ := h
    exact hp.mem_iff.2 hx
  rearranges {xs m} h := by
    obtain ⟨header, rows, hp, rfl, -⟩ := h
    exact hp.symm.map _

def column : Format .column where
  Entry := Nat × List String
  read? := readIndexed?
  write e := rowLine e.1 e.2
  entries m := placed 0 m.columns
  Makes xs m := ∃ columns : Matrix, xs.Perm (placed 0 columns) ∧ columns.Rectangular ∧ columns.columns = m
  respell := respell_indexed (.inr rfl)
  reread := reread_indexed
  faithful x := faithful_rowLine x.1 x.2
  read_entries {m} hm _ x hx := by
    have hi := Keyed.lt_of_mem_placed hx
    have hw := hm.width
    rw [Matrix.length_columns] at hi
    exact readIndexed?_rowLine (by omega) x.2
  encode_eq {m} h _ := by
    rw [encode, h.check, ← columnLines_eq]
    rfl
  decode_eq_ok {lines m} := by
    rw [decode, decodeColumn_eq_ok]
    simp only [exists_and_left]
  makes_entries {m} h _ hk := by
    rcases hk with rfl | hw
    · exact ⟨[], .refl _, Matrix.rectangular_nil, rfl⟩
    · exact ⟨m.columns, .refl _, h.columns, h.columns_columns hw⟩
  of_makes {xs m} h := by
    obtain ⟨columns, -, hrect, rfl⟩ := h
    refine ⟨hrect.columns, nofun, ?_⟩
    rcases columns_cases hrect with ⟨-, hw⟩ | ⟨he, -⟩
    · exact .inr hw
    · exact .inl he
  mem_of_makes {xs m x} h hx := by
    obtain ⟨columns, hp, hrect, rfl⟩ := h
    rcases columns_cases hrect with ⟨hc, -⟩ | ⟨he, -⟩
    · rw [hc] at hx
      exact hp.mem_iff.2 hx
    · rw [he] at hx
      cases hx
  rearranges {xs m} h := by
    obtain ⟨columns, hp, hrect, rfl⟩ := h
    rcases columns_cases hrect with ⟨hc, -⟩ | ⟨he, hc⟩
    · rw [hc]
      exact .inl (hp.symm.map _)
    · refine .inr ⟨he, columns.length, (hp.map _).trans ?_⟩
      rw [hc, Keyed.placed_map, Keyed.placed_range, List.map_map, List.map_map, List.length_map, List.length_range]
      exact .refl _

/-! ## Columns and rows of named cells -/

def columnHeader : Format .columnHeader where
  Entry := String × List String
  read? := readColumn?
  write e := columnLine e.1 e.2
  entries m := columnEntries m.header m.tail
  Makes xs m := ∃ header rows, xs = columnEntries header rows ∧ header ≠ [] ∧ header.Nodup ∧ m = header :: rows ∧
    m.Rectangular
  respell := respell_columnHeader
  reread _ := readColumn?_columnLine _ _
  faithful x := faithful_columnLine x.1 x.2
  read_entries _ _ x _ := readColumn?_columnLine x.1 x.2
  encode_eq {m} h hne := by
    obtain ⟨header, rows, rfl⟩ := List.exists_cons_of_ne_nil (hne rfl)
    rw [encode, h.check]
    exact congrArg Except.ok (columnHeaderLines_eq header rows)
  decode_eq_ok {lines m} := by
    rw [decode, decodeColumnHeader_eq_ok]
    constructor
    · rintro ⟨header, rows, hr, h⟩
      exact ⟨_, hr, header, rows, rfl, h⟩
    · rintro ⟨_, hr, header, rows, rfl, h⟩
      exact ⟨header, rows, hr, h⟩
  makes_entries {m} h hne hk := by
    obtain ⟨header, rows, rfl⟩ := List.exists_cons_of_ne_nil (hne rfl)
    exact ⟨header, rows, rfl, List.length_pos_iff.1 hk.1, hk.2, rfl, h⟩
  of_makes {xs m} h := by
    obtain ⟨header, rows, -, hne, hn, rfl, hrect⟩ := h
    exact ⟨hrect, fun _ => List.cons_ne_nil _ _, List.length_pos_iff.2 hne, hn⟩
  mem_of_makes {xs m x} h hx := by
    obtain ⟨header, rows, rfl, -, -, rfl, -⟩ := h
    exact hx
  rearranges {xs m} h := by
    obtain ⟨header, rows, rfl, -, -, rfl, -⟩ := h
    rfl

def struct : Format .struct where
  Entry := List (String × String)
  read? := readStruct?
  write := namedLine
  entries m := m.tail.map m.header.zip
  Makes xs m := ∃ header rows, xs = rows.map header.zip ∧ rows ≠ [] ∧ m = header :: rows ∧ m.Rectangular
  respell := respell_struct
  reread _ := readStruct?_namedLine _
  faithful := faithful_namedLine
  read_entries _ _ x _ := readStruct?_namedLine x
  encode_eq {m} h hne := by
    obtain ⟨header, rows, rfl⟩ := List.exists_cons_of_ne_nil (hne rfl)
    rw [encode, h.check]
    exact congrArg Except.ok (structLines_eq header rows)
  decode_eq_ok {lines m} := by
    rw [decode, decodeStruct_eq_ok]
    constructor
    · rintro ⟨header, rows, hr, h⟩
      exact ⟨_, hr, header, rows, rfl, h⟩
    · rintro ⟨_, hr, header, rows, rfl, h⟩
      exact ⟨header, rows, hr, h⟩
  makes_entries {m} h hne hk := by
    obtain ⟨header, rows, rfl⟩ := List.exists_cons_of_ne_nil (hne rfl)
    exact ⟨header, rows, rfl, List.length_pos_iff.1 (Nat.lt_of_succ_lt_succ hk), rfl, h⟩
  of_makes {xs m} h := by
    obtain ⟨header, rows, -, hne, rfl, hrect⟩ := h
    exact ⟨hrect, fun _ => List.cons_ne_nil _ _, Nat.succ_lt_succ (List.length_pos_iff.2 hne)⟩
  mem_of_makes {xs m x} h hx := by
    obtain ⟨header, rows, rfl, -, rfl, -⟩ := h
    exact hx
  rearranges {xs m} h := by
    obtain ⟨header, rows, rfl, -, rfl, -⟩ := h
    rfl

/-! ## Single cells -/

def field : Format .field where
  Entry := Nat × String × String
  read? := readField?
  write e := fieldLine e.1 e.2.1 e.2.2
  entries m := labeledEntries m.header m.tail
  Makes := MakesLabeled
  respell := respell_field
  reread := reread_field
  faithful x := faithful_fieldLine x.1 x.2.1 x.2.2
  read_entries hm _ x hx := readField?_fieldLine (lt_of_mem_labeledEntries hm hx) x.2.1 x.2.2
  encode_eq {m} h hne := by
    rw [encode, h.check]
    exact encode_labeled (hne rfl)
  decode_eq_ok {lines m} := by
    rw [decode, decodeField_eq_ok]
    simp only [exists_and_left, MakesLabeled]
  makes_entries h _ hk := makesLabeled_entries h hk
  of_makes h := ⟨h.keeps.1, fun _ => h.keeps.2.1, h.keeps.2.2⟩
  mem_of_makes h hx := h.perm.mem_iff.1 hx
  rearranges h := h.perm.map _

def function : Format .function where
  Entry := Nat × String × String
  read? := readFunction?
  write e := functionLine e.1 e.2.1 e.2.2
  entries m := labeledEntries m.header m.tail
  Makes := MakesLabeled
  respell := respell_function
  reread := reread_function
  faithful x := faithful_functionLine x.1 x.2.1 x.2.2
  read_entries hm _ x hx := readFunction?_functionLine (lt_of_mem_labeledEntries hm hx) x.2.1 x.2.2
  encode_eq {m} h hne := by
    rw [encode, h.check]
    exact encode_labeled (hne rfl)
  decode_eq_ok {lines m} := by
    rw [decode, decodeFunction_eq_ok]
    simp only [exists_and_left, MakesLabeled]
  makes_entries h _ hk := makesLabeled_entries h hk
  of_makes h := ⟨h.keeps.1, fun _ => h.keeps.2.1, h.keeps.2.2⟩
  mem_of_makes h hx := h.perm.mem_iff.1 hx
  rearranges h := h.perm.map _

def cell : Format .cell where
  Entry := Nat × Nat × String
  read? := readCell?
  write e := cellLine e.1 e.2.1 e.2.2
  entries := cellEntries
  Makes xs m := xs.Perm (cellEntries m) ∧ [] ∉ m ∧ m.Rectangular
  respell := respell_cell
  reread := reread_cell
  faithful x := faithful_cellLine x.1 x.2.1 x.2.2
  read_entries {m} hm hrect x hx := by
    obtain ⟨group, hg, hc⟩ := Keyed.mem_ungrouped.1 hx
    obtain ⟨row, hrow, rfl⟩ := List.mem_map.1 (Keyed.mem_of_mem_placed hg)
    have hr := Keyed.lt_of_mem_placed hg
    have hc := Keyed.lt_of_mem_placed hc
    rw [List.length_map] at hr
    rw [hrect row hrow] at hc
    have hl := hm.length
    have hw := hm.width
    simp only at hr hc
    exact readCell?_cellLine (by omega) (by omega) x.2.2
  encode_eq {m} h _ := by
    rw [encode, h.check, ← cellLines_eq]
    rfl
  decode_eq_ok := decodeCell_eq_ok
  makes_entries h _ hk := ⟨.refl _, h.nil_notMem_iff.2 hk, h⟩
  of_makes h := ⟨h.2.2, nofun, h.2.2.nil_notMem_iff.1 h.2.1⟩
  mem_of_makes h hx := h.1.mem_iff.2 hx
  rearranges h := h.1.symm.map _

end Format

def Layout.format : (layout : Layout) → Format layout
  | .row => .row
  | .headerRow => .headerRow
  | .column => .column
  | .columnHeader => .columnHeader
  | .struct => .struct
  | .field => .field
  | .function => .function
  | .cell => .cell

end AtomLines.Table
