import AtomLines.Proofs.Table.Format
/-!
# The order of the lines of a table

Lines are accepted in every order or in none. Where indices tell all places apart the
table is the same. Where names come in the order of their first use, the columns come in
another order. Where a line is a whole row or column, the rows or columns move with
their lines.
-/

namespace AtomLines.Table

open Keyed (placed keys)

variable {layout : Layout} {lines lines' : List SExpr} {m : Matrix}

namespace Layout

/-- How the table `m'` of lines in another order follows from the table `m`. -/
def Follows (layout : Layout) (lines lines' : List SExpr) (m m' : Matrix) : Prop :=
  match layout with
  | .row | .headerRow | .column | .cell => m' = m
  | .field | .function => m'.length = m.length ∧ m.columns.Perm m'.columns
  | .struct => m'.header = m.header ∧ ∀ i j : Nat, lines[i]? = lines'[j]? → m.tail[i]? = m'.tail[j]?
  | .columnHeader => m'.length = m.length ∧ ∀ i j : Nat, lines[i]? = lines'[j]? → m.columns[i]? = m'.columns[j]?

end Layout

/-! ## Columns under names -/

section Labeled
variable {header header' : List String} {rows : Matrix} {xs ys : List (Nat × String × String)}

theorem namesOf_perm (hp : xs.Perm ys) : (namesOf xs).Perm (namesOf ys) := by
  apply (List.perm_ext_iff_of_nodup (nodup_namesOf xs) (nodup_namesOf ys)).2
  intro name
  rw [mem_namesOf, mem_namesOf]
  simp only [hp.mem_iff]

/-- The cells of a row that has the names of one header, in the order of another. -/
def rowUnder (header header' row : List String) : List String :=
  header'.filterMap (Keyed.get? · (header.zip row))

theorem rowUnder_perm {row : List String} (hn : header.Nodup) (hp : header.Perm header') (hl : row.length = header.length) :
    (header.zip row).Perm (header'.zip (rowUnder header header' row)) ∧
      (rowUnder header header' row).length = header'.length := by
  have hkeys : keys (header.zip row) = header := Keyed.keys_zip hl
  have hnk : (keys (header.zip row)).Nodup := hkeys.symm ▸ hn
  have hr : Reads (Keyed.get? · (header.zip row)) header row :=
    (reads_row hn hnk fun name hm => hkeys ▸ hm).2 ⟨.refl _, hl⟩
  obtain ⟨row', hr', -⟩ := hr.perm hp
  rw [rowUnder, hr'.filterMap_eq]
  apply (reads_row (hp.nodup_iff.1 hn) hnk _).1 hr'
  intro name hm
  rw [hkeys] at hm
  exact hp.mem_iff.1 hm

/-- A column is found by its name. -/
theorem columns_by_name (hn : header.Nodup) (hl : ∀ row ∈ rows, row.length = header.length) :
    Matrix.columns (header :: rows) =
      header.map fun name => name :: rows.filterMap fun row => Keyed.get? name (header.zip row) := by
  have hplaces : ∀ f : String → List String, header.map f = header.zipIdx.map (f ∘ Prod.fst) := by
    intro f
    rw [← List.map_map, List.zipIdx_map_fst]
  rw [← namedColumns_columnEntries, namedColumns, columnEntries, List.map_map, hplaces]
  apply List.map_congr_left
  rintro ⟨name, j⟩ hj
  rw [List.mem_zipIdx_iff_getElem?] at hj
  refine congrArg (name :: ·) (List.filterMap_congr fun row hm => ?_)
  have hnk : (keys (header.zip row)).Nodup := by rwa [Keyed.keys_zip (hl row hm)]
  have hj' : j < row.length := by
    rw [hl row hm]
    exact (List.getElem?_eq_some_iff.1 hj).1
  show row[j]? = Keyed.get? name (header.zip row)
  rw [eq_comm, List.getElem?_eq_getElem hj', Keyed.get?_eq_some hnk]
  apply List.mem_of_getElem? (i := j)
  rw [List.getElem?_zip_eq_some]
  exact ⟨hj, List.getElem?_eq_getElem hj'⟩

/-- Cells in another order give the same table up to the order of its columns. -/
theorem MakesLabeled.follows (h : MakesLabeled xs m) (hp : xs.Perm ys) :
    ∃ m' : Matrix, MakesLabeled ys m' ∧ m'.length = m.length ∧ m.columns.Perm m'.columns := by
  obtain ⟨rows, hne, hx, rfl, hrect⟩ := h
  have hl := Matrix.rectangular_cons.1 hrect
  have hn := nodup_namesOf xs
  have hnames := namesOf_perm hp
  have hrow := fun row hm => rowUnder_perm hn hnames (hl row hm)
  have hl' : ∀ row ∈ rows.map (rowUnder (namesOf xs) (namesOf ys)), row.length = (namesOf ys).length := by
    intro row' hm'
    obtain ⟨row, hm, rfl⟩ := List.mem_map.1 hm'
    exact (hrow row hm).2
  refine ⟨namesOf ys :: rows.map (rowUnder (namesOf xs) (namesOf ys)), ⟨_, ?_, ?_, rfl, ?_⟩, ?_, ?_⟩
  · rintro rfl
    exact hne hp.eq_nil
  · refine hp.symm.trans (hx.trans (Keyed.ungrouped_placed_perm ?_ 0))
    rw [List.map_map, List.forall₂_map_left_iff, List.forall₂_map_right_iff, List.forall₂_same]
    exact fun row hm => (hrow row hm).1
  · exact Matrix.rectangular_cons.2 hl'
  · rw [List.length_cons, List.length_cons, List.length_map]
  · -- Under each name lies the same column.
    rw [columns_by_name hn hl, columns_by_name (nodup_namesOf ys) hl']
    refine (hnames.map _).trans (.of_eq (List.map_congr_left fun name _ => congrArg (name :: ·) ?_))
    rw [List.filterMap_map]
    refine List.filterMap_congr fun row hm => Keyed.get?_perm ?_ (hrow row hm).1 name
    rwa [Keyed.keys_zip (hl row hm)]

end Labeled

/-! ## Lines in another order -/

theorem struct_follows (h : decodeStruct lines = .ok m) (hp : lines.Perm lines') :
    ∃ m', decodeStruct lines' = .ok m' ∧ Layout.struct.Follows lines lines' m m' := by
  obtain ⟨header, rows, hr, hne, rfl, hrect⟩ := decodeStruct_eq_ok.1 h
  rw [Matrix.rectangular_cons] at hrect
  obtain ⟨ys, hr', hy⟩ := hr.perm hp
  have hnames : ∀ named ∈ ys, keys named = header := fun named hm =>
    keys_of_mem_zips hrect named (hy.mem_iff.2 hm)
  have hrows : ys.map (·.map Prod.snd) ≠ [] := by
    intro hnil
    rw [List.map_eq_nil_iff.1 hnil] at hy
    exact hne (List.map_eq_nil_iff.1 hy.eq_nil)
  have hread : Reads readStruct? lines' ((ys.map (·.map Prod.snd)).map header.zip) := by rwa [map_values_zip hnames]
  refine ⟨_, decodeStruct_eq_ok.2 ⟨header, _, hread, hrows, rfl, rectangular_values hnames⟩, rfl, ?_⟩
  intro i j hij
  rw [List.tail_cons, List.tail_cons, ← map_zip_values hrect, List.getElem?_map, hr.getElem?_eq hr' hij,
    List.getElem?_map]

theorem columnHeader_follows (h : decodeColumnHeader lines = .ok m) (hp : lines.Perm lines') :
    ∃ m', decodeColumnHeader lines' = .ok m' ∧ Layout.columnHeader.Follows lines lines' m m' := by
  obtain ⟨xs, hr, hne, hn, hrect, rfl⟩ := decodeColumnHeader_eq_ok_columns.1 h
  obtain ⟨ys, hr', hy⟩ := hr.perm hp
  have hne' : ys ≠ [] := by
    rintro rfl
    exact hne hy.eq_nil
  have hcolumns : (namedColumns xs).Perm (namedColumns ys) := hy.map _
  obtain ⟨hrect', hwidth⟩ := hrect.perm hcolumns
  refine ⟨_, decodeColumnHeader_eq_ok_columns.2 ⟨ys, hr', hne', (hy.map Prod.fst).nodup_iff.1 hn, hrect', rfl⟩, ?_, ?_⟩
  · rw [Matrix.length_columns, Matrix.length_columns]
    exact hwidth
  · intro i j hij
    rw [(columns_namedColumns hne hrect).1, (columns_namedColumns hne' hrect').1, namedColumns, namedColumns,
      List.getElem?_map, List.getElem?_map, hr.getElem?_eq hr' hij]

theorem decode_follows (h : decode layout lines = .ok m) (hp : lines.Perm lines') :
    ∃ m', decode layout lines' = .ok m' ∧ layout.Follows lines lines' m m' := by
  cases layout with
  | row =>
    obtain ⟨xs, hr, hx, hrect⟩ := decodeRow_eq_ok.1 h
    obtain ⟨ys, hr', hy⟩ := hr.perm hp
    exact ⟨m, decodeRow_eq_ok.2 ⟨ys, hr', hy.symm.trans hx, hrect⟩, Eq.refl m⟩
  | headerRow =>
    obtain ⟨xs, header, rows, hr, hx, hm⟩ := decodeHeaderRow_eq_ok.1 h
    obtain ⟨ys, hr', hy⟩ := hr.perm hp
    exact ⟨m, decodeHeaderRow_eq_ok.2 ⟨ys, header, rows, hr', hy.symm.trans hx, hm⟩, Eq.refl m⟩
  | column =>
    obtain ⟨xs, columns, hr, hx, hm⟩ := decodeColumn_eq_ok.1 h
    obtain ⟨ys, hr', hy⟩ := hr.perm hp
    exact ⟨m, decodeColumn_eq_ok.2 ⟨ys, columns, hr', hy.symm.trans hx, hm⟩, Eq.refl m⟩
  | cell =>
    obtain ⟨xs, hr, hx, hm⟩ := decodeCell_eq_ok.1 h
    obtain ⟨ys, hr', hy⟩ := hr.perm hp
    exact ⟨m, decodeCell_eq_ok.2 ⟨ys, hr', hy.symm.trans hx, hm⟩, Eq.refl m⟩
  | columnHeader => exact columnHeader_follows h hp
  | struct => exact struct_follows h hp
  | field =>
    obtain ⟨xs, hr, hm⟩ := Format.field.decode_eq_ok.1 h
    obtain ⟨ys, hr', hy⟩ := hr.perm hp
    obtain ⟨m', hm', hf⟩ := MakesLabeled.follows hm hy
    exact ⟨m', Format.field.decode_eq_ok.2 ⟨ys, hr', hm'⟩, hf⟩
  | function =>
    obtain ⟨xs, hr, hm⟩ := Format.function.decode_eq_ok.1 h
    obtain ⟨ys, hr', hy⟩ := hr.perm hp
    obtain ⟨m', hm', hf⟩ := MakesLabeled.follows hm hy
    exact ⟨m', Format.function.decode_eq_ok.2 ⟨ys, hr', hm'⟩, hf⟩

/-- Lines in another order are accepted if the lines are, and their table follows from
the table of the lines. -/
theorem accepted_in_any_order (layout : Layout) (lines lines' : List SExpr) (hp : lines.Perm lines') :
    ((∃ m, decode layout lines = .ok m) ↔ ∃ m', decode layout lines' = .ok m') ∧
    ∀ m m', decode layout lines = .ok m → decode layout lines' = .ok m' →
      m.Rectangular ∧ m'.Rectangular ∧ layout.Follows lines lines' m m' := by
  have hsuccess : ∀ {as bs : List SExpr}, as.Perm bs → (∃ m, decode layout as = .ok m) → ∃ m, decode layout bs = .ok m := by
    rintro as bs hab ⟨m, h⟩
    obtain ⟨m', h', -⟩ := decode_follows h hab
    exact ⟨m', h'⟩
  have hrect : ∀ {as : List SExpr} {m : Matrix}, decode layout as = .ok m → m.Rectangular := by
    intro as m h
    obtain ⟨xs, -, hm⟩ := layout.format.decode_eq_ok.1 h
    exact (layout.format.of_makes hm).1
  refine ⟨⟨hsuccess hp, hsuccess hp.symm⟩, ?_⟩
  intro m m' h h'
  obtain ⟨m'', h'', hf⟩ := decode_follows h hp
  rw [h', Except.ok.injEq] at h''
  exact ⟨hrect h, hrect h', h'' ▸ hf⟩

theorem accepted_in_any_order_swapped :
    decode .field [fieldLine 0 "a" "1", fieldLine 0 "b" "2"] = .ok [["a", "b"], ["1", "2"]] ∧
    decode .field [fieldLine 0 "b" "2", fieldLine 0 "a" "1"] = .ok [["b", "a"], ["2", "1"]] ∧
    (Matrix.columns [["a", "b"], ["1", "2"]]).Perm (Matrix.columns [["b", "a"], ["2", "1"]]) := by
  have h : decode .field [fieldLine 0 "a" "1", fieldLine 0 "b" "2"] = .ok [["a", "b"], ["1", "2"]] := by
    decide +kernel
  have h' : decode .field [fieldLine 0 "b" "2", fieldLine 0 "a" "1"] = .ok [["b", "a"], ["2", "1"]] := by
    decide +kernel
  obtain ⟨-, -, -, hcolumns⟩ := (accepted_in_any_order .field _ _ (.swap ..)).2 _ _ h h'
  exact ⟨h, h', hcolumns⟩

end AtomLines.Table
