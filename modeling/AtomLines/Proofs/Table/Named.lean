import AtomLines.Proofs.Distinct
import AtomLines.Proofs.Keyed
import AtomLines.Proofs.Table.Entry
import AtomLines.Proofs.Table.Gather
import AtomLines.Proofs.Table.Shape
/-!
# Columns and rows of named cells

Two layouts keep the order of their lines: one has a line for each column under its
name, one has a line for each row with the names of all its cells. Lines are accepted
exactly if they are those of a table, and the names of columns that each have their own
line differ.
-/

namespace AtomLines.Table

open Keyed (keys)

variable {lines : List SExpr} {m rows : Matrix} {header : List String}

/-! ## Columns under their names -/

/-- The columns of the rows below a header, each with its name. -/
def columnEntries (header : List String) (rows : Matrix) : List (String × List String) :=
  header.zipIdx.map fun (name, j) => (name, rows.columnAt j)

/-- Columns that start with their names. -/
def namedColumns (xs : List (String × List String)) : Matrix :=
  xs.map fun (name, column) => name :: column

theorem keys_columnEntries (header : List String) (rows : Matrix) : keys (columnEntries header rows) = header := by
  rw [keys, columnEntries, List.map_map]
  exact List.zipIdx_map_fst 0 header

/-- The columns of a whole table start with the names in its header. -/
theorem namedColumns_columnEntries (header : List String) (rows : Matrix) :
    namedColumns (columnEntries header rows) = Matrix.columns (header :: rows) := by
  apply List.ext_getElem?
  intro j
  by_cases hj : j < header.length
  · rw [Matrix.columns_getElem? hj, Matrix.columnAt_cons_of_lt hj]
    simp [namedColumns, columnEntries, hj]
  · have hl : header.length ≤ j := Nat.le_of_not_lt hj
    rw [List.getElem?_eq_none (by simpa [namedColumns, columnEntries] using hl), List.getElem?_eq_none (by simpa using hl)]

theorem namedColumns_injective : Function.Injective namedColumns := by
  apply List.map_injective_iff.2
  rintro ⟨name, column⟩ ⟨name', column'⟩ h
  obtain ⟨rfl, rfl⟩ := List.cons.inj h
  rfl

theorem addColumn_of_entry {columns : Matrix} {e : SExpr} {line : Nat} {name : String} {column : List String}
    (h : readColumn? e = some (name, column)) : addColumn columns (e, line) =
      if columns.any (·.head? = some name) then .error (.malformed line (.columnAgain name))
      else .ok (columns ++ [name :: column]) := by
  obtain ⟨a, b, rfl, ha, hb⟩ := readColumn?_eq_some.1 h
  rw [addColumn, pair_eq_ok.2 rfl]
  show (cell line a >>= _) = _
  rw [cell_eq_ok.2 ha]
  show (cells line b >>= _) = _
  rw [cells_eq_ok.2 hb]
  rfl

theorem any_head?_namedColumns {xs : List (String × List String)} {name : String} :
    (namedColumns xs).any (·.head? = some name) = true ↔ name ∈ keys xs := by
  simp [namedColumns, keys]

theorem addColumn_of_repeated {xs : List (String × List String)} {columns : Matrix} {e : SExpr} {line : Nat}
    {x : String × List String} (h : (keys xs).Nodup ∧ columns = namedColumns xs) (hx : readColumn? e = some x)
    (hn : ¬ (keys (xs ++ [x])).Nodup) : addColumn columns (e, line) = .error (.malformed line (.columnAgain x.1)) := by
  obtain ⟨hxs, rfl⟩ := h
  rw [addColumn_of_entry hx, if_pos (any_head?_namedColumns.2 (mem_of_not_nodup_concat hxs hn))]

theorem gathers_addColumn : GathersLines readColumn? addColumn (fun xs => (keys xs).Nodup)
    (fun xs columns => (keys xs).Nodup ∧ columns = namedColumns xs) where
  shorter h := (nodup_map_concat.1 h).1
  reads {xs columns columns' a} h hs := by
    obtain ⟨e, line⟩ := a
    obtain ⟨hn, rfl⟩ := h
    obtain ⟨⟨name, column⟩, hx⟩ : ∃ x, readColumn? e = some x := by
      simp only [addColumn, bind_eq_ok, Prod.exists, pair_eq_ok, cell_eq_ok, cells_eq_ok] at hs
      obtain ⟨a, b, rfl, name, ha, column, hb, -⟩ := hs
      exact ⟨(name, column), readColumn?_eq_some.2 ⟨a, b, rfl, ha, hb⟩⟩
    rw [addColumn_of_entry hx] at hs
    split at hs
    · cases hs
    · rename_i hany
      cases hs
      have hnew : (keys (xs ++ [(name, column)])).Nodup :=
        nodup_map_concat.2 ⟨hn, mt any_head?_namedColumns.2 hany⟩
      exact ⟨_, hx, hnew, hnew, by simp [namedColumns]⟩
  accepts {xs columns a x} h hx hg := by
    obtain ⟨e, line⟩ := a
    obtain ⟨-, rfl⟩ := h
    obtain ⟨name, column⟩ := x
    rw [addColumn_of_entry hx, if_neg (mt any_head?_namedColumns.1 (nodup_map_concat.1 hg).2)]
    exact ⟨_, rfl⟩

theorem holds_namedColumns_nil :
    (keys ([] : List (String × List String))).Nodup ∧ ([] : Matrix) = namedColumns [] :=
  ⟨List.nodup_nil, rfl⟩

/-- Lines are accepted exactly if they are equally long columns whose names differ. -/
theorem decodeColumnHeader_eq_ok_columns : decodeColumnHeader lines = .ok m ↔ ∃ xs, Reads readColumn? lines xs ∧
    xs ≠ [] ∧ (keys xs).Nodup ∧ (namedColumns xs).Rectangular ∧ (namedColumns xs).columns = m := by
  rw [decodeColumnHeader]
  split
  · rename_i hl
    subst hl
    constructor
    · exact nofun
    · rintro ⟨xs, hr, hne, -⟩
      exact absurd (Reads.nil_iff.1 hr) hne
  · rename_i hl
    simp only [bind_eq_ok, ofColumns_eq_ok]
    constructor
    · rintro ⟨columns, hf, hrect, hm⟩
      obtain ⟨xs, hr, hn, -, rfl⟩ := gathers_addColumn.run holds_namedColumns_nil List.nodup_nil hf
      refine ⟨xs, hr, ?_, hn, hrect, hm⟩
      rintro rfl
      exact hl (List.length_eq_zero_iff.1 hr.length_eq.symm)
    · rintro ⟨xs, hr, -, hn, hrect, hm⟩
      obtain ⟨columns, hf, -, rfl⟩ := gathers_addColumn.run_of holds_namedColumns_nil hr hn
      exact ⟨_, hf, hrect, hm⟩

theorem width_namedColumns_pos {xs : List (String × List String)} (h : xs ≠ []) : 0 < (namedColumns xs).width := by
  cases xs with
  | nil => exact absurd rfl h
  | cons x xs => exact Nat.succ_pos _

/-- Named columns are those of their table. -/
theorem columns_namedColumns {xs : List (String × List String)} (hne : xs ≠ []) (h : (namedColumns xs).Rectangular) :
    (namedColumns xs).columns.columns = namedColumns xs ∧ ∃ header rows,
      (namedColumns xs).columns = header :: rows ∧ columnEntries header rows = xs ∧ keys xs = header := by
  have hw := width_namedColumns_pos hne
  have hcc := h.columns_columns hw
  refine ⟨hcc, ?_⟩
  cases hm : (namedColumns xs).columns with
  | nil =>
    have hl := congrArg List.length hm
    rw [Matrix.length_columns, List.length_nil] at hl
    omega
  | cons header rows =>
    rw [hm, ← namedColumns_columnEntries] at hcc
    have hxs := namedColumns_injective hcc
    refine ⟨header, rows, rfl, hxs, ?_⟩
    rw [← hxs]
    exact keys_columnEntries header rows

/-- Lines are accepted as columns exactly if they are those of a table whose names
differ. -/
theorem decodeColumnHeader_eq_ok : decodeColumnHeader lines = .ok m ↔ ∃ header rows,
    Reads readColumn? lines (columnEntries header rows) ∧ header ≠ [] ∧ header.Nodup ∧ m = header :: rows ∧
      m.Rectangular := by
  rw [decodeColumnHeader_eq_ok_columns]
  constructor
  · rintro ⟨xs, hr, hne, hn, hrect, rfl⟩
    obtain ⟨-, header, rows, hm, rfl, hkeys⟩ := columns_namedColumns hne hrect
    refine ⟨header, rows, hr, ?_, hkeys ▸ hn, hm, hrect.columns⟩
    rintro rfl
    exact hne (List.map_eq_nil_iff.1 hkeys)
  · rintro ⟨header, rows, hr, hne, hn, rfl, hrect⟩
    have hkeys := keys_columnEntries header rows
    refine ⟨_, hr, ?_, by rwa [hkeys], ?_, ?_⟩
    · intro hx
      rw [hx] at hkeys
      exact hne hkeys.symm
    · rw [namedColumns_columnEntries]
      exact hrect.columns
    · rw [namedColumns_columnEntries]
      exact hrect.columns_columns (List.length_pos_iff.2 hne)

/-! ## Rows of named cells -/

/-- The table of rows of named cells; the first row gives the header. -/
def structTable : List (List (String × String)) → Matrix
  | [] => []
  | named :: rest => named.map Prod.fst :: (named :: rest).map (·.map Prod.snd)

theorem structTable_of_names {xs : List (List (String × String))} (hne : xs ≠ [])
    (hh : ∀ named ∈ xs, keys named = header) : structTable xs = header :: xs.map (·.map Prod.snd) := by
  cases xs with
  | nil => exact absurd rfl hne
  | cons named rest => exact congrArg (· :: (named :: rest).map (·.map Prod.snd)) (hh named List.mem_cons_self)

/-- Rows of cells are told by their names and their values. -/
theorem map_values_zip {xs : List (List (String × String))} (hh : ∀ named ∈ xs, keys named = header) :
    (xs.map (·.map Prod.snd)).map header.zip = xs := by
  rw [List.map_map]
  apply map_eq_self
  intro named hm
  obtain rfl := hh named hm
  exact (List.zip_of_prod rfl rfl).symm

theorem map_zip_values (h : ∀ row ∈ rows, row.length = header.length) :
    (rows.map header.zip).map (·.map Prod.snd) = rows := by
  rw [List.map_map]
  exact map_eq_self fun row hm => List.map_snd_zip (Nat.le_of_eq (h row hm))

theorem rectangular_values {xs : List (List (String × String))} (hh : ∀ named ∈ xs, keys named = header) :
    Matrix.Rectangular (header :: xs.map (·.map Prod.snd)) := by
  rw [Matrix.rectangular_cons]
  intro row hrow
  obtain ⟨named, hm, rfl⟩ := List.mem_map.1 hrow
  simpa [keys] using congrArg List.length (hh named hm)

theorem keys_of_mem_zips (h : ∀ row ∈ rows, row.length = header.length) :
    ∀ named ∈ rows.map header.zip, keys named = header := by
  intro named hm
  obtain ⟨row, hrow, rfl⟩ := List.mem_map.1 hm
  exact Keyed.keys_zip (h row hrow)

theorem addStruct_of_entry {e : SExpr} {line : Nat} {named : List (String × String)} (h : readStruct? e = some named) :
    addStruct m (e, line) =
      match m with
      | [] => .ok [keys named, named.map Prod.snd]
      | header :: rows =>
        if header = keys named then .ok (header :: (rows ++ [named.map Prod.snd]))
        else .error (.malformed line .otherColumns) := by
  cases e with
  | list items =>
    have hitems : items.mapM (namedCell line) = .ok named :=
      (Reads.mapM_eq_ok fun _ _ => namedCell_eq_ok).2 (Reads.mapM_eq_some.1 h)
    rw [addStruct, hitems]
    rfl
  | _ => cases h

theorem exists_of_addStruct {e : SExpr} {line : Nat} {m' : Matrix} (h : addStruct m (e, line) = .ok m') :
    ∃ named, readStruct? e = some named := by
  cases e with
  | list items =>
    rw [addStruct, bind_eq_ok] at h
    obtain ⟨named, hn, -⟩ := h
    exact ⟨named, Reads.mapM_eq_some.2 ((Reads.mapM_eq_ok fun _ _ => namedCell_eq_ok).1 hn)⟩
  | _ => cases h

/-- All rows have the same names in the same order. -/
def SameNames (xs : List (List (String × String))) : Prop :=
  ∃ header, ∀ named ∈ xs, keys named = header

theorem sameNames_concat {first named : List (String × String)} {xs : List (List (String × String))} :
    SameNames (first :: xs ++ [named]) ↔ SameNames (first :: xs) ∧ keys first = keys named := by
  constructor
  · rintro ⟨header, hh⟩
    refine ⟨⟨header, fun x hm => hh x (List.mem_append_left _ hm)⟩, ?_⟩
    exact (hh first List.mem_cons_self).trans (hh named (by simp)).symm
  · rintro ⟨⟨header, hh⟩, heq⟩
    refine ⟨header, fun x hm => ?_⟩
    rcases List.mem_append.1 hm with hm | hm
    · exact hh x hm
    · rw [List.mem_singleton.1 hm, ← heq]
      exact hh first List.mem_cons_self

/-- Rows of cells under the same names. -/
structure HoldsStruct (xs : List (List (String × String))) (m : Matrix) : Prop where
  names : SameNames xs
  table : m = structTable xs

theorem gathers_addStruct : GathersLines readStruct? addStruct SameNames HoldsStruct where
  shorter {xs x} h := by
    obtain ⟨header, hh⟩ := h
    exact ⟨header, fun named hm => hh named (List.mem_append_left _ hm)⟩
  reads {xs m m' a} h hs := by
    obtain ⟨e, line⟩ := a
    obtain ⟨named, hx⟩ := exists_of_addStruct hs
    rw [addStruct_of_entry hx, h.table] at hs
    cases xs with
    | nil =>
      cases hs
      -- The first row brings the names that all others have to bring.
      have hnames : SameNames [named] := ⟨_, List.forall_mem_singleton.2 rfl⟩
      exact ⟨named, hx, hnames, hnames, rfl⟩
    | cons first xs =>
      simp only [structTable] at hs
      split at hs
      · rename_i heq
        cases hs
        have hnames : SameNames (first :: xs ++ [named]) := sameNames_concat.2 ⟨h.names, heq⟩
        exact ⟨named, hx, hnames, hnames, by simp [structTable]⟩
      · cases hs
  accepts {xs m a named} h hx hg := by
    obtain ⟨e, line⟩ := a
    rw [addStruct_of_entry hx, h.table]
    cases xs with
    | nil => exact ⟨_, rfl⟩
    | cons first xs =>
      have heq : first.map Prod.fst = keys named := (sameNames_concat.1 hg).2
      simp only [structTable, if_pos heq]
      exact ⟨_, rfl⟩

theorem holdsStruct_nil : HoldsStruct [] [] := ⟨⟨[], nofun⟩, rfl⟩

/-- Lines are accepted as rows of named cells exactly if they are those of a table that
has a row. -/
theorem decodeStruct_eq_ok : decodeStruct lines = .ok m ↔ ∃ header rows,
    Reads readStruct? lines (rows.map header.zip) ∧ rows ≠ [] ∧ m = header :: rows ∧ m.Rectangular := by
  rw [decodeStruct, bind_eq_ok]
  constructor
  · rintro ⟨t, hf, hm⟩
    obtain ⟨xs, hr, -, hh⟩ := gathers_addStruct.run holdsStruct_nil ⟨[], nofun⟩ hf
    obtain ⟨header, hnames⟩ := hh.names
    have hne : xs ≠ [] := by
      rintro rfl
      rw [hh.table] at hm
      cases hm
    rw [hh.table, structTable_of_names hne hnames] at hm
    cases hm
    refine ⟨header, xs.map (·.map Prod.snd), ?_, by simpa using hne, rfl, rectangular_values hnames⟩
    rwa [map_values_zip hnames]
  · rintro ⟨header, rows, hr, hne, rfl, hrect⟩
    rw [Matrix.rectangular_cons] at hrect
    have hnames := keys_of_mem_zips hrect
    obtain ⟨t, hf, hh⟩ := gathers_addStruct.run_of holdsStruct_nil hr ⟨header, hnames⟩
    refine ⟨t, hf, ?_⟩
    rw [hh.table, structTable_of_names (by simpa using hne) hnames, map_zip_values hrect]
    rfl

end AtomLines.Table
