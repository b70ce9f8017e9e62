import AtomLines.Proofs.Table.Cells
import AtomLines.Proofs.Table.Labeled
import AtomLines.Proofs.Table.Named
import AtomLines.Proofs.Table.Rows
/-!
# Written tables

The lines of a table are its entries, each written as a line, and every such line comes
back unchanged from its text.
-/

namespace AtomLines.Table

open Keyed (placed keys ungrouped)
open SExpr (Faithful)

/-! ## Lines come back -/

section Faithful
variable {i : Nat}

theorem faithful_cellList (row : List String) : (cellList row).Faithful := by
  apply Faithful.list
  intro e he
  obtain ⟨s, -, rfl⟩ := List.mem_map.1 he
  exact .string s

theorem faithful_pair {a b : SExpr} (ha : a.Faithful) (hb : b.Faithful) : (SExpr.list [a, b]).Faithful :=
  .list (by simp [ha, hb])

theorem faithful_triple {a b c : SExpr} (ha : a.Faithful) (hb : b.Faithful) (hc : c.Faithful) :
    (SExpr.list [a, b, c]).Faithful :=
  .list (by simp [ha, hb, hc])

theorem faithful_rowLine (i : Nat) (row : List String) : (rowLine i row).Faithful :=
  faithful_pair (.ofIndex i) (faithful_cellList row)

theorem faithful_headerLine (row : List String) : (headerLine row).Faithful :=
  faithful_pair (.symbol (by decide) (by decide)) (faithful_cellList row)

theorem faithful_columnLine (name : String) (column : List String) : (columnLine name column).Faithful :=
  faithful_pair (.string name) (faithful_cellList column)

theorem faithful_namedLine (named : List (String × String)) : (namedLine named).Faithful := by
  apply Faithful.list
  intro e he
  obtain ⟨⟨name, value⟩, -, rfl⟩ := List.mem_map.1 he
  exact faithful_cellList [name, value]

theorem faithful_fieldLine (i : Nat) (name value : String) : (fieldLine i name value).Faithful :=
  faithful_triple (.ofIndex i) (.string name) (.string value)

theorem faithful_equality {address : SExpr} (h : address.Faithful) (value : String) : (equality address value).Faithful :=
  faithful_triple (.symbol (by decide) (by decide)) (faithful_pair (.symbol (by decide) (by decide)) h) (.string value)

theorem faithful_functionLine (i : Nat) (name value : String) : (functionLine i name value).Faithful :=
  faithful_equality (faithful_pair (.string name) (.ofIndex i)) value

theorem faithful_cellLine (r c : Nat) (value : String) : (cellLine r c value).Faithful :=
  faithful_equality (faithful_pair (.ofIndex r) (.ofIndex c)) value

end Faithful

/-! ## Lines are entries -/

theorem rowLines_eq (next : Nat) (m : Matrix) : rowLines next m = (placed next m).map fun e => rowLine e.1 e.2 := by
  induction m generalizing next with
  | nil => rfl
  | cons row m ih => rw [rowLines, ih, Keyed.placed_cons, List.map_cons]

theorem columnLines_eq (m : Matrix) : columnLines m = (placed 0 m.columns).map fun e => rowLine e.1 e.2 := by
  rw [Matrix.columns, Keyed.placed_map, Keyed.placed_range, columnLines, List.map_map, List.map_map]
  rfl

theorem columnHeaderLines_eq (header : List String) (rows : Matrix) :
    columnHeaderLines header rows = (columnEntries header rows).map fun e => columnLine e.1 e.2 := by
  rw [columnHeaderLines, columnEntries, List.map_map]
  rfl

theorem structLines_eq (header : List String) (rows : Matrix) :
    rows.map (structLine header) = (rows.map header.zip).map namedLine := by
  rw [List.map_map]
  rfl

theorem map_ungrouped_placed {α β γ : Type} (as : List α) (g : α → List β) (f : Nat × β → γ) :
    (ungrouped (placed 0 (as.map g))).map f = as.zipIdx.flatMap fun (a, i) => (g a).map fun b => f (i, b) := by
  rw [Keyed.placed_map, ungrouped, List.map_flatMap, placed, List.flatMap_map, List.flatMap_map]
  simp only [List.map_map]
  rfl

theorem labeledLines_eq (line : Nat → String → String → SExpr) (header : List String) (rows : Matrix) :
    labeledLines line header rows = (labeledEntries header rows).map fun e => line e.1 e.2.1 e.2.2 :=
  (map_ungrouped_placed rows header.zip fun e => line e.1 e.2.1 e.2.2).symm

theorem cellLines_eq (m : Matrix) : cellLines m = (cellEntries m).map fun e => cellLine e.1 e.2.1 e.2.2 := by
  rw [cellEntries, map_ungrouped_placed, cellLines]
  simp only [placed, List.map_map]
  rfl

theorem encode_of_not (layout : Layout) {m : Matrix} (h : ¬ m.Rectangular) :
    ∃ before row after, m = before ++ row :: after ∧ (∀ r ∈ before, r.length = m.width) ∧ row.length ≠ m.width ∧
      encode layout m = .error (.ragged before.length m.width row.length) := by
  obtain ⟨before, row, after, hm, hb, hl, he⟩ := Matrix.checkRectangular_of_not h
  refine ⟨before, row, after, hm, hb, hl, ?_⟩
  unfold encode
  rw [he]
  rfl

/-- A rectangular table without the header that its layout needs. -/
theorem encode_nil {layout : Layout} (h : layout.usesHeader = true) : encode layout [] = .error .missingHeader := by
  cases layout <;> first | rfl | cases h

end AtomLines.Table
