import AtomLines.Proofs.Table.Format
/-!
# Accepted lines are rearranged written lines

Whatever lines are accepted as a table, the table can be written again, its lines give
the same table, and they are the accepted lines respelled, in an order the layout does
not see. So no cell of an accepted line is lost, doubled or overwritten.
-/

namespace AtomLines.Table

variable {layout : Layout} {lines : List SExpr} {m : Matrix}

namespace Format

/-- A table that was accepted from entries is accepted from those it has itself. -/
theorem reads_entries (F : Format layout) {xs : List F.Entry} (hr : Reads F.read? lines xs) (hm : F.Makes xs m) :
    Reads F.read? ((F.entries m).map F.write) (F.entries m) := by
  apply Reads.of_write
  intro x hx
  obtain ⟨e, -, he⟩ := hr.exists_of_mem (F.mem_of_makes hm hx)
  exact F.reread he

theorem rearranged (F : Format layout) (h : decode layout lines = .ok m) :
    m.Rectangular ∧ ∃ written, encode layout m = .ok written ∧ decode layout written = .ok m ∧
      layout.Rearranges m written (lines.map layout.respell) := by
  obtain ⟨xs, hr, hm⟩ := F.decode_eq_ok.1 h
  obtain ⟨hrect, hheader, hkeeps⟩ := F.of_makes hm
  refine ⟨hrect, _, F.encode_eq hrect hheader, ?_, ?_⟩
  · exact F.decode_eq_ok.2 ⟨_, F.reads_entries hr hm, F.makes_entries hrect hheader hkeeps⟩
  · rw [hr.map_eq F.respell]
    exact F.rearranges hm

end Format

/-- The table of accepted lines is rectangular and written again by the same layout, as
lines that give the same table and are the accepted ones respelled, up to their order. -/
theorem accepted_rearranged (layout : Layout) (lines : List SExpr) (m : Matrix) (h : decode layout lines = .ok m) :
    m.Rectangular ∧ ∃ written, encode layout m = .ok written ∧ decode layout written = .ok m ∧
      layout.Rearranges m written (lines.map layout.respell) :=
  layout.format.rearranged h

/-- Cells in another order, their texts and indices spelled in several ways. -/
def oddCells : List SExpr :=
  [.list [.symbol "=", .list [.symbol "value", .list [.number "00", .number "1"]], .symbol "b"],
    .list [.symbol "=", .list [.symbol "value", .list [.number "+0", .number "0"]], .number "2"]]

theorem accepted_rearranged_oddCells : decode .cell oddCells = .ok [["2", "b"]] ∧
    ∃ written, encode .cell [["2", "b"]] = .ok written ∧ decode .cell written = .ok [["2", "b"]] ∧
      written.Perm [cellLine 0 1 "b", cellLine 0 0 "2"] := by
  have hd : decode .cell oddCells = .ok [["2", "b"]] := by decide +kernel
  obtain ⟨-, written, he, hw, hp⟩ := accepted_rearranged .cell oddCells _ hd
  have hrespell : oddCells.map Layout.cell.respell = [cellLine 0 1 "b", cellLine 0 0 "2"] := by decide +kernel
  rw [hrespell] at hp
  exact ⟨hd, written, he, hw, hp⟩

end AtomLines.Table
