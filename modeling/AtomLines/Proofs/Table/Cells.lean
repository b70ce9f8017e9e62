import AtomLines.Proofs.Table.Entry
import AtomLines.Proofs.Table.Gather
import AtomLines.Proofs.Table.Indexed
import AtomLines.Proofs.Table.Shape
/-!
# Cells under row and column

Lines of single cells are accepted exactly if they are, in some order, all cells of a
rectangular table without empty rows.
-/

namespace AtomLines.Table

open Keyed (placed Ascending keys ungrouped address)

variable {lines : List SExpr} {m : Matrix} {xs : List (Nat × Nat × String)} {rows : Indexed (Indexed String)}

/-- The cells of a table with their rows and columns. -/
def cellEntries (m : Matrix) : List (Nat × Nat × String) :=
  ungrouped (placed 0 (m.map (placed 0)))

theorem nodup_cellEntries (m : Matrix) : ((cellEntries m).map address).Nodup := by
  apply Keyed.nodup_addresses (Keyed.ascending_placed _ _).nodup
  intro e he
  obtain ⟨row, -, hrow⟩ := List.mem_map.1 (Keyed.mem_of_mem_placed he)
  rw [← hrow]
  exact (Keyed.ascending_placed 0 row).nodup

/-! ## Stored cells -/

/-- Stored rows are ascending and not empty. -/
def SoundRow (row : Indexed String) : Prop :=
  Ascending row ∧ row ≠ []

abbrev HoldsCells := Indexed.Groups Indexed.entries SoundRow

theorem SoundRow.entries_ne_nil {row : Indexed String} (h : SoundRow row) : row.entries ≠ [] := by
  unfold Indexed.entries
  simp [h.2]

theorem HoldsCells.nodup (h : HoldsCells xs rows) :
    (xs.map address).Nodup := by
  rw [← (h.perm.map address).nodup_iff]
  apply Keyed.nodup_addresses h.groups_ascending.nodup
  intro e he
  obtain ⟨e', he', rfl⟩ := List.mem_map.1 he
  obtain ⟨e'', he'', rfl⟩ := List.mem_map.1 he'
  rw [Indexed.keys_entries]
  exact (h.sound e'' he'').1.nodup

theorem addCell_eq_ok {rows' : Indexed (Indexed String)} {e : SExpr} {line : Nat} :
    addCell rows (e, line) = .ok rows' ↔ ∃ r c value row, readCell? e = some (r, c, value) ∧
      Indexed.insert c line value (Indexed.groupAt [] r line rows) = .ok row ∧
      Keyed.putIndex r (((Keyed.get? r rows).getD (line, [])).1, row) rows = rows' := by
  simp only [addCell, bind_eq_ok, Prod.exists, equalityParts_eq_ok, index_eq_ok, readCell?_eq_some, Indexed.groupAt]
  constructor
  · rintro ⟨a, b, value, he, r, hr, c, hc, row, hrow, h⟩
    cases h
    exact ⟨r, c, value, row, ⟨a, b, he, hr, hc⟩, hrow, rfl⟩
  · rintro ⟨r, c, value, row, ⟨a, b, he, hr, hc⟩, hrow, rfl⟩
    exact ⟨a, b, value, he, r, hr, c, hc, row, hrow, rfl⟩

/-- The row under an index holds what was given under it. -/
theorem HoldsCells.rowAt (h : HoldsCells xs rows) (r line : Nat) :
    Indexed.Holds (Keyed.under r xs) (Indexed.groupAt [] r line rows) where
  ascending := h.of_groupAt .nil (fun _ hs => hs.1) r line
  perm := h.groupAt_perm rfl r line

theorem gathers_addCell : GathersLines readCell? addCell (fun xs => (xs.map address).Nodup) HoldsCells where
  shorter h := (nodup_map_concat.1 h).1
  reads {xs rows rows' a} h hs := by
    obtain ⟨e, line⟩ := a
    obtain ⟨r, c, value, row, hx, hrow, rfl⟩ := addCell_eq_ok.1 hs
    obtain ⟨hn, hh⟩ := (h.rowAt r line).insert hrow
    have hsound : SoundRow row := by
      refine ⟨hh.ascending, ?_⟩
      rintro rfl
      exact absurd hh.perm.length_eq (by simp [Indexed.entries])
    refine ⟨(r, c, value), hx, ?_, ?_⟩
    · exact nodup_map_concat.2 ⟨h.nodup, fun hm => hn (Keyed.mem_addresses.1 hm)⟩
    · have hvacant : Indexed.entries ([] : Indexed String) = [] := rfl
      apply h.store hvacant hsound
      exact hh.perm.trans ((h.rowAt r line).perm.symm.append_right _)
  accepts {xs rows a x} h hx hg := by
    obtain ⟨e, line⟩ := a
    obtain ⟨r, c, value⟩ := x
    have hc : c ∉ keys (Keyed.under r xs) := fun hm => (nodup_map_concat.1 hg).2 (Keyed.mem_addresses.2 hm)
    obtain ⟨row, hrow⟩ := (h.rowAt r line).insert_of_notMem hc line value
    exact ⟨_, addCell_eq_ok.2 ⟨r, c, value, row, hx, hrow, rfl⟩⟩

/-! ## Whole tables -/

/-- Rows are lists of cells exactly if they hold these cells at their places. -/
theorem mapM_toList_eq_ok {rs : List (Indexed String)} :
    rs.mapM Indexed.toList = .ok m ↔ rs.map Indexed.entries = m.map (placed 0) := by
  induction rs generalizing m with
  | nil =>
    rw [List.map_nil, List.nil_eq, List.map_eq_nil_iff]
    show Except.ok [] = Except.ok m ↔ _
    rw [Except.ok.injEq, List.nil_eq]
  | cons r rs ih =>
    rw [List.map_cons]
    constructor
    · intro h
      obtain ⟨row, rest, hrow, hrest, rfl⟩ := mapM_cons_eq_ok h
      rw [List.map_cons, Indexed.toList_eq_ok.1 hrow, ih.1 hrest]
    · intro h
      cases m with
      | nil => cases h
      | cons row rest =>
        obtain ⟨hrow, hrest⟩ := List.cons.inj h
        rw [List.mapM_cons, Indexed.toList_eq_ok.2 hrow, ih.2 hrest]
        rfl

/-- Lines are accepted as cells exactly if their entries are the cells of a rectangular
table that has no empty row, in any order. -/
theorem decodeCell_eq_ok : decodeCell lines = .ok m ↔
    ∃ xs, Reads readCell? lines xs ∧ xs.Perm (cellEntries m) ∧ [] ∉ m ∧ m.Rectangular := by
  simp only [decodeCell, bind_eq_ok, rectangular_eq_ok]
  constructor
  · rintro ⟨rows, hf, rs, hrs, _, hm, hrect, rfl⟩
    obtain ⟨xs, hr, -, hh⟩ := gathers_addCell.run .empty List.nodup_nil hf
    obtain ⟨hp, hsound⟩ := hh.perm_of_toList hrs
    rw [mapM_toList_eq_ok.1 hm] at hp
    refine ⟨xs, hr, hp, ?_, hrect⟩
    intro hnil
    have hmem : [] ∈ rs.map Indexed.entries := by
      rw [mapM_toList_eq_ok.1 hm]
      exact List.mem_map.2 ⟨[], hnil, rfl⟩
    obtain ⟨row, hrow, he⟩ := List.mem_map.1 hmem
    exact (hsound row hrow).entries_ne_nil he
  · rintro ⟨xs, hr, hp, hnil, hrect⟩
    -- The entries of a table have different addresses, in whatever order they come.
    have hg : (xs.map address).Nodup := (hp.map address).nodup_iff.2 (nodup_cellEntries m)
    obtain ⟨rows, hf, hh⟩ := gathers_addCell.run_of .empty hr hg
    have hne : ∀ row ∈ m.map (placed 0), row ≠ [] := by
      rintro _ hrow rfl
      obtain ⟨row, hm, hempty⟩ := List.mem_map.1 hrow
      rw [Keyed.placed_eq_nil] at hempty
      exact hnil (hempty ▸ hm)
    obtain ⟨rs, hrs, hsound, hf₂⟩ := hh.toList_of_perm (fun _ hs => hs.entries_ne_nil) hne hp
    refine ⟨rows, hf, rs, hrs, m, mapM_toList_eq_ok.2 (Ascending.eq_of_forall₂_perm hf₂ ?_ ?_), hrect, rfl⟩
    · intro row hrow
      obtain ⟨r, hr, rfl⟩ := List.mem_map.1 hrow
      rw [Ascending, Indexed.keys_entries]
      exact (hsound r hr).1
    · intro row hrow
      obtain ⟨row, -, rfl⟩ := List.mem_map.1 hrow
      exact Keyed.ascending_placed 0 row

end AtomLines.Table
