import AtomLines.Proofs.Table.Entry
import AtomLines.Proofs.Table.Gather
import AtomLines.Proofs.Table.Indexed
import AtomLines.Proofs.Table.Shape
/-!
# Rows and columns under indices

Lines are accepted as a table exactly if their entries are, in some order, the rows of
the table, its columns, or its header and the rows below it.
-/

namespace AtomLines.Table

open Keyed (placed Ascending keys)

/-! ## Rows and columns -/

variable {lines : List SExpr} {m : Matrix} {e : SExpr} {line : Nat}

theorem addRow_eq_ok {rows rows' : Indexed (List String)} : addRow rows (e, line) = .ok rows' ↔
    ∃ i row, readIndexed? e = some (i, row) ∧ rows.insert i line row = .ok rows' := by
  simp only [addRow, bind_eq_ok, Prod.exists, pair_eq_ok, index_eq_ok, cells_eq_ok, readIndexed?_eq_some]
  constructor
  · rintro ⟨a, b, rfl, i, hi, row, hr, h⟩
    exact ⟨i, row, ⟨a, b, rfl, hi, hr⟩, h⟩
  · rintro ⟨i, row, ⟨a, b, rfl, hi, hr⟩, h⟩
    exact ⟨a, b, rfl, i, hi, row, hr, h⟩

theorem gathers_addRow : GathersLines readIndexed? addRow (fun xs => (keys xs).Nodup) Indexed.Holds where
  shorter h := (nodup_map_concat.1 h).1
  reads h hs := by
    obtain ⟨i, row, hx, hi⟩ := addRow_eq_ok.1 hs
    obtain ⟨hn, hh⟩ := h.insert hi
    exact ⟨(i, row), hx, nodup_map_concat.2 ⟨h.nodup, hn⟩, hh⟩
  accepts {_ _ a x} h hx hg := by
    obtain ⟨rows', hi⟩ := h.insert_of_notMem (nodup_map_concat.1 hg).2 a.2 x.2
    exact ⟨rows', addRow_eq_ok.2 ⟨x.1, x.2, hx, hi⟩⟩

theorem indexedCells_eq_ok :
    indexedCells lines = .ok m ↔ ∃ xs, Reads readIndexed? lines xs ∧ xs.Perm (placed 0 m) := by
  rw [indexedCells, bind_eq_ok]
  constructor
  · rintro ⟨rows, hf, hm⟩
    obtain ⟨xs, hr, -, hh⟩ := gathers_addRow.run .empty List.nodup_nil hf
    exact ⟨xs, hr, hh.toList_eq_ok.1 hm⟩
  · rintro ⟨xs, hr, hp⟩
    have hg : (keys xs).Nodup := (hp.map Prod.fst).nodup_iff.2 (Keyed.ascending_placed 0 m).nodup
    obtain ⟨rows, hf, hh⟩ := gathers_addRow.run_of .empty hr hg
    exact ⟨rows, hf, hh.toList_eq_ok.2 hp⟩

/-- Lines are accepted as rows exactly if their entries are the rows of a rectangular
table, in any order. -/
theorem decodeRow_eq_ok : decodeRow lines = .ok m ↔
    ∃ xs, Reads readIndexed? lines xs ∧ xs.Perm (placed 0 m) ∧ m.Rectangular := by
  simp only [decodeRow, bind_eq_ok, rectangular_eq_ok, indexedCells_eq_ok]
  constructor
  · rintro ⟨_, ⟨xs, hr, hp⟩, hm, rfl⟩
    exact ⟨xs, hr, hp, hm⟩
  · rintro ⟨xs, hr, hp, hm⟩
    exact ⟨m, ⟨xs, hr, hp⟩, hm, rfl⟩

theorem decodeColumn_eq_ok : decodeColumn lines = .ok m ↔
    ∃ (xs : List (Nat × List String)) (columns : Matrix), Reads readIndexed? lines xs ∧ xs.Perm (placed 0 columns) ∧
      columns.Rectangular ∧ columns.columns = m := by
  simp only [decodeColumn, bind_eq_ok, ofColumns_eq_ok, indexedCells_eq_ok]
  constructor
  · rintro ⟨columns, ⟨xs, hr, hp⟩, hc, hm⟩
    exact ⟨xs, columns, hr, hp, hc, hm⟩
  · rintro ⟨xs, columns, hr, hp, hc, hm⟩
    exact ⟨columns, ⟨xs, hr, hp⟩, hc, hm⟩

/-! ## Rows under a header -/

/-- Rows with their indices, as entries of a table that may have a header too. -/
def belowHeader (rows : List (Nat × List String)) : List (Option Nat × List String) :=
  rows.map fun (i, row) => (some i, row)

/-- The entries of a header and of the rows below it. -/
def headerRowEntries (header : List String) (rows : Matrix) : List (Option Nat × List String) :=
  (none, header) :: belowHeader (placed 0 rows)

namespace HeaderRows

variable {t t' : HeaderRows} {xs : List (Option Nat × List String)}

theorem add_eq_ok : t.add (e, line) = .ok t' ↔
    (∃ row, readHeaderRow? e = some (none, row) ∧ t.header = none ∧ { t with header := some row } = t') ∨
    (∃ i row rows, readHeaderRow? e = some (some i, row) ∧ t.rows.insert i line row = .ok rows ∧
      { t with rows } = t') := by
  simp only [add, bind_eq_ok, Prod.exists, pair_eq_ok, cells_eq_ok, readHeaderRow?_eq_some]
  constructor
  · rintro ⟨a, b, rfl, row, hr, h⟩
    split at h
    · rename_i ha
      split at h
      · cases h
      · rename_i hs
        cases h
        exact .inl ⟨row, ⟨a, b, rfl, hr, by simp [ha]⟩, by simpa using hs, rfl⟩
    · rename_i ha
      simp only [bind_eq_ok, index_eq_ok] at h
      obtain ⟨i, hi, rows, hins, h⟩ := h
      cases h
      exact .inr ⟨i, row, rows, ⟨a, b, rfl, hr, by simp [ha, hi]⟩, hins, rfl⟩
  · rintro (⟨row, ⟨a, b, rfl, hr, hp⟩, hn, rfl⟩ | ⟨i, row, rows, ⟨a, b, rfl, hr, hp⟩, hins, rfl⟩)
    · refine ⟨a, b, rfl, row, hr, ?_⟩
      split at hp
      · simp [*]
        rfl
      · simp at hp
    · refine ⟨a, b, rfl, row, hr, ?_⟩
      split at hp
      · cases hp
      · obtain ⟨j, hj, hij⟩ := hp
        cases hij
        simp only [*, if_false, bind_eq_ok, index_eq_ok]
        exact ⟨i, rfl, rows, hins, rfl⟩

/-- The header and the rows that were met are the given entries. -/
structure Holds (xs : List (Option Nat × List String)) (t : HeaderRows) : Prop where
  entries : ∃ ys, Indexed.Holds ys t.rows ∧ (t.header.toList.map (none, ·) ++ belowHeader ys).Perm xs

theorem keys_belowHeader (ys : List (Nat × List String)) : keys (belowHeader ys) = (keys ys).map some := by
  simp [belowHeader, keys]

theorem nodup_keys {ys : List (Nat × List String)} (h : (keys ys).Nodup) (header : Option (List String)) :
    (keys (header.toList.map (none, ·) ++ belowHeader ys)).Nodup := by
  have hs : ((keys ys).map some).Nodup := h.map fun _ _ => Option.some.inj
  rw [Keyed.keys_append, keys_belowHeader]
  cases header with
  | none => exact hs
  | some row => exact List.nodup_cons.2 ⟨by simp, hs⟩

theorem Holds.nodup (h : Holds xs t) : (keys xs).Nodup := by
  obtain ⟨ys, hys, hp⟩ := h.entries
  exact (hp.map Prod.fst).nodup_iff.1 (nodup_keys hys.nodup t.header)

namespace Holds

/-- The header that is met takes its place. -/
theorem withHeader (h : Holds xs t) (hn : t.header = none) (row : List String) :
    Holds (xs ++ [(none, row)]) { t with header := some row } := by
  obtain ⟨ys, hys, hp⟩ := h.entries
  refine ⟨ys, hys, ?_⟩
  rw [hn] at hp
  exact (hp.cons _).trans (List.perm_append_singleton _ _).symm

theorem withRow (h : Holds xs t) {i line : Nat} {row : List String} {rows : Indexed (List String)}
    (hins : Indexed.insert i line row t.rows = .ok rows) : Holds (xs ++ [(some i, row)]) { t with rows } := by
  obtain ⟨ys, hys, hp⟩ := h.entries
  refine ⟨_, (hys.insert hins).2, ?_⟩
  rw [belowHeader, List.map_append, ← List.append_assoc]
  exact hp.append_right _

theorem header_eq_none (h : Holds xs t) (hn : none ∉ keys xs) : t.header = none := by
  obtain ⟨ys, -, hp⟩ := h.entries
  cases hh : t.header with
  | none => rfl
  | some header =>
    rw [hh] at hp
    exact absurd (List.mem_map_of_mem (f := Prod.fst) (hp.mem_iff.1 List.mem_cons_self)) hn

theorem insert_of_notMem (h : Holds xs t) {i : Nat} (hn : some i ∉ keys xs) (line : Nat) (row : List String) :
    ∃ rows, Indexed.insert i line row t.rows = .ok rows := by
  obtain ⟨ys, hys, hp⟩ := h.entries
  refine hys.insert_of_notMem (fun hm => hn ?_) line row
  have hk : some i ∈ keys (belowHeader ys) := by
    rw [keys_belowHeader]
    exact List.mem_map_of_mem hm
  refine (hp.map Prod.fst).mem_iff.1 ?_
  rw [List.map_append]
  exact List.mem_append_right _ hk

end Holds

theorem gathers_add : GathersLines readHeaderRow? add (fun xs => (keys xs).Nodup) Holds where
  shorter h := (nodup_map_concat.1 h).1
  reads {xs t t' a} h hs := by
    obtain ⟨e, line⟩ := a
    rcases add_eq_ok.1 hs with ⟨row, hx, hn, rfl⟩ | ⟨i, row, rows, hx, hins, rfl⟩
    · have hh := h.withHeader hn row
      exact ⟨_, hx, hh.nodup, hh⟩
    · have hh := h.withRow hins
      exact ⟨_, hx, hh.nodup, hh⟩
  accepts {xs t a x} h hx hg := by
    obtain ⟨e, line⟩ := a
    obtain ⟨place, row⟩ := x
    have hnew := (nodup_map_concat.1 hg).2
    cases place with
    | none => exact ⟨_, add_eq_ok.2 (.inl ⟨row, hx, h.header_eq_none hnew, rfl⟩)⟩
    | some i =>
      obtain ⟨rows, hins⟩ := h.insert_of_notMem hnew line row
      exact ⟨_, add_eq_ok.2 (.inr ⟨i, row, rows, hx, hins, rfl⟩)⟩

theorem holds_empty : Holds [] ⟨none, []⟩ := ⟨[], .empty, .refl _⟩

/-- Entries of a header and rows tell the header and the rows. -/
theorem of_perm {ys zs : List (Nat × List String)} {found : Option (List String)} {header : List String}
    (hp : (found.toList.map (none, ·) ++ belowHeader ys).Perm ((none, header) :: belowHeader zs)) :
    found = some header ∧ ys.Perm zs := by
  have hbelow : ∀ ws : List (Nat × List String), Keyed.under none (belowHeader ws) = [] := by
    intro ws
    apply Keyed.under_eq_nil
    intro e he
    obtain ⟨w, -, rfl⟩ := List.mem_map.1 he
    exact Option.some_ne_none _
  have hrows : ∀ ws : List (Nat × List String), (belowHeader ws).filterMap (fun p => p.1.map (·, p.2)) = ws := by
    intro ws
    simp [belowHeader, List.filterMap_map]
  have hfound : (Keyed.under none (found.toList.map (none, ·) ++ belowHeader ys)).Perm
      (Keyed.under none ([header].map (none, ·) ++ belowHeader zs)) := hp.filterMap _
  rw [Keyed.under_append, Keyed.under_append, Keyed.under_map_self, Keyed.under_map_self, hbelow, hbelow,
    List.append_nil, List.append_nil] at hfound
  constructor
  · cases found with
    | none => exact absurd hfound.length_eq (by simp)
    | some row => rw [List.singleton_perm_singleton.1 hfound]
  · have h := hp.filterMap fun p => p.1.map (·, p.2)
    rw [List.filterMap_append, List.filterMap_cons, hrows, hrows] at h
    cases found <;> exact h

end HeaderRows

theorem decodeHeaderRow_eq_ok : decodeHeaderRow lines = .ok m ↔ ∃ xs header rows,
    Reads readHeaderRow? lines xs ∧ xs.Perm (headerRowEntries header rows) ∧ m = header :: rows ∧ m.Rectangular := by
  rw [decodeHeaderRow, bind_eq_ok]
  constructor
  · rintro ⟨t, hf, hm⟩
    obtain ⟨xs, hr, -, hh⟩ := HeaderRows.gathers_add.run HeaderRows.holds_empty List.nodup_nil hf
    obtain ⟨ys, hys, hp⟩ := hh.entries
    cases hheader : t.header with
    | none => simp [hheader] at hm
    | some header =>
      simp only [hheader, bind_eq_ok, rectangular_eq_ok] at hm
      obtain ⟨rows, hrows, hrect, rfl⟩ := hm
      rw [hheader] at hp
      refine ⟨xs, header, rows, hr, hp.symm.trans ?_, rfl, hrect⟩
      exact ((hys.toList_eq_ok.1 hrows).map _).cons _
  · rintro ⟨xs, header, rows, hr, hp, rfl, hrect⟩
    have hg : (keys xs).Nodup := (hp.map Prod.fst).nodup_iff.2
      (HeaderRows.nodup_keys (Keyed.ascending_placed 0 rows).nodup (some header))
    obtain ⟨t, hf, hh⟩ := HeaderRows.gathers_add.run_of HeaderRows.holds_empty hr hg
    obtain ⟨ys, hys, hp'⟩ := hh.entries
    obtain ⟨hheader, hrows⟩ := HeaderRows.of_perm (hp'.trans hp)
    refine ⟨t, hf, ?_⟩
    simp only [hheader, bind_eq_ok, rectangular_eq_ok]
    exact ⟨rows, hys.toList_eq_ok.2 hrows, hrect, rfl⟩

end AtomLines.Table
