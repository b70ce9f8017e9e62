import AtomLines.Proofs.Table.Entry
import AtomLines.Proofs.Table.Gather
import AtomLines.Proofs.Table.Indexed
import AtomLines.Proofs.Table.Shape
/-!
# Cells under row and name

Two layouts give each cell with its row and the name of its column. Lines are accepted
exactly if they are, in some order, all cells of the rows below a header, and the header
is the names in the order of their first use.
-/

namespace AtomLines.Table

open Keyed (placed Ascending keys ungrouped address)

variable {header row : List String} {rows m : Matrix} {known : List (String × String)}
  {xs : List (Nat × String × String)} {lines : List SExpr}

/-- The cells of the rows below a header, with their rows and names. -/
def labeledEntries (header : List String) (rows : Matrix) : List (Nat × String × String) :=
  ungrouped (placed 0 (rows.map header.zip))

/-- The names in the order of their first use. -/
def namesOf (xs : List (Nat × String × String)) : List String :=
  (xs.map (·.2.1)).eraseDups

theorem mem_namesOf {name : String} : name ∈ namesOf xs ↔ ∃ e ∈ xs, e.2.1 = name := by
  rw [namesOf, List.mem_eraseDups, List.mem_map]

theorem nodup_namesOf (xs : List (Nat × String × String)) : (namesOf xs).Nodup := nodup_eraseDups _

theorem namesOf_eq_nil : namesOf xs = [] ↔ xs = [] := by
  rw [namesOf, eraseDups_eq_nil, List.map_eq_nil_iff]

/-- The names in a group are among all names. -/
theorem mem_namesOf_of_group {rs : List (List (String × String))} (hp : xs.Perm (ungrouped (placed 0 rs)))
    (hk : known ∈ rs) : ∀ name ∈ keys known, name ∈ namesOf xs := by
  intro name hn
  rw [← Keyed.map_snd_placed 0 rs] at hk
  obtain ⟨e, he, rfl⟩ := List.mem_map.1 hk
  obtain ⟨e', he', rfl⟩ := List.mem_map.1 hn
  exact mem_namesOf.2 ⟨(e.1, e'), hp.mem_iff.2 (Keyed.mem_ungrouped.2 ⟨_, he, he'⟩), rfl⟩

/-! ## Rows by name -/

theorem mem_zip_of_reads (h : Reads (Keyed.get? · known) header row) {name value : String} :
    (name, value) ∈ header.zip row ↔ name ∈ header ∧ Keyed.get? name known = some value := by
  induction header generalizing row with
  | nil => simp
  | cons n header ih =>
    obtain ⟨v, rest, hv, hr, rfl⟩ := Reads.cons_iff.1 h
    rw [List.zip_cons_cons, List.mem_cons, List.mem_cons, ih hr, Prod.mk.injEq]
    constructor
    · rintro (⟨rfl, rfl⟩ | ⟨hm, hg⟩)
      · exact ⟨.inl rfl, hv⟩
      · exact ⟨.inr hm, hg⟩
    · rintro ⟨rfl | hm, hg⟩
      · rw [hv, Option.some.injEq] at hg
        exact .inl ⟨rfl, hg.symm⟩
      · exact .inr ⟨hm, hg⟩

/-- A row is read from cells under the names of a header exactly if these are its cells
in some order. -/
theorem reads_row (hh : header.Nodup) (hk : (keys known).Nodup) (hsub : ∀ name ∈ keys known, name ∈ header) :
    Reads (Keyed.get? · known) header row ↔ known.Perm (header.zip row) ∧ row.length = header.length := by
  constructor
  · intro h
    have hz : (keys (header.zip row)).Nodup := by rwa [Keyed.keys_zip h.length_eq]
    refine ⟨(List.perm_ext_iff_of_nodup hk.of_map hz.of_map).2 ?_, h.length_eq⟩
    rintro ⟨name, value⟩
    rw [mem_zip_of_reads h, Keyed.get?_eq_some hk]
    constructor
    · exact fun hm => ⟨hsub name (List.mem_map_of_mem hm), hm⟩
    · exact And.right
  · rintro ⟨hp, hl⟩
    have hkeys : (header.zip row).map Prod.fst = header := Keyed.keys_zip hl
    have hvalues : (header.zip row).map Prod.snd = row := List.map_snd_zip (Nat.le_of_eq hl)
    unfold Reads
    conv_lhs => rw [← hkeys]
    conv_rhs => rw [← hvalues]
    rw [List.map_map, List.map_map]
    apply List.map_congr_left
    intro e he
    exact (Keyed.get?_eq_some hk).2 (hp.mem_iff.2 he)

theorem reads_rows {rs : List (List (String × String))} (hh : header.Nodup)
    (hrs : ∀ known ∈ rs, (keys known).Nodup ∧ ∀ name ∈ keys known, name ∈ header) :
    Reads (fun known => header.mapM (Keyed.get? · known)) rs rows ↔
      List.Forall₂ List.Perm rs (rows.map header.zip) ∧ ∀ row ∈ rows, row.length = header.length := by
  induction rs generalizing rows with
  | nil => cases rows <;> simp [Reads]
  | cons known rs ih =>
    rw [List.forall_mem_cons] at hrs
    rw [Reads.cons_iff]
    constructor
    · rintro ⟨row, rest, hrow, hrest, rfl⟩
      obtain ⟨hp, hl⟩ := (reads_row hh hrs.1.1 hrs.1.2).1 (Reads.mapM_eq_some.1 hrow)
      obtain ⟨hps, hls⟩ := (ih hrs.2).1 hrest
      exact ⟨.cons hp hps, List.forall_mem_cons.2 ⟨hl, hls⟩⟩
    · rintro ⟨hps, hls⟩
      cases rows with
      | nil => cases hps
      | cons row rest =>
        rw [List.map_cons, List.forall₂_cons] at hps
        rw [List.forall_mem_cons] at hls
        refine ⟨row, rest, ?_, (ih hrs.2).2 ⟨hps.2, hls.2⟩, rfl⟩
        exact Reads.mapM_eq_some.2 ((reads_row hh hrs.1.1 hrs.1.2).2 ⟨hps.1, hls.1⟩)

/-- The header is found again in the first row. -/
theorem namesOf_labeledEntries (hh : header.Nodup) (hne : rows ≠ []) (hl : ∀ row ∈ rows, row.length = header.length) :
    namesOf (labeledEntries header rows) = header := by
  have hnames : (labeledEntries header rows).map (·.2.1) = rows.flatMap fun _ => header := by
    rw [labeledEntries, ungrouped, Keyed.placed_map, List.flatMap_map, List.map_flatMap]
    conv_rhs => rw [← Keyed.map_snd_placed 0 rows, List.flatMap_map]
    apply List.flatMap_congr
    intro e he
    rw [List.map_map]
    exact Keyed.keys_zip (hl e.2 (Keyed.mem_of_mem_placed he))
  obtain ⟨row, rows, rfl⟩ := List.exists_cons_of_ne_nil hne
  have hrest : (rows.flatMap fun _ => header).removeAll header = [] := by
    rw [List.removeAll, List.filter_eq_nil_iff]
    intro name hm
    obtain ⟨_, -, hm⟩ := List.mem_flatMap.1 hm
    simpa using hm
  rw [namesOf, hnames, List.flatMap_cons, List.eraseDups_append, hrest, List.eraseDups_nil, List.append_nil,
    eraseDups_of_nodup hh]

theorem zips_ne_nil (hne : header ≠ []) (hl : ∀ row ∈ rows, row.length = header.length) :
    ∀ known ∈ rows.map header.zip, known ≠ [] := by
  rintro _ hk rfl
  obtain ⟨row, hm, hz⟩ := List.mem_map.1 hk
  rw [List.zip_eq_nil_iff] at hz
  rcases hz with hz | rfl
  · exact hne hz
  · exact hne (List.length_eq_zero_iff.1 (hl [] hm).symm)

/-- If no name comes twice, no address does. -/
theorem nodup_labeledEntries (hh : header.Nodup) (hl : ∀ row ∈ rows, row.length = header.length) :
    ((labeledEntries header rows).map address).Nodup := by
  apply Keyed.nodup_addresses (Keyed.ascending_placed _ _).nodup
  intro e he
  obtain ⟨row, hm, hrow⟩ := List.mem_map.1 (Keyed.mem_of_mem_placed he)
  rwa [← hrow, Keyed.keys_zip (hl row hm)]

/-! ## Stored cells -/

namespace Labeled

variable {t t' : Labeled} {i line : Nat} {name value : String}

theorem insert_of_mem (h : name ∈ keys (Indexed.groupAt [] i line t.rows)) :
    t.insert i name value line = .error (.malformed line (.cellAgain i name)) := by
  rw [insert]
  cases hg : Keyed.get? name (Indexed.groupAt [] i line t.rows) with
  | none => exact absurd h (Keyed.get?_eq_none.1 hg)
  | some v =>
    rw [Indexed.groupAt] at hg
    simp only [hg]

theorem insert_of_notMem (h : name ∉ keys (Indexed.groupAt [] i line t.rows)) :
    t.insert i name value line = .ok ⟨if name ∈ t.header then t.header else t.header ++ [name],
      Keyed.putIndex i (((Keyed.get? i t.rows).getD (line, [])).1,
        Indexed.groupAt [] i line t.rows ++ [(name, value)]) t.rows⟩ := by
  have hg := Keyed.get?_eq_none.2 h
  rw [Indexed.groupAt] at hg
  simp only [insert, hg, Indexed.groupAt]

/-- The names of a stored row differ, and there is one. -/
def Sound (known : List (String × String)) : Prop :=
  (keys known).Nodup ∧ known ≠ []

/-- What was met are the given cells, and their names are the header. -/
structure Holds (xs : List (Nat × String × String)) (t : Labeled) : Prop where
  header : t.header = namesOf xs
  rows : Indexed.Groups id Sound xs t.rows

namespace Holds

theorem empty : Holds [] Labeled.empty := ⟨rfl, .empty⟩

theorem nodup (h : Holds xs t) : (xs.map address).Nodup := by
  rw [← (h.rows.perm.map address).nodup_iff]
  apply Keyed.nodup_addresses h.rows.groups_ascending.nodup
  intro e he
  obtain ⟨e', he', rfl⟩ := List.mem_map.1 he
  obtain ⟨e'', he'', rfl⟩ := List.mem_map.1 he'
  exact (h.rows.sound e'' he'').1

/-- A cell is new exactly if there is none in its row under its name. -/
theorem mem_keys_iff (h : Holds xs t) (i line : Nat) (name : String) :
    name ∈ keys (Indexed.groupAt [] i line t.rows) ↔ (i, name) ∈ xs.map address := by
  have hp : (Indexed.groupAt [] i line t.rows).Perm (Keyed.under i xs) := h.rows.groupAt_perm rfl i line
  rw [Keyed.mem_addresses]
  exact (hp.map Prod.fst).mem_iff

theorem insert (h : Holds xs t) (hn : (i, name) ∉ xs.map address) (value : String) (line : Nat) :
    ∃ t', t.insert i name value line = .ok t' ∧ Holds (xs ++ [(i, name, value)]) t' := by
  rw [← h.mem_keys_iff i line name] at hn
  refine ⟨_, insert_of_notMem hn, ?_, ?_⟩
  · show (if name ∈ t.header then _ else _) = _
    rw [namesOf, List.map_append, List.map_singleton, eraseDups_concat, h.header]
    simp only [namesOf, List.mem_eraseDups]
  · have hnil : (keys ([] : List (String × String))).Nodup := List.nodup_nil
    have hnodup : (keys (Indexed.groupAt [] i line t.rows)).Nodup :=
      h.rows.of_groupAt (P := fun known => (keys known).Nodup) hnil (fun _ hs => hs.1) i line
    have hsound : Sound (Indexed.groupAt [] i line t.rows ++ [(name, value)]) :=
      ⟨nodup_map_concat.2 ⟨hnodup, hn⟩, by simp⟩
    exact h.rows.store rfl hsound (.refl _) _

/-- The groups of the entries, each read in the order of the names. -/
theorem reads_iff (h : Holds xs t) {rs : List (List (String × String))} {rows : Matrix} (hrs : t.rows.toList = .ok rs) :
    Reads (fun known => t.header.mapM (Keyed.get? · known)) rs rows ↔
      List.Forall₂ List.Perm rs (rows.map (namesOf xs).zip) ∧ ∀ row ∈ rows, row.length = (namesOf xs).length := by
  obtain ⟨hp, hsound⟩ := h.rows.perm_of_toList hrs
  rw [List.map_id] at hp
  rw [h.header]
  exact reads_rows (nodup_namesOf xs) fun known hk => ⟨(hsound known hk).1, mem_namesOf_of_group hp hk⟩

end Holds

theorem rowOf_eq_ok {header : List String} {i : Nat} {known : List (String × String)} {row : List String} :
    rowOf header i known = .ok row ↔ header.mapM (Keyed.get? · known) = some row := by
  rw [rowOf]
  cases header.mapM (Keyed.get? · known) <;> simp

theorem mapM_rowOf_eq_ok {header : List String} {rs : List (List (String × String))} {rows : Matrix} :
    rs.zipIdx.mapM (fun (known, i) => rowOf header i known) = .ok rows ↔
      Reads (fun known => header.mapM (Keyed.get? · known)) rs rows := by
  rw [Reads.mapM_eq_ok fun _ _ => rowOf_eq_ok]
  unfold Reads
  conv_rhs => rw [← List.zipIdx_map_fst 0 rs, List.map_map]
  rfl

theorem finish_eq_ok : t.finish = .ok m ↔ t.header ≠ [] ∧ ∃ rs rows, t.rows.toList = .ok rs ∧
    Reads (fun known => t.header.mapM (Keyed.get? · known)) rs rows ∧ m = t.header :: rows := by
  rw [finish]
  split
  · rename_i h
    simp [h]
  · rename_i h
    simp only [bind_eq_ok, mapM_rowOf_eq_ok]
    constructor
    · rintro ⟨rs, hrs, rows, hr, hm⟩
      cases hm
      exact ⟨h, rs, rows, hrs, hr, rfl⟩
    · rintro ⟨-, rs, rows, hrs, hr, rfl⟩
      exact ⟨rs, hrs, rows, hr, rfl⟩

end Labeled

/-! ## Whole tables -/

/-- Each line inserts the cell that is read from it. -/
structure Inserts (read? : SExpr → Option (Nat × String × String))
    (add : Labeled → SExpr × Nat → Except TableError Labeled) : Prop where
  reads : ∀ {t t' e line}, add t (e, line) = .ok t' → ∃ x, read? e = some x
  inserts : ∀ {t e line i name value}, read? e = some (i, name, value) →
    add t (e, line) = t.insert i name value line

namespace Inserts

variable {read? : SExpr → Option (Nat × String × String)} {add : Labeled → SExpr × Nat → Except TableError Labeled}

theorem gathers (h : Inserts read? add) : GathersLines read? add (fun xs => (xs.map address).Nodup) Labeled.Holds where
  shorter h := (nodup_map_concat.1 h).1
  reads {xs t t' a} hh hs := by
    obtain ⟨e, line⟩ := a
    obtain ⟨⟨i, name, value⟩, hx⟩ := h.reads hs
    rw [h.inserts hx] at hs
    by_cases hm : (i, name) ∈ xs.map address
    · rw [Labeled.insert_of_mem ((hh.mem_keys_iff i line name).2 hm)] at hs
      cases hs
    · obtain ⟨t'', ht, hh'⟩ := hh.insert hm value line
      rw [hs, Except.ok.injEq] at ht
      subst ht
      exact ⟨_, hx, hh'.nodup, hh'⟩
  accepts {xs t a x} hh hx hg := by
    obtain ⟨e, line⟩ := a
    obtain ⟨i, name, value⟩ := x
    obtain ⟨t', ht, -⟩ := hh.insert (nodup_map_concat.1 hg).2 value line
    exact ⟨t', (h.inserts hx).trans ht⟩

theorem repeated (h : Inserts read? add) {t : Labeled} {e : SExpr} {line : Nat} {x : Nat × String × String}
    (hh : Labeled.Holds xs t) (hx : read? e = some x) (hn : ¬ ((xs ++ [x]).map address).Nodup) :
    add t (e, line) = .error (.malformed line (.cellAgain x.1 x.2.1)) := by
  rw [h.inserts hx]
  exact Labeled.insert_of_mem ((hh.mem_keys_iff x.1 line x.2.1).2 (mem_of_not_nodup_concat hh.nodup hn))

/-- Lines are accepted exactly if there are any and their entries are, in any order, the
cells of rows below their names. -/
theorem decode_eq_ok (h : Inserts read? add) :
    ((numbered lines).foldlM add .empty >>= Labeled.finish) = .ok m ↔ ∃ xs rows, Reads read? lines xs ∧ xs ≠ [] ∧
      xs.Perm (labeledEntries (namesOf xs) rows) ∧ m = namesOf xs :: rows ∧ m.Rectangular := by
  rw [bind_eq_ok]
  simp only [Labeled.finish_eq_ok]
  constructor
  · rintro ⟨t, hf, hne, rs, rows, hrs, hread, rfl⟩
    obtain ⟨xs, hr, -, hh⟩ := h.gathers.run .empty List.nodup_nil hf
    obtain ⟨hrows, hl⟩ := (hh.reads_iff hrs).1 hread
    have hp := (hh.rows.perm_of_toList hrs).1
    rw [List.map_id] at hp
    rw [hh.header] at hne ⊢
    exact ⟨xs, rows, hr, mt namesOf_eq_nil.2 hne, hp.trans (Keyed.ungrouped_placed_perm hrows 0), rfl,
      Matrix.rectangular_cons.2 hl⟩
  · rintro ⟨xs, rows, hr, hne, hp, rfl, hrect⟩
    rw [Matrix.rectangular_cons] at hrect
    have hg : (xs.map address).Nodup :=
      (hp.map address).nodup_iff.2 (nodup_labeledEntries (nodup_namesOf xs) hrect)
    obtain ⟨t, hf, hh⟩ := h.gathers.run_of .empty hr hg
    have hnames : namesOf xs ≠ [] := mt namesOf_eq_nil.1 hne
    obtain ⟨rs, hrs, -, hrows⟩ := hh.rows.toList_of_perm (fun _ hs => hs.2) (zips_ne_nil hnames hrect) hp
    rw [List.map_id] at hrows
    refine ⟨t, hf, ?_, rs, rows, hrs, (hh.reads_iff hrs).2 ⟨hrows, hrect⟩, ?_⟩
    · rwa [hh.header]
    · rw [hh.header]

end Inserts

theorem inserts_addField : Inserts readField? addField where
  reads {t t' e line} hs := by
    simp only [addField, bind_eq_ok, Prod.exists, triple_eq_ok, index_eq_ok, cell_eq_ok] at hs
    obtain ⟨a, b, c, rfl, i, hi, name, hn, value, hv, -⟩ := hs
    exact ⟨(i, name, value), readField?_eq_some.2 ⟨a, b, c, rfl, hi, hn, hv⟩⟩
  inserts {t e line i name value} hx := by
    obtain ⟨a, b, c, rfl, ha, hb, hc⟩ := readField?_eq_some.1 hx
    rw [addField, triple_eq_ok.2 rfl]
    show (index line a >>= _) = _
    rw [index_eq_ok.2 ha]
    show (cell line b >>= _) = _
    rw [cell_eq_ok.2 hb]
    show (cell line c >>= _) = _
    rw [cell_eq_ok.2 hc]
    rfl

theorem inserts_addFunction : Inserts readFunction? addFunction where
  reads {t t' e line} hs := by
    simp only [addFunction, bind_eq_ok, Prod.exists, equalityParts_eq_ok, index_eq_ok, cell_eq_ok] at hs
    obtain ⟨a, b, value, he, i, hi, name, hn, -⟩ := hs
    exact ⟨(i, name, value), readFunction?_eq_some.2 ⟨a, b, he, hi, hn⟩⟩
  inserts {t e line i name value} hx := by
    obtain ⟨a, b, he, hb, ha⟩ := readFunction?_eq_some.1 hx
    rw [addFunction, equalityParts_eq_ok.2 he]
    show (index line b >>= _) = _
    rw [index_eq_ok.2 hb]
    show (cell line a >>= _) = _
    rw [cell_eq_ok.2 ha]
    rfl

theorem decodeField_eq_ok : decodeField lines = .ok m ↔ ∃ xs rows, Reads readField? lines xs ∧ xs ≠ [] ∧
    xs.Perm (labeledEntries (namesOf xs) rows) ∧ m = namesOf xs :: rows ∧ m.Rectangular :=
  inserts_addField.decode_eq_ok

theorem decodeFunction_eq_ok : decodeFunction lines = .ok m ↔ ∃ xs rows, Reads readFunction? lines xs ∧ xs ≠ [] ∧
    xs.Perm (labeledEntries (namesOf xs) rows) ∧ m = namesOf xs :: rows ∧ m.Rectangular :=
  inserts_addFunction.decode_eq_ok

end AtomLines.Table
