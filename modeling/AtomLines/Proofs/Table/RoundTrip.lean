import AtomLines.Proofs.Table.Format
/-!
# Written tables read back

A table is written exactly if it is rectangular and has the header that its layout
needs. Its lines come back from their text, and they give the table again exactly if the
layout keeps it; else they give the empty table, or the error that there is no header or
that a column name comes twice.
-/

namespace AtomLines.Table

open Keyed (placed keys ungrouped address)

variable {layout : Layout} {lines : List SExpr} {m rows : Matrix} {header : List String}

namespace Format

theorem encode_eq_ok (F : Format layout) : encode layout m = .ok lines ↔
    (m.Rectangular ∧ (layout.usesHeader = true → m ≠ [])) ∧ lines = (F.entries m).map F.write := by
  constructor
  · intro h
    have hwritable : m.Rectangular ∧ (layout.usesHeader = true → m ≠ []) := by
      constructor
      · by_contra hn
        obtain ⟨_, _, _, _, _, _, he⟩ := encode_of_not layout hn
        rw [he] at h
        cases h
      · rintro hl rfl
        rw [encode_nil hl] at h
        cases h
    refine ⟨hwritable, ?_⟩
    rw [F.encode_eq hwritable.1 hwritable.2, Except.ok.injEq] at h
    exact h.symm
  · rintro ⟨⟨hrect, hheader⟩, rfl⟩
    exact F.encode_eq hrect hheader

theorem read_written (F : Format layout) (h : encode layout m = .ok lines) : SExpr.read (SExpr.write lines) = .ok lines := by
  obtain ⟨-, rfl⟩ := F.encode_eq_ok.1 h
  apply SExpr.read_write_faithful
  intro e he
  obtain ⟨x, -, rfl⟩ := List.mem_map.1 he
  exact F.faithful x

theorem decode_written_eq_ok (F : Format layout) (h : encode layout m = .ok lines) (ha : m.Addressable) :
    decode layout lines = .ok m ↔ layout.Keeps m := by
  obtain ⟨⟨hrect, hheader⟩, rfl⟩ := F.encode_eq_ok.1 h
  constructor
  · intro hd
    obtain ⟨xs, -, hm⟩ := F.decode_eq_ok.1 hd
    exact (F.of_makes hm).2.2
  · intro hk
    have hr : Reads F.read? ((F.entries m).map F.write) (F.entries m) :=
      Reads.of_write (F.read_entries ha hrect)
    exact F.decode_eq_ok.2 ⟨_, hr, F.makes_entries hrect hheader hk⟩

end Format

/-! ## Tables that are not kept -/

/-- What is wrong with a column name that came before. -/
def Layout.repeated : Layout → String → RowFault
  | .columnHeader, name => .columnAgain name
  | _, name => .cellAgain 0 name

/-- A run is refused at the first name that came before. -/
def RefusedAtRepeated (layout : Layout) (header : List String) (outcome : Except TableError Matrix) : Prop :=
  ∃ before name after, header = before ++ name :: after ∧ before.Nodup ∧ name ∈ before ∧
    outcome = .error (.malformed (before.length + 1) (layout.repeated name))

theorem columnHeader_refused (hn : ¬ header.Nodup) :
    RefusedAtRepeated .columnHeader header (decodeColumnHeader (columnHeaderLines header rows)) := by
  have hr : Reads readColumn? (columnHeaderLines header rows) (columnEntries header rows) := by
    rw [columnHeaderLines_eq]
    exact Reads.of_write fun x _ => readColumn?_columnLine x.1 x.2
  have hkeys := keys_columnEntries header rows
  have hg : ¬ (keys (columnEntries header rows)).Nodup := by rwa [hkeys]
  obtain ⟨before, x, after, hx, hb, hnot, he⟩ := gathers_addColumn.run_stops holds_namedColumns_nil List.nodup_nil
    addColumn_of_repeated hr hg
  rw [hx, Keyed.keys_append] at hkeys
  refine ⟨keys before, x.1, keys after, hkeys.symm, hb, mem_of_not_nodup_concat hb hnot, ?_⟩
  have hne : columnHeaderLines header rows ≠ [] := by
    intro hl
    rw [hl, Reads.nil_iff, hx] at hr
    simp at hr
  rw [decodeColumnHeader, if_neg hne, he, keys, List.length_map]
  rfl

/-- The first row, whose cells only their names tell apart. -/
def firstEntries (header row : List String) : List (Nat × String × String) :=
  (header.zip row).map (0, ·)

section
variable {row : List String}

theorem map_address_firstEntries (hl : row.length = header.length) :
    (firstEntries header row).map address = header.map (0, ·) := by
  conv_rhs => rw [← Keyed.keys_zip hl]
  rw [firstEntries, List.map_map, keys, List.map_map]
  rfl

/-- An address that comes again in the first row is a name that comes again. -/
theorem repeated_in_firstEntries {before after : List (Nat × String × String)} {x : Nat × String × String}
    (hl : row.length = header.length) (hx : firstEntries header row = before ++ x :: after)
    (hb : (before.map address).Nodup) (hm : address x ∈ before.map address) :
    x.1 = 0 ∧ header = before.map (·.2.1) ++ x.2.1 :: after.map (·.2.1) ∧ (before.map (·.2.1)).Nodup ∧
      x.2.1 ∈ before.map (·.2.1) := by
  have hzero : ∀ y ∈ before ++ x :: after, y.1 = 0 := by
    intro y hy
    rw [← hx] at hy
    obtain ⟨y, -, rfl⟩ := List.mem_map.1 hy
    rfl
  have hnames : (firstEntries header row).map (·.2.1) = header := by
    rw [firstEntries, List.map_map]
    exact Keyed.keys_zip hl
  have hbefore : before.map address = (before.map (·.2.1)).map (0, ·) := by
    rw [List.map_map]
    exact List.map_congr_left fun y hy => Prod.ext (hzero y (List.mem_append_left _ hy)) rfl
  rw [hbefore] at hb hm
  refine ⟨hzero x (by simp), ?_, hb.of_map, ?_⟩
  · rw [← hnames, hx, List.map_append, List.map_cons]
  · obtain ⟨name, hname, hxn⟩ := List.mem_map.1 hm
    have hxn : name = x.2.1 := congrArg Prod.snd hxn
    exact hxn ▸ hname

/-- The cells of the first row alone are refused, so those of the whole table are. -/
theorem Inserts.refused {read? : SExpr → Option (Nat × String × String)}
    {add : Labeled → SExpr × Nat → Except TableError Labeled} (h : Inserts read? add)
    {write : Nat × String × String → SExpr} (hwrite : ∀ x : String × String, read? (write (0, x)) = some (0, x))
    (hl : row.length = header.length) (hn : ¬ header.Nodup) {layout : Layout}
    (hlayout : layout.repeated = .cellAgain 0) :
    RefusedAtRepeated layout header
      ((numbered ((labeledEntries header (row :: rows)).map write)).foldlM add .empty >>= Labeled.finish) := by
  have hr : Reads read? ((firstEntries header row).map write) (firstEntries header row) := by
    apply Reads.of_write
    intro x hx
    obtain ⟨x, -, rfl⟩ := List.mem_map.1 hx
    exact hwrite x
  have hg : ¬ ((firstEntries header row).map address).Nodup := by
    rw [map_address_firstEntries hl]
    exact fun hd => hn hd.of_map
  obtain ⟨before, x, after, hx, hb, hnot, he⟩ := h.gathers.run_stops .empty List.nodup_nil h.repeated hr hg
  obtain ⟨hx0, hheader, hnodup, hm⟩ := repeated_in_firstEntries hl hx hb (mem_of_not_nodup_concat hb hnot)
  refine ⟨_, _, _, hheader, hnodup, hm, ?_⟩
  have hentries : labeledEntries header (row :: rows) =
      firstEntries header row ++ ungrouped (placed 1 (rows.map header.zip)) := rfl
  rw [hentries, List.map_append, numbered_append, foldlM_append_error he, hlayout, hx0, List.length_map]
  rfl

end

/-- What lines give instead of a table that the layout does not keep. -/
def Layout.GivesInstead (layout : Layout) (header : List String) (lines : List SExpr) (outcome : Except TableError Matrix) :
    Prop :=
  if layout.usesHeader = true then
    lines = [] ∧ outcome = .error .missingHeader ∨ lines ≠ [] ∧ RefusedAtRepeated layout header outcome
  else outcome = .ok []

theorem columnHeader_givesInstead (hk : ¬ (0 < header.length ∧ header.Nodup)) : Layout.columnHeader.GivesInstead header
    (columnHeaderLines header rows) (decodeColumnHeader (columnHeaderLines header rows)) := by
  have hheader : Layout.columnHeader.usesHeader = true := rfl
  rw [Layout.GivesInstead, if_pos hheader]
  by_cases hh : header = []
  · subst hh
    exact .inl ⟨rfl, rfl⟩
  · have hn : ¬ header.Nodup := fun hn => hk ⟨List.length_pos_iff.2 hh, hn⟩
    refine .inr ⟨?_, columnHeader_refused hn⟩
    intro hl
    rw [columnHeaderLines, List.map_eq_nil_iff, List.zipIdx_eq_nil_iff] at hl
    exact hh hl

theorem Inserts.givesInstead {read? : SExpr → Option (Nat × String × String)}
    {add : Labeled → SExpr × Nat → Except TableError Labeled} (h : Inserts read? add)
    {write : Nat × String × String → SExpr} (hwrite : ∀ x : String × String, read? (write (0, x)) = some (0, x))
    (hrect : Matrix.Rectangular (header :: rows)) (hk : ¬ (1 < (header :: rows).length ∧ 0 < header.length ∧ header.Nodup))
    {layout : Layout} (hheader : layout.usesHeader = true) (hlayout : layout.repeated = .cellAgain 0) :
    layout.GivesInstead header ((labeledEntries header rows).map write)
      ((numbered ((labeledEntries header rows).map write)).foldlM add .empty >>= Labeled.finish) := by
  rw [Layout.GivesInstead, if_pos hheader]
  by_cases hl : (labeledEntries header rows).map write = []
  · rw [hl]
    exact .inl ⟨rfl, rfl⟩
  · refine .inr ⟨hl, ?_⟩
    rw [List.map_eq_nil_iff] at hl
    cases rows with
    | nil => exact absurd rfl hl
    | cons row rows =>
      have hh : header ≠ [] := by
        rintro rfl
        apply hl
        apply Keyed.ungrouped_placed_eq_nil
        intro group hg
        obtain ⟨row, -, rfl⟩ := List.mem_map.1 hg
        rfl
      have hrow : row.length = header.length := Matrix.rectangular_cons.1 hrect row List.mem_cons_self
      exact h.refused hwrite hrow (fun hn => hk ⟨Nat.succ_lt_succ (Nat.succ_pos _), List.length_pos_iff.2 hh, hn⟩) hlayout

theorem decode_givesInstead (h : encode layout m = .ok lines) (hk : ¬ layout.Keeps m) :
    layout.GivesInstead m.header lines (decode layout lines) := by
  obtain ⟨⟨hrect, hheader⟩, rfl⟩ := layout.format.encode_eq_ok.1 h
  have hzero : 0 < Text.indexBound := by decide
  cases layout with
  | row | headerRow => exact absurd trivial hk
  | column =>
    have hw : m.width = 0 := Nat.eq_zero_of_not_pos fun hw => hk (.inr hw)
    show decodeColumn ((placed 0 m.columns).map fun e => rowLine e.1 e.2) = .ok []
    rw [Matrix.columns_eq_nil hw]
    rfl
  | cell =>
    have hw : m.width = 0 := Nat.eq_zero_of_not_pos fun hw => hk (.inr hw)
    have hcells : cellEntries m = [] := by
      apply Keyed.ungrouped_placed_eq_nil
      intro group hg
      obtain ⟨row, hrow, rfl⟩ := List.mem_map.1 hg
      rw [List.length_eq_zero_iff.1 ((hrect row hrow).trans hw)]
      rfl
    show decodeCell ((cellEntries m).map fun e => cellLine e.1 e.2.1 e.2.2) = .ok []
    rw [hcells]
    rfl
  | columnHeader =>
    obtain ⟨header, rows, rfl⟩ := List.exists_cons_of_ne_nil (hheader rfl)
    show Layout.columnHeader.GivesInstead header ((columnEntries header rows).map fun e => columnLine e.1 e.2)
      (decodeColumnHeader ((columnEntries header rows).map fun e => columnLine e.1 e.2))
    rw [← columnHeaderLines_eq]
    exact columnHeader_givesInstead hk
  | struct =>
    obtain ⟨header, rows, rfl⟩ := List.exists_cons_of_ne_nil (hheader rfl)
    have hrows : rows = [] := by
      by_contra hrows
      exact hk (Nat.succ_lt_succ (List.length_pos_iff.2 hrows))
    subst hrows
    exact .inl ⟨rfl, rfl⟩
  | field =>
    obtain ⟨header, rows, rfl⟩ := List.exists_cons_of_ne_nil (hheader rfl)
    exact inserts_addField.givesInstead (fun x => readField?_fieldLine hzero x.1 x.2) hrect hk rfl rfl
  | function =>
    obtain ⟨header, rows, rfl⟩ := List.exists_cons_of_ne_nil (hheader rfl)
    exact inserts_addFunction.givesInstead (fun x => readFunction?_functionLine hzero x.1 x.2) hrect hk rfl rfl

/-! ## The round trip -/

/-- Tables are written exactly if they are rectangular and have the header that the
layout needs, a table that is not rectangular is refused at its first row of another
length, and the lines give back exactly the tables that the layout keeps. -/
theorem tables_round_trip (layout : Layout) (m : Matrix) :
    ((∃ lines, encode layout m = .ok lines) ↔ m.Rectangular ∧ (layout.usesHeader = true → m ≠ [])) ∧
    (¬ m.Rectangular → ∃ before row after, m = before ++ row :: after ∧ (∀ r ∈ before, r.length = m.width) ∧
      row.length ≠ m.width ∧ encode layout m = .error (.ragged before.length m.width row.length)) ∧
    ∀ lines, encode layout m = .ok lines → m.Addressable → ∃ es, SExpr.read (SExpr.write lines) = .ok es ∧
      (decode layout es = .ok m ↔ layout.Keeps m) ∧
      (¬ layout.Keeps m → layout.GivesInstead m.header lines (decode layout es)) := by
  refine ⟨?_, encode_of_not layout, ?_⟩
  · constructor
    · rintro ⟨lines, h⟩
      exact (layout.format.encode_eq_ok.1 h).1
    · intro h
      exact ⟨_, layout.format.encode_eq_ok.2 ⟨h, rfl⟩⟩
  · intro lines h ha
    exact ⟨lines, layout.format.read_written h, layout.format.decode_written_eq_ok h ha, decode_givesInstead h⟩

/-- A table with marks of the syntax in its cells. -/
def oddTable : Matrix :=
  [["", "a;\""], ["(", "header"], ["0", "\n"]]

/-- A table with a name that comes twice. -/
def doubledTable : Matrix :=
  [["a", "a"], ["1", "2"]]

theorem tables_round_trip_oddTable :
    (∃ lines, encode .function oddTable = .ok lines ∧ ∃ es, SExpr.read (SExpr.write lines) = .ok es ∧
      decode .function es = .ok oddTable) ∧
    encode .row [["a"], ["b", "c"]] = .error (.ragged 1 1 2) ∧
    ∃ lines, encode .field doubledTable = .ok lines ∧ ∃ es, SExpr.read (SExpr.write lines) = .ok es ∧
      decode .field es = .error (.malformed 2 (.cellAgain 0 "a")) := by
  refine ⟨?_, ?_, ?_⟩
  · obtain ⟨hencode, -, htrip⟩ := tables_round_trip .function oddTable
    obtain ⟨lines, h⟩ := hencode.2 ⟨by decide, by decide⟩
    obtain ⟨es, hr, hd, -⟩ := htrip lines h ⟨by decide, by decide⟩
    exact ⟨lines, h, es, hr, hd.2 (by decide)⟩
  · obtain ⟨before, row, after, hm, hb, hl, he⟩ := (tables_round_trip .row [["a"], ["b", "c"]]).2.1 (by decide)
    rw [he]
    cases before with
    | nil => cases hm; exact absurd rfl hl
    | cons r before =>
      cases before with
      | nil => cases hm; rfl
      | cons r before => simp at hm
  · obtain ⟨hencode, -, htrip⟩ := tables_round_trip .field doubledTable
    obtain ⟨lines, h⟩ := hencode.2 ⟨by decide, by decide⟩
    obtain ⟨es, hr, -, hinstead⟩ := htrip lines h ⟨by decide, by decide⟩
    refine ⟨lines, h, es, hr, ?_⟩
    rcases hinstead (by decide) with ⟨rfl, -⟩ | ⟨-, before, name, after, hm, -, hagain, he⟩
    · cases h
    · rw [he]
      cases before with
      | nil => cases hagain
      | cons n before =>
        cases before with
        | nil => cases hm; rfl
        | cons n' before => simp [doubledTable] at hm

end AtomLines.Table
