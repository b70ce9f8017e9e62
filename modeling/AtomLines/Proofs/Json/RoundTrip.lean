import AtomLines.Proofs.Json.Assembly
import AtomLines.Proofs.Json.Depth
/-!
# Records come back from their text

A writable value has lines, and from the text of the lines it is read back settled:
strings that are texts of numbers have become numbers, and nothing else has changed,
not even the order of keys. The same holds of a list of writable records, each under
its index.
-/

namespace AtomLines.Json

/-! ## The bodies of a value -/

theorem isLeafAtom_toAtom {v : Value} (hl : v.isLeaf = true) (hn : v.NumbersStable) : Path.IsLeafAtom v.toAtom := by
  cases v with
  | scalar s =>
    cases s with
    | string s =>
      cases h : Number.read? s with
      | none => simpa [Value.toAtom, Scalar.toAtom, h] using isLeafAtom_string s
      | some n => simpa [Value.toAtom, Scalar.toAtom, h] using isLeafAtom_number h
    | number n => exact isLeafAtom_number (hn n .self).read?_text
    | boolean b => cases b <;> exact isLeafAtom_symbol (by decide) (by decide)
    | null => exact isLeafAtom_symbol (by decide) (by decide)
  | sequence items => exact isLeafAtom_symbol (by decide) (by decide)
  | mapping entries => exact isLeafAtom_symbol (by decide) (by decide)

/-- The line of a leaf puts the leaf where it stood. -/
theorem insertLine_line {l : PlacedLeaf} (h : l.Sound) {root s : Slot}
    (hi : root.insert l.spot.2 l.spot.1 = .ok s) : Slot.insertLine l.line.reread root = .ok s := by
  have hb : l.line.reread ≠ .symbol emptyMapping := by
    intro he
    exact Path.items?_wrap h.nonempty l.leaf.toAtom (by rw [← PlacedLeaf.line, he]; rfl)
  have hu : Path.unwrap l.line.reread = .ok (l.path, l.leaf.toAtom) :=
    Path.unwrap_reread_wrap h.nonempty h.regular (isLeafAtom_toAtom h.leaf h.numbers)
  rw [Slot.insertLine, if_neg hb, hu]
  show (do
    let v ← Value.ofAtom l.leaf.toAtom
    (root.insert v l.path.accesses).mapError (Clash.at l.path)) = _
  rw [Value.ofAtom_toAtom h.leaf h.numbers]
  show (root.insert l.spot.2 l.spot.1).mapError _ = _
  rw [hi]
  rfl

theorem insertLine_lines {ls : List PlacedLeaf} (h : ∀ l ∈ ls, l.Sound) {root s : Slot}
    (hi : Slot.insertAll (ls.map PlacedLeaf.spot) root = .ok s) :
    ((ls.map PlacedLeaf.line).map SExpr.reread).foldlM (fun root b => Slot.insertLine b root) root = .ok s := by
  induction ls generalizing root with
  | nil =>
    cases hi
    rfl
  | cons l ls ih =>
    rw [List.forall_mem_cons] at h
    obtain ⟨t, ht, hi⟩ := foldlM_cons_eq_ok hi
    exact (foldlM_cons_ok (insertLine_line h.1 ht) _).trans (ih h.2 hi)

/-- Bodies from which, once they are written and read, a vacant slot grows to a tree
of the value. -/
structure Restores (bodies : List SExpr) (v : Value) : Prop where
  proper : ∀ b ∈ bodies, b.Proper
  grows : ∃ t, (bodies.map SExpr.reread).foldlM (fun root b => Slot.insertLine b root) .vacant = .ok t ∧
    t.finish = .ok v

theorem Value.Writable.bodies {v : Value} (h : v.Writable) (record : Nat) :
    ∃ bodies, v.bodies record = .ok bodies ∧ Restores bodies v.settle := by
  obtain ⟨entries, rfl⟩ := h.isMapping
  have hw : Reports [] (entrySpots entries) (entryLeaves record [] entries) :=
    reports_entryLeaves (fun e he => walked_of_fit (h.entry he)) (fun e he => h.nesting he) (by simp)
  obtain ⟨ls, hl, hs, he⟩ := hw
  refine ⟨ls.map PlacedLeaf.line, ?_, ?_, ?_⟩
  · rw [Value.bodies_mapping, hl, collect_eq_ok.2 rfl]
    rfl
  · intro b hb
    obtain ⟨l, hl, rfl⟩ := List.mem_map.1 hb
    exact Path.proper_wrap l.path (isLeafAtom_toAtom (hs l hl).leaf (hs l hl).numbers).proper
  · have hi : Slot.insertAll (entrySpots entries) (.ofEntries []) = .ok (.ofEntries (entrySlots entries)) :=
      insertAll_entrySpots (fun e he => insertAll_spots (h.entry he)) (h.wellFormed.keys entries .self)
        (by simp [Keyed.keys])
    have hm : ls.map PlacedLeaf.spot = entrySpots entries := by simpa using he
    refine ⟨.ofEntries (entrySlots entries), insertLine_lines hs (by rw [hm]; exact hi), ?_⟩
    cases entries with
    | nil => rfl
    | cons e entries => exact finish_slot (.mapping (e :: entries))

/-- A document comes back from its lines. -/
theorem decodeDocument_reread {v : Value} (h : v.Writable) :
    ∃ lines, encodeDocument v = .ok lines ∧ (∀ l ∈ lines, l.Proper) ∧
      decodeDocument (lines.map SExpr.reread) = .ok v.settle := by
  obtain ⟨bodies, hb, hr⟩ := h.bodies 0
  obtain ⟨t, ht, hf⟩ := hr.grows
  refine ⟨bodies, hb, hr.proper, ?_⟩
  rw [decodeDocument, ht]
  show (t.finish).mapError _ = _
  rw [hf]
  rfl

/-! ## Records -/

/-- A value as a record: one that has no leaf still has a line. -/
theorem encodeRecord_restores {v : Value} (h : v.Writable) (marker : String) (record : Nat) :
    ∃ bodies, encodeRecord marker record v = .ok (bodies.map (recordLine marker record)) ∧ bodies ≠ [] ∧
      Restores bodies v.settle := by
  obtain ⟨bodies, hb, hr⟩ := h.bodies record
  rw [encodeRecord, hb]
  cases bodies with
  | cons b bodies => exact ⟨b :: bodies, rfl, by simp, hr⟩
  | nil =>
    -- An empty record has one line, and that line stands for the whole of it.
    have he : (SExpr.symbol emptyMapping).reread = .symbol emptyMapping :=
      (isLeafAtom_symbol (by decide) (by decide)).reread
    obtain ⟨t, ht, hf⟩ := hr.grows
    cases ht
    refine ⟨[.symbol emptyMapping], rfl, by simp, by simp [SExpr.Proper.symbol], .leaf (.mapping []), ?_, hf⟩
    rw [List.map_singleton, he]
    rfl

theorem recordParts_recordLine (marker : String) {record : Nat} (h : record < Text.indexBound) (body : SExpr) :
    recordParts marker (recordLine marker record body).reread = .ok (record, body.reread) := by
  simp [recordLine, recordParts, SExpr.index?_ofIndex h]

theorem proper_recordLine (marker : String) (record : Nat) {body : SExpr} (h : body.Proper) :
    (recordLine marker record body).Proper :=
  .list (by simp [SExpr.Proper.symbol, SExpr.proper_ofIndex, h])

/-- The lines of a record build its tree and no other. -/
theorem insertLine_recordLines {marker : String} {record : Nat} (hr : record < Text.indexBound) {bodies : List SExpr}
    (hn : bodies ≠ []) {trees : Trees} {t : Slot}
    (h : (bodies.map SExpr.reread).foldlM (fun root b => Slot.insertLine b root)
      ((Keyed.get? record trees).getD .vacant) = .ok t) :
    ((bodies.map (recordLine marker record)).map SExpr.reread).foldlM (Trees.insertLine marker) trees =
      .ok (Keyed.putIndex record t trees) := by
  rw [List.foldlM_map] at h
  rw [List.map_map]
  refine foldlM_place (fun ts => (Keyed.get? record ts).getD .vacant) (Keyed.putIndex record) id ?_ ?_ ?_ hn h
  · intro ts body s hs
    rw [Function.comp_apply, Trees.insertLine, recordParts_recordLine marker hr]
    show (do
      let root ← (Slot.insertLine body.reread ((Keyed.get? record ts).getD .vacant)).mapError _
      return Keyed.putIndex record root ts) = _
    rw [hs]
    rfl
  · intro s ts
    simp [Keyed.get?_putIndex_self]
  · intro s s' ts
    exact Keyed.putIndex_putIndex record s s' ts

/-- The records from an index on, as they come back. -/
def settledFrom (next : Nat) (records : List Value) : List (Nat × Value) :=
  (records.zipIdx next).map fun (v, i) => (i, v.settle)

/-- A record that has lines, as it comes back. -/
def kept? (marker : String) (e : Value × Nat) : Option (Nat × Value) :=
  (encodeRecord marker e.2 e.1).toOption.map fun _ => (e.2, e.1.settle)

def keptFrom (marker : String) (next : Nat) (records : List Value) : List (Nat × Value) :=
  (records.zipIdx next).filterMap (kept? marker)

/-- The lines of records, read back after the lines of the records before them, add
the trees of these records. A record that is skipped has neither. -/
theorem encodeFrom_restores_kept (marker : String) (policy : ErrorPolicy) {records : List Value} {next : Nat}
    (h : ∀ e ∈ records.zipIdx next, e.1.Writable ∨ policy = .skip ∧ ∃ err, encodeRecord marker e.2 e.1 = .error err)
    (hb : next + records.length ≤ Text.indexBound) :
    ∃ lines trees, encodeFrom marker policy next records = .ok lines ∧ (∀ l ∈ lines, l.Proper) ∧
      Trees.finish trees = .ok (keptFrom marker next records) ∧
      ∀ before : Trees, (∀ i ∈ Keyed.keys before, i < next) →
        (lines.map SExpr.reread).foldlM (Trees.insertLine marker) before = .ok (before ++ trees) := by
  induction records generalizing next with
  | nil => exact ⟨[], [], rfl, by simp, rfl, by simp [pure, Except.pure]⟩
  | cons v records ih =>
    rw [List.zipIdx_cons, List.forall_mem_cons] at h
    rw [List.length_cons] at hb
    obtain ⟨lines, trees, hl, hp, hfs, hts⟩ := @ih (next + 1) h.2 (by omega)
    rcases h.1 with hw | ⟨rfl, err, herr⟩
    · obtain ⟨bodies, he, hn, hr⟩ := encodeRecord_restores hw marker next
      obtain ⟨t, ht, hf⟩ := hr.grows
      refine ⟨bodies.map (recordLine marker next) ++ lines, (next, t) :: trees, ?_, ?_, ?_, ?_⟩
      · simp only [encodeFrom, he, hl]
        rfl
      · intro l hm
        rcases List.mem_append.1 hm with hm | hm
        · obtain ⟨b, hb, rfl⟩ := List.mem_map.1 hm
          exact proper_recordLine marker next (hr.proper b hb)
        · exact hp l hm
      · have hkept : keptFrom marker next (v :: records) = (next, v.settle) :: keptFrom marker (next + 1) records := by
          rw [keptFrom, List.zipIdx_cons]
          exact List.filterMap_cons_some (by simp only [kept?, he]; rfl)
        rw [Trees.finish, hf, hfs, hkept]
        rfl
      -- The lines of this record come first and leave a tree with the next index.
      · intro before hbefore
        have hv : Keyed.get? next before = none := Keyed.get?_eq_none.2 fun hm => Nat.lt_irrefl _ (hbefore next hm)
        rw [List.map_append, foldlM_append_ok (insertLine_recordLines (by omega) hn (by rw [hv]; exact ht)),
          Keyed.putIndex_of_lt hbefore, hts _ (Keyed.keys_concat_lt hbefore t), List.append_assoc,
          List.singleton_append]
    · have hkept : keptFrom marker next (v :: records) = keptFrom marker (next + 1) records := by
        rw [keptFrom, List.zipIdx_cons]
        exact List.filterMap_cons_none (by simp only [kept?, herr]; rfl)
      refine ⟨lines, trees, ?_, hp, hkept ▸ hfs, fun before hbefore => hts before fun i hi => ?_⟩
      · simp only [encodeFrom, herr, hl]
      · exact Nat.lt_succ_of_lt (hbefore i hi)

theorem keptFrom_of_writable (marker : String) {records : List Value} (h : ∀ v ∈ records, v.Writable) (next : Nat) :
    keptFrom marker next records = settledFrom next records := by
  rw [keptFrom, settledFrom, ← List.filterMap_eq_map]
  apply List.filterMap_congr
  rintro ⟨v, i⟩ he
  obtain ⟨bodies, hl, -⟩ := encodeRecord_restores (h v (List.fst_mem_of_mem_zipIdx he)) marker i
  simp only [kept?, hl]
  rfl

/-- The lines of writable records add a tree for each of them. -/
theorem encodeFrom_restores (marker : String) (policy : ErrorPolicy) {records : List Value}
    (h : ∀ v ∈ records, v.Writable) {next : Nat} (hb : next + records.length ≤ Text.indexBound) :
    ∃ lines trees, encodeFrom marker policy next records = .ok lines ∧ (∀ l ∈ lines, l.Proper) ∧
      Trees.finish trees = .ok (settledFrom next records) ∧
      ∀ before : Trees, (∀ i ∈ Keyed.keys before, i < next) →
        (lines.map SExpr.reread).foldlM (Trees.insertLine marker) before = .ok (before ++ trees) := by
  rw [← keptFrom_of_writable marker h next]
  exact encodeFrom_restores_kept marker policy (fun e he => .inl (h e.1 (List.fst_mem_of_mem_zipIdx he))) hb

/-- Writable values come back settled from the text of their lines: records each under
its index, and a document on its own. -/
theorem records_come_back (marker : String) (policy : ErrorPolicy) (records : List Value)
    (h : ∀ v ∈ records, v.Writable) (hb : records.length ≤ Text.indexBound) :
    (∃ lines es, encodeRecords marker policy records = .ok lines ∧ SExpr.read (SExpr.write lines) = .ok es ∧
      decodeRecords marker es = .ok (records.zipIdx.map fun (v, i) => (i, v.settle))) ∧
    ∀ v ∈ records, ∃ lines es, encodeDocument v = .ok lines ∧ SExpr.read (SExpr.write lines) = .ok es ∧
      decodeDocument es = .ok v.settle := by
  constructor
  · obtain ⟨lines, trees, hl, hp, hf, ht⟩ := encodeFrom_restores marker policy h (by rwa [Nat.zero_add])
    refine ⟨lines, lines.map SExpr.reread, hl, (SExpr.readsAs_lineChars hp).read_eq, ?_⟩
    rw [decodeRecords, ht [] (by simp [Keyed.keys])]
    exact hf
  · intro v hv
    obtain ⟨lines, hl, hp, hd⟩ := decodeDocument_reread (h v hv)
    exact ⟨lines, lines.map SExpr.reread, hl, (SExpr.readsAs_lineChars hp).read_eq, hd⟩

/-- A record with the marks of the syntax in its keys and leaves, and sequences as deep
as they can be. -/
def oddRecord : Value :=
  .mapping [("\x7b\x7d", .sequence [.sequence [.sequence [.sequence []]]]),
    ("", .mapping [("0 (;\"", .scalar (.string "-4.5e1"))]), ("1", .scalar (.string ";"))]

theorem records_come_back_odd :
    ∃ lines es, encodeRecords "7" .abort [.mapping [], oddRecord] = .ok lines ∧
      SExpr.read (SExpr.write lines) = .ok es ∧
      decodeRecords "7" es = .ok [(0, .mapping []),
        (1, .mapping [("\x7b\x7d", .sequence [.sequence [.sequence [.sequence []]]]),
          ("", .mapping [("0 (;\"", .scalar (.number (.double ⟨true, 45 * 2 ^ 47, 1027⟩)))]),
          ("1", .scalar (.string ";"))])] := by
  have hs (t : String) : (Value.scalar (.string t)).Fit := Value.fit_scalar (by simp)
  have he : (Value.mapping []).Fit := Value.fit_mapping (by simp [Keyed.keys]) (by simp)
  have hq : (Value.sequence [.sequence [.sequence [.sequence []]]]).Fit := by
    have h₁ : (Value.sequence []).Fit := Value.fit_sequence (by decide) (by simp)
    have h₂ : (Value.sequence [.sequence []]).Fit := Value.fit_sequence (by decide) (by simp [h₁])
    have h₃ : (Value.sequence [.sequence [.sequence []]]).Fit := Value.fit_sequence (by decide) (by simp [h₂])
    exact Value.fit_sequence (by decide) (by simp [h₃])
  have hm : (Value.mapping [("0 (;\"", .scalar (.string "-4.5e1"))]).Fit :=
    Value.fit_mapping (by decide) (by simp [hs, Value.nesting])
  have ho : oddRecord.Fit :=
    Value.fit_mapping (by decide) (by simp [hs, hq, hm, Value.nesting, Value.itemNesting, maxSequenceDepth])
  have hw : ∀ v ∈ [.mapping [], oddRecord], v.Writable := by
    simp only [List.forall_mem_cons, List.not_mem_nil, false_implies, implies_true, and_true]
    exact ⟨⟨he, _, rfl⟩, ho, _, rfl⟩
  have hn : Number.read? "-4.5e1" = some (.double ⟨true, 45 * 2 ^ 47, 1027⟩) := by decide +kernel
  have hc : Number.read? ";" = none := by decide +kernel
  obtain ⟨⟨lines, es, hl, hr, hd⟩, -⟩ := records_come_back "7" .abort [.mapping [], oddRecord] hw (by decide)
  refine ⟨lines, es, hl, hr, hd.trans ?_⟩
  simp [oddRecord, Value.settle, Value.settleEntries, Value.settleItems, hn, hc]

end AtomLines.Json
