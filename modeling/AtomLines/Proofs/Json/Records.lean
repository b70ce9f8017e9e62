import AtomLines.Json.Record
import AtomLines.Proofs.Gather
import AtomLines.Proofs.Grouped
/-!
# Records stand alone

The lines of many records come mixed. Each line only touches the tree of its own
record, so the trees are those that the bodies of each record build alone, in the order
in which they come. A list of lines is decoded exactly if every line is one of a record
and the bodies of every record are decoded as a document, to the values of these
documents.
-/

namespace AtomLines.Json

/-! ## Lines of records -/

/-- The line is the marker, the index and the body. -/
def IsRecordLine (marker : String) (i : Nat) (body line : SExpr) : Prop :=
  ∃ head index, line = .list [head, index, body] ∧ head.name? = some marker ∧ index.index? = some i

theorem recordParts_eq_ok {marker : String} {line body : SExpr} {i : Nat} :
    recordParts marker line = .ok (i, body) ↔ IsRecordLine marker i body line := by
  constructor
  · intro h
    unfold recordParts at h
    split at h
    · rename_i head index body'
      split at h
      · rename_i hname
        split at h
        · rename_i hindex
          cases h
          exact ⟨head, index, rfl, hname, hindex⟩
        · cases h
      · cases h
    · cases h
  · rintro ⟨head, index, rfl, hname, hindex⟩
    simp [recordParts, hname, hindex]

/-- The index and the body of a line of a record. -/
def recordBody? (marker : String) (line : SExpr) : Option (Nat × SExpr) :=
  (recordParts marker line).toOption

theorem recordBody?_eq_some {marker : String} {line body : SExpr} {i : Nat} :
    recordBody? marker line = some (i, body) ↔ IsRecordLine marker i body line := by
  rw [recordBody?, ← recordParts_eq_ok]
  cases recordParts marker line <;> simp [Except.toOption]

/-- The bodies of the lines of one record, in their order. -/
def bodiesOf (marker : String) (i : Nat) (lines : List SExpr) : List SExpr :=
  Keyed.under i (lines.filterMap (recordBody? marker))

/-! ## Trees -/

/-- The tree that lines build. -/
def treeOf (lines : List SExpr) : Except Malformation Slot :=
  lines.foldlM (fun root body => Slot.insertLine body root) .vacant

theorem decodeDocument_eq_ok {lines : List SExpr} {v : Value} :
    decodeDocument lines = .ok v ↔ ∃ root, treeOf lines = .ok root ∧ root.finish = .ok v := by
  rw [decodeDocument, mapError_eq_ok]
  exact bind_eq_ok

theorem treeOf_concat {lines : List SExpr} {line : SExpr} {root : Slot} : treeOf (lines ++ [line]) = .ok root ↔
    ∃ t, treeOf lines = .ok t ∧ Slot.insertLine line t = .ok root :=
  foldlM_concat_eq_ok

/-- The bodies under each index build a tree. -/
def Growable (parts : List (Nat × SExpr)) : Prop :=
  ∀ i, ∃ root, treeOf (Keyed.under i parts) = .ok root

/-- The tree under each index is the one that its bodies build. -/
structure Trees.Grown (parts : List (Nat × SExpr)) (trees : Trees) : Prop where
  ascending : Keyed.Ascending trees
  keys : ∀ i, i ∈ Keyed.keys trees ↔ i ∈ Keyed.keys parts
  tree : ∀ i, treeOf (Keyed.under i parts) = .ok ((Keyed.get? i trees).getD .vacant)

section
variable {parts : List (Nat × SExpr)} {trees trees' : Trees} {i j : Nat} {body : SExpr} {marker : String}

theorem under_concat_self : Keyed.under i (parts ++ [(i, body)]) = Keyed.under i parts ++ [body] := by
  rw [Keyed.under_append]
  simp [Keyed.under]

theorem under_concat_of_ne (h : i ≠ j) : Keyed.under j (parts ++ [(i, body)]) = Keyed.under j parts := by
  rw [Keyed.under_append]
  simp [Keyed.under, h]

theorem insertLine_trees_eq_ok {line : SExpr} : Trees.insertLine marker trees line = .ok trees' ↔
    ∃ i body root, IsRecordLine marker i body line ∧
      Slot.insertLine body ((Keyed.get? i trees).getD .vacant) = .ok root ∧ trees' = Keyed.putIndex i root trees := by
  simp only [Trees.insertLine, bind_eq_ok, Prod.exists, mapError_eq_ok, recordParts_eq_ok]
  constructor
  · rintro ⟨i, body, hparts, root, hroot, h⟩
    cases h
    exact ⟨i, body, root, hparts, hroot, rfl⟩
  · rintro ⟨i, body, root, hparts, hroot, rfl⟩
    exact ⟨i, body, hparts, root, hroot, rfl⟩

/-- A body that goes into the tree of its own record leaves all others as they are. -/
theorem Trees.Grown.concat (h : Trees.Grown parts trees) {root : Slot}
    (hroot : Slot.insertLine body ((Keyed.get? i trees).getD .vacant) = .ok root) :
    Trees.Grown (parts ++ [(i, body)]) (Keyed.putIndex i root trees) where
  ascending := h.ascending.putIndex i root
  keys j := by
    rw [Keyed.mem_keys_putIndex, h.keys, Keyed.keys_append, List.mem_append, or_comm]
    simp [Keyed.keys]
  tree j := by
    by_cases hj : i = j
    · subst hj
      rw [under_concat_self, Keyed.get?_putIndex_self]
      exact treeOf_concat.2 ⟨_, h.tree i, hroot⟩
    · rw [under_concat_of_ne hj, Keyed.get?_putIndex_of_ne hj]
      exact h.tree j

theorem Trees.Grown.growable (h : Trees.Grown parts trees) : Growable parts := fun i => ⟨_, h.tree i⟩

theorem Growable.of_concat {x : Nat × SExpr} (h : Growable (parts ++ [x])) : Growable parts := by
  obtain ⟨i, body⟩ := x
  intro j
  obtain ⟨root, hroot⟩ := h j
  by_cases hj : i = j
  · subst hj
    rw [under_concat_self] at hroot
    obtain ⟨t, ht, -⟩ := treeOf_concat.1 hroot
    exact ⟨t, ht⟩
  · rw [under_concat_of_ne hj] at hroot
    exact ⟨root, hroot⟩

theorem gathers_insertLine (marker : String) :
    Gathers (recordBody? marker) (Trees.insertLine marker) Growable Trees.Grown where
  shorter := Growable.of_concat
  reads {parts trees trees' line} hh hs := by
    obtain ⟨i, body, root, hparts, hroot, rfl⟩ := insertLine_trees_eq_ok.1 hs
    have hgrown := hh.concat hroot
    exact ⟨(i, body), recordBody?_eq_some.2 hparts, hgrown.growable, hgrown⟩
  accepts {parts trees line x} hh hx hg := by
    obtain ⟨i, body⟩ := x
    obtain ⟨root, hroot⟩ := hg i
    rw [under_concat_self] at hroot
    obtain ⟨t, ht, hroot⟩ := treeOf_concat.1 hroot
    rw [hh.tree i, Except.ok.injEq] at ht
    subst ht
    exact ⟨_, insertLine_trees_eq_ok.2 ⟨i, body, root, recordBody?_eq_some.1 hx, hroot, rfl⟩⟩

end

/-! ## Values -/

/-- The record of a finished tree. -/
def finished? (t : Nat × Slot) : Option (Nat × Value) :=
  t.2.finish.toOption.map (t.1, ·)

theorem finished?_eq_some {t : Nat × Slot} {r : Nat × Value} :
    finished? t = some r ↔ t.1 = r.1 ∧ t.2.finish = .ok r.2 := by
  obtain ⟨i, v⟩ := r
  rw [finished?]
  cases t.2.finish <;> simp [Except.toOption]

theorem Trees.finish_eq_ok {trees : Trees} {rs : List (Nat × Value)} :
    trees.finish = .ok rs ↔ Reads finished? trees rs := by
  induction trees generalizing rs with
  | nil => rw [Reads.nil_iff, finish, Except.ok.injEq, eq_comm]
  | cons t trees ih =>
    obtain ⟨i, root⟩ := t
    simp only [finish, bind_eq_ok, mapError_eq_ok, ih, Reads.cons_iff, finished?_eq_some]
    constructor
    · rintro ⟨v, hv, vs, hvs, h⟩
      cases h
      exact ⟨(i, v), vs, ⟨rfl, hv⟩, hvs, rfl⟩
    · rintro ⟨⟨j, v⟩, vs, ⟨rfl, hv⟩, hvs, rfl⟩
      exact ⟨v, hv, vs, hvs, rfl⟩

section
variable {parts : List (Nat × SExpr)} {trees : Trees} {rs : List (Nat × Value)} {marker : String}
  {lines : List SExpr}

/-- The tree under an index is finished as the document of the bodies there. -/
theorem Trees.Grown.decodes_iff (h : trees.Grown parts) {i : Nat} {root : Slot} (ht : (i, root) ∈ trees) {v : Value} :
    decodeDocument (Keyed.under i parts) = .ok v ↔ root.finish = .ok v := by
  have htree := h.tree i
  rw [(Keyed.get?_eq_some h.ascending.nodup).2 ht, Option.getD_some] at htree
  rw [decodeDocument_eq_ok]
  constructor
  · rintro ⟨root', hroot', hv⟩
    rw [htree, Except.ok.injEq] at hroot'
    exact hroot' ▸ hv
  · exact fun hv => ⟨root, htree, hv⟩

theorem Trees.keys_of_finish (hf : trees.finish = .ok rs) : Keyed.keys rs = Keyed.keys trees :=
  ((finish_eq_ok.1 hf).map_eq fun he => (finished?_eq_some.1 he).1).symm

theorem Trees.Grown.decodes_of_mem (h : trees.Grown parts) (hf : trees.finish = .ok rs) {i : Nat} {v : Value}
    (hm : (i, v) ∈ rs) : decodeDocument (Keyed.under i parts) = .ok v := by
  obtain ⟨⟨j, root⟩, ht, he⟩ := (finish_eq_ok.1 hf).exists_of_mem hm
  obtain ⟨rfl, hv⟩ := finished?_eq_some.1 he
  exact (h.decodes_iff ht).2 hv

theorem Trees.Grown.finish_succeeds_iff (h : trees.Grown parts) : (∃ rs, trees.finish = .ok rs) ↔
    ∀ i ∈ Keyed.keys parts, ∃ v, decodeDocument (Keyed.under i parts) = .ok v := by
  simp only [finish_eq_ok, Reads.exists_iff]
  constructor
  · intro hall i hi
    obtain ⟨⟨j, root⟩, ht, rfl⟩ := List.mem_map.1 ((h.keys i).2 hi)
    obtain ⟨r, hr⟩ := hall _ ht
    exact ⟨r.2, (h.decodes_iff ht).2 (finished?_eq_some.1 hr).2⟩
  · rintro hall ⟨i, root⟩ ht
    obtain ⟨v, hv⟩ := hall i ((h.keys i).1 (List.mem_map_of_mem ht))
    exact ⟨(i, v), finished?_eq_some.2 ⟨rfl, (h.decodes_iff ht).1 hv⟩⟩

theorem Trees.grown_nil : Trees.Grown [] [] where
  ascending := .nil
  keys _ := .rfl
  tree _ := rfl

theorem decodeRecords_eq_ok : decodeRecords marker lines = .ok rs ↔
    ∃ trees, lines.foldlM (Trees.insertLine marker) [] = .ok trees ∧ trees.finish = .ok rs := by
  rw [decodeRecords, bind_eq_ok]

/-- The trees of lines are built record by record. -/
theorem grown_of_decodeRecords (h : decodeRecords marker lines = .ok rs) : ∃ parts trees,
    Reads (recordBody? marker) lines parts ∧ Trees.Grown parts trees ∧ trees.finish = .ok rs := by
  obtain ⟨trees, ht, hf⟩ := decodeRecords_eq_ok.1 h
  obtain ⟨parts, hr, -, hg⟩ := (gathers_insertLine marker).run Trees.grown_nil (fun _ => ⟨_, rfl⟩) ht
  exact ⟨parts, trees, hr, hg, hf⟩

/-- Records are decoded if each of them is on its own. -/
theorem decodeRecords_exists_ok (hr : Reads (recordBody? marker) lines parts)
    (h : ∀ i ∈ Keyed.keys parts, ∃ v, decodeDocument (Keyed.under i parts) = .ok v) :
    ∃ rs, decodeRecords marker lines = .ok rs := by
  have hg : Growable parts := by
    intro i
    by_cases hi : i ∈ Keyed.keys parts
    · obtain ⟨v, hv⟩ := h i hi
      obtain ⟨root, hroot, -⟩ := decodeDocument_eq_ok.1 hv
      exact ⟨root, hroot⟩
    · have hnone : Keyed.under i parts = [] := by
        apply Keyed.under_eq_nil
        rintro e he rfl
        exact hi (List.mem_map_of_mem he)
      rw [hnone]
      exact ⟨_, rfl⟩
  obtain ⟨trees, ht, hgrown⟩ := (gathers_insertLine marker).run_of Trees.grown_nil hr hg
  obtain ⟨rs, hrs⟩ := hgrown.finish_succeeds_iff.2 h
  exact ⟨rs, decodeRecords_eq_ok.2 ⟨trees, ht, hrs⟩⟩

theorem ascending_of_decodeRecords (h : decodeRecords marker lines = .ok rs) : Keyed.Ascending rs := by
  obtain ⟨parts, trees, -, hg, hf⟩ := grown_of_decodeRecords h
  rw [Keyed.Ascending, Trees.keys_of_finish hf]
  exact hg.ascending

/-- Decoded records are the documents of their bodies. -/
theorem decodeDocument_of_mem (h : decodeRecords marker lines = .ok rs) {i : Nat} {v : Value} (hv : (i, v) ∈ rs) :
    decodeDocument (bodiesOf marker i lines) = .ok v := by
  obtain ⟨parts, trees, hr, hg, hf⟩ := grown_of_decodeRecords h
  rw [bodiesOf, hr.filterMap_eq]
  exact hg.decodes_of_mem hf hv

theorem mem_keys_parts (hr : Reads (recordBody? marker) lines parts) {i : Nat} :
    i ∈ Keyed.keys parts ↔ ∃ line ∈ lines, ∃ body, IsRecordLine marker i body line := by
  constructor
  · intro hi
    obtain ⟨⟨j, body⟩, hm, rfl⟩ := List.mem_map.1 hi
    obtain ⟨line, hl, he⟩ := hr.exists_of_mem hm
    exact ⟨line, hl, body, recordBody?_eq_some.1 he⟩
  · rintro ⟨line, hl, body, he⟩
    exact List.mem_map_of_mem (hr.mem_of_mem hl (recordBody?_eq_some.2 he))

theorem mem_keys_decodeRecords (h : decodeRecords marker lines = .ok rs) {i : Nat} :
    i ∈ Keyed.keys rs ↔ ∃ line ∈ lines, ∃ body, IsRecordLine marker i body line := by
  obtain ⟨parts, trees, hr, hg, hf⟩ := grown_of_decodeRecords h
  rw [Trees.keys_of_finish hf, hg.keys, mem_keys_parts hr]

end

/-- Lines are decoded as records exactly if each is a line of a record and the bodies of
each record are decoded alone, and to the values of these documents. -/
theorem records_stand_alone (marker : String) (lines : List SExpr) :
    ((∃ rs, decodeRecords marker lines = .ok rs) ↔
      (∀ line ∈ lines, ∃ i body, IsRecordLine marker i body line) ∧
      ∀ i, (∃ line ∈ lines, ∃ body, IsRecordLine marker i body line) →
        ∃ v, decodeDocument (bodiesOf marker i lines) = .ok v) ∧
    ∀ rs, decodeRecords marker lines = .ok rs → Keyed.Ascending rs ∧
      (∀ i, i ∈ Keyed.keys rs ↔ ∃ line ∈ lines, ∃ body, IsRecordLine marker i body line) ∧
      ∀ i v, (i, v) ∈ rs → decodeDocument (bodiesOf marker i lines) = .ok v := by
  have hlines : (∀ line ∈ lines, ∃ i body, IsRecordLine marker i body line) ↔
      ∃ parts, Reads (recordBody? marker) lines parts := by
    simp only [Reads.exists_iff, Prod.exists, recordBody?_eq_some]
  refine ⟨⟨?_, ?_⟩, fun rs h => ⟨ascending_of_decodeRecords h, fun _ => mem_keys_decodeRecords h,
    fun _ _ => decodeDocument_of_mem h⟩⟩
  · rintro ⟨rs, h⟩
    obtain ⟨parts, trees, hr, hg, hf⟩ := grown_of_decodeRecords h
    refine ⟨hlines.2 ⟨parts, hr⟩, fun i hi => ?_⟩
    rw [bodiesOf, hr.filterMap_eq]
    exact hg.finish_succeeds_iff.1 ⟨rs, hf⟩ i ((mem_keys_parts hr).2 hi)
  · rintro ⟨hall, hdocs⟩
    obtain ⟨parts, hr⟩ := hlines.1 hall
    refine decodeRecords_exists_ok hr fun i hi => ?_
    have hdoc := hdocs i ((mem_keys_parts hr).1 hi)
    rwa [bodiesOf, hr.filterMap_eq] at hdoc

/-- Lines of one record around an empty one, whose marker is a string. -/
def interleaved : List SExpr :=
  [.list [.symbol "json", .number "1", .list [.symbol "a", .number "0", .string "x"]],
    .list [.string "json", .number "0", .symbol emptyMapping],
    .list [.symbol "json", .number "1", .list [.symbol "b", .symbol "true"]],
    .list [.symbol "json", .number "1", .list [.symbol "a", .number "1", .symbol emptySequence]]]

theorem records_stand_alone_interleaved :
    (∀ line ∈ interleaved, ∃ i body, IsRecordLine "json" i body line) ∧
    ∃ rs, decodeRecords "json" interleaved = .ok rs ∧ Keyed.keys rs = [0, 1] ∧
      ∀ i v, (i, v) ∈ rs → decodeDocument (bodiesOf "json" i interleaved) = .ok v := by
  obtain ⟨rs, hrs, hkeys⟩ : ∃ rs, decodeRecords "json" interleaved = .ok rs ∧ Keyed.keys rs = [0, 1] := ⟨_, rfl, rfl⟩
  obtain ⟨hsucceeds, hvalues⟩ := records_stand_alone "json" interleaved
  exact ⟨(hsucceeds.1 ⟨rs, hrs⟩).1, rs, hrs, hkeys, (hvalues rs hrs).2.2⟩

end AtomLines.Json
