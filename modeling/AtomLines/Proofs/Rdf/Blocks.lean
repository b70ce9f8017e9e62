import AtomLines.Proofs.Distinct
import AtomLines.Proofs.Rdf.RoundTrip
/-!
# The blocks of a written document

The lines of a document fall into one block for each reached graph, numbered 0, 1, 2
and so on. The numbers of quoted graphs are met in this order when the lines are read:
a table of ids lists the references without those that came before.
-/

namespace AtomLines

namespace Rdf

namespace Identities

/-- A table lists what is met in the order of first occurrences. -/
theorem order_meetAll {ids : Identities} (h : ids.order.Nodup) (references : List GraphId) :
    (ids.meetAll references).order = (ids.order ++ references).eraseDups := by
  induction references using List.reverseRecOn with
  | nil => rw [List.append_nil, eraseDups_of_nodup h]; rfl
  | append_singleton references g ih =>
    have hm : g ∈ (ids.meetAll references).order ↔ g ∈ ids.order ++ references := by
      rw [mem_order_meetAll, List.mem_append]
    have hl : ids.meetAll (references ++ [g]) = (ids.meetAll references).meet g := meetAll_append ids references [g]
    rw [hl, ← List.append_assoc, eraseDups_concat, ← ih]
    by_cases hg : g ∈ ids.order ++ references
    · rw [if_pos hg, meet_of_mem (hm.2 hg)]
    · rw [if_neg hg, order_meet_of_notMem (mt hm.1 hg)]

end Identities

/-! ## Blocks -/

/-- The lines of a graph under a number: one for each triple in their order, with the
numbers of the graphs that it refers to. An empty quoted graph has its label only, and
the empty asserted graph nothing. -/
def Graph.block (ns : Namespaces) (number : GraphId → GraphId) (k : Nat) (g : Graph) : List SExpr :=
  let label : SExpr := .list [.symbol "Graph", .ofIndex k]
  if g.isEmpty && g.id ≠ .top then [.list [label]]
  else g.triples.map fun t => .list [label, (t.mapGraph number).atom ns]

/-- The numbers of the graphs that a line refers to, from left to right. -/
def lineReferences : SExpr → List Nat
  | .list [_, .list terms] => terms.filterMap fun e => (GraphId.ofAtom? e).map UInt64.toNat
  | _ => []

theorem GraphId.ofAtom?_atom (ns : Namespaces) (x : Term) : GraphId.ofAtom? (x.atom ns) = x.graph? := by
  cases x with
  | graph id =>
    rw [Term.atom, GraphId.atom, GraphId.ofAtom?, if_pos rfl, SExpr.index?_ofIndex id.toNat_lt, Option.map_some,
      UInt64.ofNat_toNat]
    rfl
  | _ => rfl

theorem lineReferences_statement (ns : Namespaces) (label : SExpr) (t : Triple) :
    lineReferences (.list [label, t.atom ns]) = t.references.map UInt64.toNat := by
  have ht : t.atom ns = .list (t.terms.map (Term.atom ns)) := rfl
  rw [ht, lineReferences, List.filterMap_map, Triple.references, List.map_filterMap]
  exact List.filterMap_congr fun x _ => by rw [Function.comp_apply, GraphId.ofAtom?_atom]

theorem Graph.lineReferences_block (ns : Namespaces) (number : GraphId → GraphId) (k : Nat) (g : Graph) :
    (g.block ns number k).flatMap lineReferences = g.references.map fun r => (number r).toNat := by
  rw [block]
  split
  · rename_i h
    rw [Bool.and_eq_true] at h
    rw [references_of_isEmpty h.1]
    rfl
  · rw [List.flatMap_map, references, List.map_flatMap]
    refine List.flatMap_congr fun t _ => ?_
    rw [lineReferences_statement, Triple.references_mapGraph, List.map_map]
    rfl

/-- The lines of a renumbered graph are its block. -/
theorem Graph.lines_renumbered (ns : Namespaces) {ids : Identities} (ho : ids.Ordered) {g : Graph}
    (hg : g.id ∈ ids.order) :
    (g.renumbered ids).entries.map (Entry.line ns) = g.block ns ids.rename (ids.rename g.id).toNat := by
  have ht : (g.renumbered ids).id = .top ↔ g.id = .top := ho.rename_eq_top hg
  have hi : (g.renumbered ids).isEmpty = g.isEmpty := by simp [isEmpty, renumbered, mapGraph]
  simp only [entries, hi, ne_eq, ht, block]
  split
  · rfl
  · simp only [renumbered, mapGraph, List.map_map]
    rfl

namespace Document

variable {d : Document} {ids ids' : Identities} {lines : List SExpr} {done todo : List GraphId}

/-! ## The order of a run -/

/-- A run lists the references of the graphs that it writes, in the order in which it
writes them. -/
theorem Progress.order_flattenFrom (h : d.Progress ids done todo) (hf : d.flattenFrom ids = .ok (lines, ids')) :
    ∃ rest, ids'.order = done ++ rest ∧
      ids'.order = (ids.meetAll ((rest.filterMap d.graph?).flatMap Graph.references)).order := by
  fun_induction flattenFrom d ids generalizing done todo lines ids' with
  | case1 ids hp =>
    cases hf
    rw [h.pending?_eq, List.head?_eq_none_iff] at hp
    exact ⟨[], hp ▸ h.order, rfl⟩
  | case2 => cases hf
  | case3 => cases hf
  | case4 ids source hp g hg step _ lines' ids'' he =>
    rename_i ih
    cases hf
    obtain ⟨todo, rfl⟩ := List.head?_eq_some_iff.1 (h.pending?_eq ▸ hp)
    obtain ⟨more, hs⟩ := h.step hg
    rw [← Graph.emit_snd d.namespaces] at hs
    obtain ⟨rest, ho, hm⟩ := ih hs he
    have horder : (step.2.markFlattened source).order = (ids.meetAll g.references).order := by
      rw [Identities.order_markFlattened, Graph.emit_snd]
    refine ⟨source :: rest, by rw [ho, List.append_assoc, List.singleton_append], ?_⟩
    have hn : (ids.meetAll g.references).order.Nodup := Identities.nodup_meetAll h.ordered.nodup _
    rw [hm, Identities.order_meetAll (horder ▸ hn), horder, ← Identities.order_meetAll hn,
      ← Identities.meetAll_append, List.filterMap_cons_some hg, List.flatMap_cons]

/-- The graphs that the written ones refer to. -/
def writtenReferences (d : Document) (ids : Identities) : List GraphId :=
  (ids.order.filterMap d.graph?).flatMap Graph.references

/-- Quoted graphs are numbered in the order in which the written graphs first refer to
them. -/
theorem order_flatten (hf : d.flatten = .ok (lines, ids)) :
    ids.order = .top :: (d.writtenReferences ids).eraseDups := by
  obtain ⟨hd, hrun⟩ := flatten_eq_ok.1 hf
  have hn := numbered_of_flatten hf
  obtain ⟨rest, ho, hm⟩ := (Progress.start d).order_flattenFrom hrun
  rw [List.nil_append] at ho
  have hm : ids.order = (GraphId.top :: d.writtenReferences ids).eraseDups := by
    rw [← ho, Identities.order_meetAll Identities.Ordered.start.nodup] at hm
    exact hm
  -- No reached graph refers to the asserted one, which is met before all others.
  have hne : ∀ r ∈ d.writtenReferences ids, (!(r == GraphId.top)) = true := by
    intro r hr
    obtain ⟨g, hg, hr⟩ := List.mem_flatMap.1 hr
    obtain ⟨source, hs, hg⟩ := List.mem_filterMap.1 hg
    simpa using hd.ne_top ((hn.mem_order source).1 hs) ((refers_of_graph? hg).2 hr)
  rwa [List.eraseDups_cons, List.filter_eq_self.2 hne] at hm

/-! ## The lines -/

/-- How a document is written: graph by graph, each under its place in `gs` as number. -/
structure Written (d : Document) (gs : List Graph) (ids : Identities) (lines : List SExpr) : Prop where
  stored : ∀ g ∈ gs, d.graph? g.id = some g
  nodup : (gs.map Graph.id).Nodup
  mem : ∀ id, id ∈ gs.map Graph.id ↔ d.Reachable id
  /-- One block for each graph, in the order of the numbers. -/
  blocks : lines = gs.zipIdx.flatMap fun (g, k) => g.block d.namespaces ids.rename k
  /-- The first occurrences of references, from left to right. -/
  references : (lines.flatMap lineReferences).eraseDups = List.range' 1 (gs.length - 1)
  flattened : ∀ g k, gs[k]? = some g → ∃ id, ids.state? g.id = some (.flattened id) ∧ id.toNat = k
  unreached : ∀ id, ¬ d.Reachable id → ids.state? id = none

/-- The place of a written graph is its number. -/
theorem Numbered.number_of_getElem? (hn : d.Numbered ids) (hd : d.Sound) (ht : GraphId.top ∈ d.ids) {g : Graph}
    {k : Nat} (h : (ids.order.filterMap d.graph?)[k]? = some g) :
    g.id ∈ ids.order ∧ (ids.rename g.id).toNat = k := by
  have hk : ids.order[k]? = some g.id := by
    rw [← hn.map_id_filterMap hd ht, List.getElem?_map, h, Option.map_some]
  obtain ⟨hl, hg⟩ := List.getElem?_eq_some_iff.1 hk
  have hm : g.id ∈ ids.order := hg ▸ List.getElem_mem hl
  refine ⟨hm, ?_⟩
  rw [hn.ordered.toNat_rename hm, ← hg, hn.ordered.nodup.idxOf_getElem]

theorem Numbered.lines_eq_blocks (hn : d.Numbered ids) (hd : d.Sound) (ht : GraphId.top ∈ d.ids) :
    graphLines d.namespaces (d.renumbered ids ids.order) =
      (ids.order.filterMap d.graph?).zipIdx.flatMap fun (g, k) => g.block d.namespaces ids.rename k := by
  have hblock : ∀ p ∈ (ids.order.filterMap d.graph?).zipIdx,
      (p.1.renumbered ids).entries.map (Entry.line d.namespaces) = p.1.block d.namespaces ids.rename p.2 := by
    intro p hp
    obtain ⟨hm, hk⟩ := hn.number_of_getElem? hd ht (List.mem_zipIdx_iff_getElem?.1 hp)
    rw [Graph.lines_renumbered _ hn.ordered hm, hk]
  have hfst := List.zipIdx_map_fst 0 (ids.order.filterMap d.graph?)
  calc graphLines d.namespaces (d.renumbered ids ids.order)
      = (ids.order.filterMap d.graph?).flatMap fun g => (g.renumbered ids).entries.map (Entry.line d.namespaces) := by
        rw [graphLines, renumbered, List.flatMap_map, List.map_flatMap]
    _ = (ids.order.filterMap d.graph?).zipIdx.flatMap
          fun p => (p.1.renumbered ids).entries.map (Entry.line d.namespaces) := by
        conv_lhs => rw [← hfst, List.flatMap_map]
    _ = _ := List.flatMap_congr hblock

/-- The references in the lines, as the numbers that they are written with. -/
theorem Numbered.lineReferences_lines (hn : d.Numbered ids) (hd : d.Sound) (ht : GraphId.top ∈ d.ids) :
    (graphLines d.namespaces (d.renumbered ids ids.order)).flatMap lineReferences =
      (d.writtenReferences ids).map fun r => (ids.rename r).toNat := by
  have hfst := List.zipIdx_map_fst 0 (ids.order.filterMap d.graph?)
  rw [hn.lines_eq_blocks hd ht, List.flatMap_assoc, writtenReferences, List.map_flatMap, ← hfst, List.flatMap_map, hfst]
  exact List.flatMap_congr fun p _ => p.1.lineReferences_block ..

theorem Numbered.first_references (hn : d.Numbered ids) (hd : d.Sound) (ht : GraphId.top ∈ d.ids)
    (ho : ids.order = .top :: (d.writtenReferences ids).eraseDups) :
    ((graphLines d.namespaces (d.renumbered ids ids.order)).flatMap lineReferences).eraseDups =
      List.range' 1 (ids.order.length - 1) := by
  have hmem : ∀ r ∈ d.writtenReferences ids, r ∈ ids.order := by
    intro r hr
    rw [ho]
    exact List.mem_cons_of_mem _ (List.mem_eraseDups.2 hr)
  have hinj : ∀ a ∈ d.writtenReferences ids, ∀ b ∈ d.writtenReferences ids,
      (ids.rename a).toNat = (ids.rename b).toNat → a = b :=
    fun a ha b hb e => hn.ordered.rename_inj (hmem a ha) (hmem b hb) (UInt64.toNat_inj.1 e)
  have hrange : (ids.order.map fun g => (ids.rename g).toNat).tail = List.range' 1 (ids.order.length - 1) := by
    rw [hn.ordered.map_toNat_rename, List.range_eq_range', List.tail_range']
  rw [hn.lineReferences_lines hd ht, eraseDups_map hinj, ← hrange, ← List.map_tail]
  conv_rhs => rw [ho, List.tail_cons]

theorem Numbered.state?_of_mem (hn : d.Numbered ids) {id : GraphId} (h : id ∈ ids.order) :
    ids.state? id = some (.flattened (ids.rename id)) := by
  rw [Identities.state?_of_mem h, if_pos ((hn.flattened id).2 h)]

/-- A document whose references are sound is written without an error: one block for
each reached graph, numbered from 0 on, the references met in the order of the numbers,
and all these graphs and no others with a state in the table. -/
theorem flatten_in_blocks (ht : GraphId.top ∈ d.ids) {reached : List GraphId} (h : d.checkReferences = .ok reached) :
    ∃ gs ids lines, d.flatten = .ok (lines, ids) ∧ d.Written gs ids lines := by
  have hd := checkReferences_succeeds.1 ⟨reached, h⟩
  obtain ⟨ids, hf, hn⟩ := flatten_ok hd ht
  have hid := hn.map_id_filterMap hd ht
  have hl : (ids.order.filterMap d.graph?).length = ids.order.length := by rw [← List.length_map Graph.id, hid]
  exact ⟨ids.order.filterMap d.graph?, ids, _, hf, {
    stored := by
      intro g hg
      obtain ⟨source, -, hs⟩ := List.mem_filterMap.1 hg
      rw [id_of_graph? hs, hs]
    nodup := by
      rw [hid]
      exact hn.ordered.nodup
    mem := by
      rw [hid]
      exact hn.mem_order
    blocks := hn.lines_eq_blocks hd ht
    references := by rw [hn.first_references hd ht (order_flatten hf), hl]
    flattened := by
      intro g k hg
      obtain ⟨hm, hk⟩ := hn.number_of_getElem? hd ht hg
      exact ⟨_, hn.state?_of_mem hm, hk⟩
    unreached := fun id hr => Identities.state?_of_notMem (mt (hn.mem_order id).1 hr) }⟩

theorem flatten_in_blocks_odd :
    GraphId.top ∈ oddDocument.ids ∧ oddDocument.checkReferences = .ok [0, 9, 4] ∧
      ∃ gs ids lines, oddDocument.flatten = .ok (lines, ids) ∧ oddDocument.Written gs ids lines ∧
        lines.length = 4 ∧ ids.order = [0, 9, 4] := by
  have ht : GraphId.top ∈ oddDocument.ids := List.mem_cons_self ..
  have hc : oddDocument.checkReferences = .ok [0, 9, 4] := by cbv
  obtain ⟨gs, ids, lines, hf, hw⟩ := flatten_in_blocks ht hc
  have hl : oddDocument.flatten.map (fun r => (r.1.length, r.2.order)) = .ok (4, [0, 9, 4]) := by cbv
  rw [hf] at hl
  obtain ⟨hlength, horder⟩ := Prod.mk.inj (Except.ok.inj hl)
  exact ⟨ht, hc, gs, ids, lines, hf, hw, hlength, horder⟩

end Document

end Rdf

end AtomLines
