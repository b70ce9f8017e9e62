import AtomLines.Proofs.Rdf.Blocks
import AtomLines.Proofs.Rdf.Renaming
import AtomLines.Proofs.Rdf.Sameness
/-!
# Canonical forms of documents that are the same

Documents that differ only in the order of their graphs and triples need not have the
same canonical form: the numbers follow the order of references. The two forms are the
same after one of them has been renumbered, and they are the same as they are if every
graph meets the graphs that it refers to in the same order in both documents.
-/

namespace AtomLines.Rdf

variable {f : GraphId → GraphId} {s : Set GraphId}

/-! ## Renumbered triples -/

theorem Term.mapGraph_inj (hf : Set.InjOn f s) {x y : Term} (hx : ∀ r, x.graph? = some r → r ∈ s)
    (hy : ∀ r, y.graph? = some r → r ∈ s) (e : x.mapGraph f = y.mapGraph f) : x = y := by
  cases x with
  | graph a =>
    cases y with
    | graph b => rw [hf (hx a rfl) (hy b rfl) (Term.graph.inj e)]
    | _ => cases e
  | _ =>
    cases y with
    | graph b => cases e
    | _ => exact e

theorem Triple.mapGraph_inj (hf : Set.InjOn f s) {t u : Triple} (ht : ∀ r ∈ t.references, r ∈ s)
    (hu : ∀ r ∈ u.references, r ∈ s) (e : t.mapGraph f = u.mapGraph f) : t = u := by
  have hx : ∀ x ∈ t.terms, ∀ y ∈ u.terms, x.mapGraph f = y.mapGraph f → x = y := fun x hx y hy =>
    Term.mapGraph_inj hf (fun r hr => ht r (Entry.mem_references_of_mem_terms hx hr))
      fun r hr => hu r (Entry.mem_references_of_mem_terms hy hr)
  obtain ⟨es, ep, eo⟩ := Triple.mk.inj e
  obtain ⟨s, p, o⟩ := t
  obtain ⟨s', p', o'⟩ := u
  rw [hx s (by simp [terms]) s' (by simp [terms]) es, hx p (by simp [terms]) p' (by simp [terms]) ep,
    hx o (by simp [terms]) o' (by simp [terms]) eo]

theorem Graph.insertAll_of_nodup {g : Graph} {ts : List Triple} (h : (g.triples ++ ts).Nodup) :
    g.insertAll ts = ⟨g.id, g.triples ++ ts⟩ := by
  induction ts generalizing g with
  | nil => simp [insertAll]
  | cons t ts ih =>
    have ht : t ∉ g.triples := fun hm => (List.nodup_append.1 h).2.2 t hm t List.mem_cons_self rfl
    have hi : g.insert t = ⟨g.id, g.triples ++ [t]⟩ := if_neg ht
    rw [List.append_cons] at h ⊢
    rw [insertAll, List.foldl_cons, ← insertAll, hi, ih h]

theorem Graph.distinct_of_nodup {g : Graph} (h : g.triples.Nodup) : g.distinct = g := insertAll_of_nodup h

theorem Graph.nodup_renamed {g : Graph} (hf : Set.InjOn f s) (hr : ∀ r ∈ g.references, r ∈ s)
    (hn : g.triples.Nodup) : (g.renamed f).triples.Nodup := by
  have hs : ∀ t ∈ g.triples, ∀ r ∈ t.references, r ∈ s := fun t ht r h => hr r (mem_references.2 ⟨t, ht, h⟩)
  exact hn.map_on fun t ht u hu => Triple.mapGraph_inj hf (hs t ht) (hs u hu)

theorem Graph.renamed_renamed {f' f'' : GraphId → GraphId} {g : Graph} (hid : f' (f g.id) = f'' g.id)
    (hr : ∀ r ∈ g.references, f' (f r) = f'' r) : (g.renamed f).renamed f' = g.renamed f'' := by
  show Graph.mk (f' (f g.id)) ((g.renamed f).mapGraph f').triples = _
  rw [hid, mapGraph_renamed hr, renamed]

namespace Identities

variable {ids : Identities}

/-- References after their first occurrence change nothing. -/
theorem meetAll_eraseDups (references : List GraphId) : ids.meetAll references.eraseDups = ids.meetAll references := by
  induction references using List.reverseRecOn with
  | nil => rfl
  | append_singleton references g ih =>
    have hl : ∀ rs, ids.meetAll (rs ++ [g]) = (ids.meetAll rs).meet g := fun rs => meetAll_append ids rs [g]
    rw [eraseDups_concat, hl]
    split
    · rename_i hg
      rw [ih, meet_of_mem (mem_order_meetAll.2 (.inr hg))]
    · rw [hl, ih]

/-- The graph with a number. -/
def source (ids : Identities) (number : GraphId) : GraphId :=
  (ids.order[number.toNat]?).getD number

theorem Ordered.source_rename (h : ids.Ordered) {g : GraphId} (hg : g ∈ ids.order) : ids.source (ids.rename g) = g := by
  rw [source, h.toNat_rename hg, List.getElem?_idxOf hg, Option.getD_some]

end Identities

/-! ## The reached graphs under other ids -/

namespace Document

/-- A document with other ids for its graphs. -/
def renamed (f : GraphId → GraphId) (d : Document) : Document :=
  ⟨d.graphs.map (Graph.renamed f), d.namespaces⟩

/-- The graphs of an order under other ids. -/
def picture (d : Document) (f : GraphId → GraphId) (order : List GraphId) : Document :=
  ⟨(order.filterMap d.graph?).map (Graph.renamed f), d.namespaces⟩

section
variable {d : Document} {ids : Identities}

theorem renamed_picture {f' f'' : GraphId → GraphId} (hn : d.Numbered ids) (h : ∀ a, d.Reachable a → f' (f a) = f'' a) :
    (d.picture f ids.order).renamed f' = d.picture f'' ids.order := by
  rw [renamed, picture, picture, List.map_map]
  congr 1
  refine List.map_congr_left fun g hg => ?_
  obtain ⟨a, ha, hg⟩ := List.mem_filterMap.1 hg
  obtain rfl := id_of_graph? hg
  have hr := (hn.mem_order g.id).1 ha
  exact Graph.renamed_renamed (h g.id hr) fun r hm => h r (hr.of_mem_references hg hm)

theorem ids_picture (hn : d.Numbered ids) (hd : d.Sound) (ht : GraphId.top ∈ d.ids) :
    (d.picture f ids.order).ids = ids.order.map f := by
  conv_rhs => rw [← hn.map_id_filterMap hd ht]
  rw [picture, Document.ids, List.map_map, List.map_map]
  rfl

theorem mem_ids_picture (hn : d.Numbered ids) (hd : d.Sound) (ht : GraphId.top ∈ d.ids) {id : GraphId} :
    id ∈ (d.picture f ids.order).ids ↔ ∃ a, d.Reachable a ∧ f a = id := by
  rw [ids_picture hn hd ht, List.mem_map]
  simp only [hn.mem_order]

theorem wellFormed_picture (hn : d.Numbered ids) (hd : d.Sound) (hw : d.WellFormed) (hf : Set.InjOn f {g | d.Reachable g})
    (hft : f .top = .top) : (d.picture f ids.order).WellFormed := by
  refine ⟨?_, ?_, fun g' hg' => ?_, hw.labels⟩
  · rw [ids_picture hn hd hw.top_mem, List.head?_map, hn.ordered.top, Option.map_some, hft]
  · rw [ids_picture hn hd hw.top_mem]
    exact hn.ordered.nodup.map_on fun a ha b hb => hf ((hn.mem_order a).1 ha) ((hn.mem_order b).1 hb)
  · obtain ⟨g, hg, rfl⟩ := List.mem_map.1 hg'
    obtain ⟨a, ha, hg⟩ := List.mem_filterMap.1 hg
    have hr := (hn.mem_order a).1 ha
    exact Graph.nodup_renamed hf (fun r hm => hr.of_mem_references hg hm) (hw.nodup_of_graph? hg)

/-- The graphs of an order under other ids are the document under these ids. -/
theorem renaming_picture (hn : d.Numbered ids) (hd : d.Sound) (hw : d.WellFormed)
    (hf : Set.InjOn f {g | d.Reachable g}) (hft : f .top = .top) : Renaming f d (d.picture f ids.order) where
  top := hft
  injOn := hf
  graph := by
    intro a ha
    obtain ⟨g, hg⟩ := Option.isSome_iff_exists.1 (hd.isSome_graph? hw.top_mem ha)
    obtain rfl := id_of_graph? hg
    have hm : g.renamed f ∈ (d.picture f ids.order).graphs :=
      List.mem_map_of_mem (List.mem_filterMap.2 ⟨g.id, (hn.mem_order g.id).2 ha, hg⟩)
    rw [hg, Option.map_some]
    exact (wellFormed_picture hn hd hw hf hft).graph?_of_mem hm
  namespaces := rfl

theorem contains_picture (hn : d.Numbered ids) (hd : d.Sound) (hw : d.WellFormed)
    (hf : Set.InjOn f {g | d.Reachable g}) (hft : f .top = .top) {a : GraphId} (ha : d.Reachable a) {t : Triple} :
    (d.picture f ids.order).contains (f a) t = true ↔ ∃ u, d.contains a u = true ∧ u.mapGraph f = t := by
  obtain ⟨g, hg⟩ := Option.isSome_iff_exists.1 (hd.isSome_graph? hw.top_mem ha)
  have hfind := (renaming_picture hn hd hw hf hft).graph a ha
  rw [hg, Option.map_some] at hfind
  rw [contains_of_graph? hfind, Graph.renamed, Graph.mapGraph, List.mem_map]
  simp only [contains_of_graph? hg]

theorem Numbered.injOn_rename (hn : d.Numbered ids) : Set.InjOn ids.rename {g | d.Reachable g} :=
  fun a ha b hb => hn.ordered.rename_inj ((hn.mem_order a).2 ha) ((hn.mem_order b).2 hb)

/-- Of a well-formed document the canonical form is the picture under its numbers. -/
theorem Numbered.canonical_eq (hn : d.Numbered ids) (hw : d.WellFormed) :
    d.canonical ids = d.picture ids.rename ids.order := by
  rw [canonical, renumbered, picture]
  congr 1
  conv_rhs => rw [← List.map_id (List.map _ _)]
  refine List.map_congr_left fun g' hg' => ?_
  obtain ⟨g, hg, rfl⟩ := List.mem_map.1 hg'
  obtain ⟨a, ha, hg⟩ := List.mem_filterMap.1 hg
  have hr := (hn.mem_order a).1 ha
  exact Graph.distinct_of_nodup
    (Graph.nodup_renamed hn.injOn_rename (fun r hm => hr.of_mem_references hg hm) (hw.nodup_of_graph? hg))

theorem Numbered.canonical_renumbered (hn : d.Numbered ids) (hw : d.WellFormed) :
    d.canonical ids = ⟨d.renumbered ids ids.order, d.namespaces⟩ := hn.canonical_eq hw

theorem canonicalize_eq_picture (hw : d.WellFormed) (hd : d.Sound) :
    ∃ lines ids, d.flatten = .ok (lines, ids) ∧ d.Numbered ids ∧
      d.canonicalize = .ok (d.picture ids.rename ids.order) := by
  obtain ⟨ids, hf, hn⟩ := flatten_ok hd hw.top_mem
  exact ⟨_, ids, hf, hn, by rw [hn.canonicalize_eq hd hw.top_mem hf, ← hn.canonical_eq hw, canonical]⟩

end

/-! ## Canonical forms -/

variable {d d' : Document} {ids ids' : Identities}

/-- The same ids put documents that hold the same in pictures that hold the same. -/
theorem Alike.same_picture (h : Alike d d') (hn : d.Numbered ids) (hn' : d'.Numbered ids') (hd : d.Sound)
    (hw : d.WellFormed) (hw' : d'.WellFormed) (hf : Set.InjOn f {g | d.Reachable g}) (hft : f .top = .top) :
    (d.picture f ids.order).same (d'.picture f ids'.order) = true := by
  have hd' := h.sound hd
  have hf' : Set.InjOn f {g | d'.Reachable g} := h.reachable_eq ▸ hf
  have hids : ∀ id, id ∈ (d.picture f ids.order).ids ↔ id ∈ (d'.picture f ids'.order).ids := by
    intro id
    rw [mem_ids_picture hn hd hw.top_mem, h.reachable_eq,
      mem_ids_picture hn' hd' hw'.top_mem]
  rw [same_iff_alike (wellFormed_picture hn hd hw hf hft) (wellFormed_picture hn' hd' hw' hf' hft)]
  refine ⟨h.own, h.prefixes, hids, fun id t => ?_⟩
  by_cases hid : id ∈ (d.picture f ids.order).ids
  · obtain ⟨a, ha, rfl⟩ := (mem_ids_picture hn hd hw.top_mem).1 hid
    rw [Bool.eq_iff_iff, contains_picture hn hd hw hf hft ha,
      contains_picture hn' hd' hw' hf' hft (h.reachable_eq ▸ ha)]
    simp only [h.contains]
  · rw [contains_of_notMem hid, contains_of_notMem (mt (hids id).2 hid)]

/-! ## The same order of references -/

/-- Every reached graph refers to the same graphs in the same order of first
references. -/
def InStep (d d' : Document) : Prop :=
  ∀ id g g', d.Reachable id → d.graph? id = some g → d'.graph? id = some g' →
    g.references.eraseDups = g'.references.eraseDups

/-- Runs of documents in step number the graphs alike. -/
theorem InStep.flattenFrom (hs : InStep d d') (hd' : ∀ id, d.Reachable id → (d'.graph? id).isSome)
    {done todo : List GraphId} (h : d.Progress ids done todo) {lines : List SExpr}
    (hf : d.flattenFrom ids = .ok (lines, ids')) : (d'.flattenFrom ids).map Prod.snd = .ok ids' := by
  fun_induction Document.flattenFrom d ids generalizing done todo lines ids' with
  | case1 ids hp =>
    cases hf
    rw [flattenFrom_end hp]
    rfl
  | case2 => cases hf
  | case3 => cases hf
  | case4 ids source hp g hg step _ lines' ids'' he =>
    rename_i ih
    cases hf
    obtain ⟨todo, rfl⟩ := List.head?_eq_some_iff.1 (h.pending?_eq ▸ hp)
    have hr : d.Reachable source := h.reachable source (by simp [h.order])
    obtain ⟨g', hg'⟩ := Option.isSome_iff_exists.1 (hd' source hr)
    obtain ⟨more, hnext⟩ := h.step hg
    rw [← Graph.emit_snd d.namespaces] at hnext
    have hstep : (g'.emit d'.namespaces ids).2 = step.2 := by
      rw [Graph.emit_snd, Graph.emit_snd, ← Identities.meetAll_eraseDups, ← hs source g g' hr hg hg',
        Identities.meetAll_eraseDups]
    rw [flattenFrom_next hp hg', hstep, ← ih hnext he]
    cases d'.flattenFrom (step.2.markFlattened source) <;> rfl

theorem InStep.flatten (hs : InStep d d') (h : Alike d d') (ht' : GraphId.top ∈ d'.ids) {lines lines' : List SExpr}
    (hf : d.flatten = .ok (lines, ids)) (hf' : d'.flatten = .ok (lines', ids')) : ids' = ids := by
  obtain ⟨hd, hrun⟩ := flatten_eq_ok.1 hf
  obtain ⟨hd', hrun'⟩ := flatten_eq_ok.1 hf'
  have hsnd := hs.flattenFrom (fun id hr => hd'.isSome_graph? ht' (h.reachable_eq ▸ hr)) (.start d) hrun
  rw [hrun'] at hsnd
  exact Except.ok.inj hsnd

/-- Documents that are the same have the same canonical form up to its numbers. The
numbers are the same too if every graph meets the graphs that it refers to in the same
order. -/
theorem canonicalize_of_same (hw : d.WellFormed) (hw' : d'.WellFormed) (hs : d.same d' = true)
    {reached : List GraphId} (hc : d.checkReferences = .ok reached) :
    ∃ c c', d.canonicalize = .ok c ∧ d'.canonicalize = .ok c' ∧
      (∃ f, f .top = .top ∧ Set.InjOn f {id | id ∈ c.ids} ∧ (c.renamed f).same c' = true) ∧
      (InStep d d' → c.same c' = true) := by
  have h := (same_iff_alike hw hw').1 hs
  have hd := checkReferences_succeeds.1 ⟨reached, hc⟩
  have hd' := h.sound hd
  obtain ⟨lines, ids, hf, hn, hcan⟩ := canonicalize_eq_picture hw hd
  obtain ⟨lines', ids', hf', hn', hcan'⟩ := canonicalize_eq_picture hw' hd'
  have hinj : Set.InjOn ids'.rename {a | d.Reachable a} := h.reachable_eq ▸ hn'.injOn_rename
  -- Under the numbers of the second document both pictures hold the same.
  have hsame := h.same_picture hn hn' hd hw hw' hinj hn'.ordered.rename_top
  have hback : ∀ a, d.Reachable a → (ids'.rename ∘ ids.source) (ids.rename a) = ids'.rename a := by
    intro a ha
    rw [Function.comp_apply, hn.ordered.source_rename ((hn.mem_order a).2 ha)]
  refine ⟨_, _, hcan, hcan', ⟨ids'.rename ∘ ids.source, ?_, ?_, ?_⟩, fun hstep => ?_⟩
  · have htop := hback .top .refl
    rwa [hn.ordered.rename_top, hn'.ordered.rename_top] at htop
  · intro x hx y hy e
    obtain ⟨a, ha, rfl⟩ := (mem_ids_picture hn hd hw.top_mem).1 hx
    obtain ⟨b, hb, rfl⟩ := (mem_ids_picture hn hd hw.top_mem).1 hy
    rw [hback a ha, hback b hb] at e
    rw [hinj ha hb e]
  · rw [renamed_picture hn hback]
    exact hsame
  · obtain rfl := hstep.flatten h hw'.top_mem hf hf'
    exact hsame

def stating (object : Term) : Triple := ⟨.iri .xsdString, .iri .xsdInteger, object⟩

/-- Asserted triples, and two quoted graphs with one triple each. -/
def quoting (asserted : List Triple) (first second : Term) : Document where
  graphs := [⟨.top, asserted⟩, ⟨1, [stating first]⟩, ⟨2, [stating second]⟩]
  namespaces := .empty

theorem wellFormed_quoting {asserted : List Triple} (h : asserted.Nodup) (first second : Term) :
    (quoting asserted first second).WellFormed := by
  have hids : [GraphId.top, 1, 2].Nodup := by decide
  refine ⟨rfl, hids, ?_, List.nodup_nil⟩
  simp [quoting, h]

/-- A triple without references goes to another place. -/
theorem canonicalize_of_same_moved :
    let a : Term := .iri .xsdString
    let b : Term := .iri .xsdInteger
    let d := quoting [stating a, stating (.graph 2), stating (.graph 1)] a b
    let d' := quoting [stating (.graph 2), stating (.graph 1), stating a] a b
    d.WellFormed ∧ d'.WellFormed ∧ d.same d' = true ∧ d.checkReferences = .ok [0, 1, 2] ∧ InStep d d' ∧
      ∃ c c', d.canonicalize = .ok c ∧ d'.canonicalize = .ok c' ∧ c.same c' = true := by
  intro a b d d'
  have hw : d.WellFormed := wellFormed_quoting (by decide +kernel) a b
  have hw' : d'.WellFormed := wellFormed_quoting (by decide +kernel) a b
  have hs : d.same d' = true := by decide +kernel
  have hc : d.checkReferences = .ok [0, 1, 2] := by cbv
  have hstep : InStep d d' := by
    intro id g g' hr hg hg'
    have hid : id = 0 ∨ id = 1 ∨ id = 2 := by simpa using ((checkReferences_ok hc).2 id).2 hr
    rcases hid with rfl | rfl | rfl <;> cases hg <;> cases hg' <;> rfl
  obtain ⟨c, c', hcan, hcan', -, hsame⟩ := canonicalize_of_same hw hw' hs hc
  exact ⟨hw, hw', hs, hc, hstep, c, c', hcan, hcan', hsame hstep⟩

/-- Two references change places, and the quoted graphs change numbers. -/
theorem canonicalize_of_same_swapped :
    let a : Term := .iri .xsdString
    let b : Term := .iri .xsdInteger
    let d := quoting [stating (.graph 1), stating (.graph 2)] a b
    let d' := quoting [stating (.graph 2), stating (.graph 1)] a b
    d.WellFormed ∧ d'.WellFormed ∧ d.same d' = true ∧ d.checkReferences = .ok [0, 2, 1] ∧
      d.canonicalize = .ok d ∧ d'.canonicalize = .ok (quoting [stating (.graph 1), stating (.graph 2)] b a) ∧
      d.same (quoting [stating (.graph 1), stating (.graph 2)] b a) = false := by
  intro a b d d'
  exact ⟨wellFormed_quoting (by decide +kernel) a b, wellFormed_quoting (by decide +kernel) a b,
    by decide +kernel, by cbv, by cbv, by cbv, by decide +kernel⟩

end Document

end AtomLines.Rdf
