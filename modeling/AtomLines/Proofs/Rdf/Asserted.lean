import AtomLines.Proofs.Rdf.Canonical
import AtomLines.Proofs.Rdf.Contents
/-!
# Documents that assert no quoted graph

If no asserted triple refers to a quoted graph, only the asserted graph is reached. The
document is sound whatever its other graphs are, and only the asserted triples are
written, with their terms as they are.
-/

namespace AtomLines.Rdf

theorem Triple.mapGraph_eq_self {f : GraphId → GraphId} {t : Triple} (h : t.references = []) : t.mapGraph f = t := by
  have hx : ∀ x ∈ t.terms, x.mapGraph f = x := by
    intro x hx
    cases x with
    | graph r =>
      have hr : r ∈ t.references := Entry.mem_references_of_mem_terms hx rfl
      rw [h] at hr
      cases hr
    | _ => rfl
  obtain ⟨s, p, o⟩ := t
  rw [mapGraph, hx s (by simp [terms]), hx p (by simp [terms]), hx o (by simp [terms])]

theorem Graph.references_eq_nil {g : Graph} : g.references = [] ↔ ∀ t ∈ g.triples, t.references = [] := by
  rw [references, List.flatMap_eq_nil_iff]

theorem Graph.entries_of_top {g : Graph} (h : g.id = .top) : g.entries = g.triples.map (.statement .top) := by
  simp [entries, h]

namespace Document

variable {d : Document} {ids : Identities}

theorem id_asserted (d : Document) : d.asserted.id = .top := id_getD_graph? d .top

theorem graph?_top (ht : GraphId.top ∈ d.ids) : d.graph? .top = some d.asserted := by
  obtain ⟨g, hg⟩ := exists_graph? ht
  rw [asserted, hg, Option.getD_some]

theorem asserted_single {g : Graph} (h : g.id = .top) (ns : Namespaces) : asserted ⟨[g], ns⟩ = g := by
  simp [asserted, graph?, h]

/-! ## Only the asserted graph is reached -/

theorem reachable_iff_top (h : d.asserted.references = []) {id : GraphId} : d.Reachable id ↔ id = .top := by
  constructor
  · intro hr
    obtain e | ⟨r, hr, -⟩ := Relation.ReflTransGen.cases_head hr
    · exact e.symm
    · rw [refers_top, h] at hr
      cases hr
  · rintro rfl
    exact .refl

theorem sound_of_references_nil (h : d.asserted.references = []) : d.Sound := by
  intro id hid
  obtain rfl := (reachable_iff_top h).1 hid
  refine ⟨.inl rfl, fun hc => ?_⟩
  obtain ⟨r, hr, -⟩ := Relation.TransGen.head'_iff.1 hc
  rw [refers_top, h] at hr
  cases hr

theorem Numbered.order_eq_top (hn : d.Numbered ids) (h : d.asserted.references = []) : ids.order = [.top] := by
  have hm : ∀ id, id ∈ ids.order ↔ id ∈ [GraphId.top] := by
    intro id
    rw [hn.mem_order, reachable_iff_top h, List.mem_singleton]
  exact List.perm_singleton.1 ((List.perm_ext_iff_of_nodup hn.ordered.nodup (List.nodup_singleton _)).2 hm)

theorem Numbered.renumbered_eq_asserted (hn : d.Numbered ids) (ht : GraphId.top ∈ d.ids)
    (h : d.asserted.references = []) : d.renumbered ids ids.order = [d.asserted] := by
  have hsame : d.asserted.renumbered ids = d.asserted := by
    have htop : ids.rename d.asserted.id = d.asserted.id := by rw [id_asserted, hn.ordered.rename_top]
    show Graph.mk (ids.rename d.asserted.id) (d.asserted.triples.map (Triple.mapGraph ids.rename)) = _
    rw [htop, map_eq_self fun t ht => Triple.mapGraph_eq_self (Graph.references_eq_nil.1 h t ht)]
  rw [hn.order_eq_top h, renumbered, List.filterMap_cons, graph?_top ht, List.filterMap_nil, List.map_singleton, hsame]

/-- A line for each asserted triple is written. -/
theorem flatten_asserted (ht : GraphId.top ∈ d.ids) (h : d.asserted.references = []) :
    ∃ ids, d.flatten = .ok (graphLines d.namespaces [d.asserted], ids) := by
  obtain ⟨ids, hf, hn⟩ := flatten_ok (sound_of_references_nil h) ht
  exact ⟨ids, by rw [hf, hn.renumbered_eq_asserted ht h]⟩

end Document

end AtomLines.Rdf
