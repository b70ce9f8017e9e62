import AtomLines.Proofs.Rdf.Contents
import AtomLines.Proofs.Rdf.Reachability
import Mathlib.Data.List.Perm.Subperm
/-!
# Documents up to order

Two documents are the same if they have the same local namespace, the same prefixes,
the same ids and under each id the same triples. Counting, by which the comparison
sees that nothing is left over, comes to this because nothing is held twice.
-/

namespace AtomLines

/-- Of two lists without repetition, one holds the other and is as long: then they hold
the same. -/
theorem nodup_mem_iff {α : Type} {l l' : List α} (hn : l.Nodup) (hn' : l'.Nodup) :
    (l.length = l'.length ∧ ∀ x ∈ l, x ∈ l') ↔ ∀ x, x ∈ l ↔ x ∈ l' := by
  constructor
  · rintro ⟨hl, hs⟩ x
    exact ((hn.subperm hs).perm_of_length_le (Nat.le_of_eq hl.symm)).mem_iff
  · intro h
    exact ⟨((List.perm_ext_iff_of_nodup hn hn').2 h).length_eq, fun x => (h x).1⟩

namespace Rdf

/-- The same local namespace and the same prefixes. -/
theorem Namespaces.same_iff {a b : Namespaces} (ha : (Keyed.keys a.prefixes).Nodup)
    (hb : (Keyed.keys b.prefixes).Nodup) :
    a.same b = true ↔ a.own = b.own ∧ ∀ p, p ∈ a.prefixes ↔ p ∈ b.prefixes := by
  have hall : (∀ p ∈ a.prefixes, Keyed.get? p.1 b.prefixes = some p.2) ↔ ∀ p ∈ a.prefixes, p ∈ b.prefixes :=
    forall₂_congr fun p _ => Keyed.get?_eq_some hb
  rw [← nodup_mem_iff ha.of_map hb.of_map, ← hall]
  simp [same, and_assoc]

theorem Graph.same_iff {g h : Graph} (hg : g.triples.Nodup) (hh : h.triples.Nodup) :
    g.same h = true ↔ g.id = h.id ∧ ∀ t, t ∈ g.triples ↔ t ∈ h.triples := by
  rw [← nodup_mem_iff hg hh]
  simp [same, and_assoc]

namespace Document

variable {a b : Document}

/-- The documents hold the same, maybe in another order. -/
structure Alike (a b : Document) : Prop where
  own : a.namespaces.own = b.namespaces.own
  prefixes : ∀ p, p ∈ a.namespaces.prefixes ↔ p ∈ b.namespaces.prefixes
  ids : ∀ id, id ∈ a.ids ↔ id ∈ b.ids
  contains : ∀ id t, a.contains id t = b.contains id t

theorem WellFormed.graph?_of_mem (ha : a.WellFormed) {g : Graph} (hg : g ∈ a.graphs) : a.graph? g.id = some g := by
  obtain ⟨h, hh⟩ := exists_graph? (List.mem_map_of_mem hg)
  rw [hh, List.inj_on_of_nodup_map ha.ids (mem_of_graph? hh) hg (id_of_graph? hh)]

theorem WellFormed.nodup_of_graph? (ha : a.WellFormed) {id : GraphId} {g : Graph} (h : a.graph? id = some g) :
    g.triples.Nodup := ha.triples g (mem_of_graph? h)

theorem contains_of_graph? {id : GraphId} {g : Graph} (h : a.graph? id = some g) (t : Triple) :
    a.contains id t = true ↔ t ∈ g.triples := by
  rw [contains, h, decide_eq_true_iff]

theorem contains_of_notMem {id : GraphId} (h : id ∉ a.ids) (t : Triple) : a.contains id t = false := by
  rw [contains, Option.not_isSome_iff_eq_none.1 (mt isSome_graph?.1 h)]

theorem same_eq_true : a.same b = true ↔ a.namespaces.same b.namespaces = true ∧ a.ids.length = b.ids.length ∧
    ∀ g ∈ a.graphs, ∃ h, b.graph? g.id = some h ∧ g.same h = true := by
  rw [same, Bool.and_eq_true, Bool.and_eq_true, and_assoc, decide_eq_true_iff, List.all_eq_true, Document.ids,
    Document.ids, List.length_map, List.length_map]
  refine and_congr_right fun _ => and_congr_right fun _ => forall₂_congr fun g _ => ?_
  cases b.graph? g.id <;> simp

/-- Every graph of one document is the same as the one under its id in the other. -/
theorem all_graphs_same_iff (ha : a.WellFormed) (hb : b.WellFormed) :
    (∀ g ∈ a.graphs, ∃ h, b.graph? g.id = some h ∧ g.same h = true) ↔
      (∀ id ∈ a.ids, id ∈ b.ids) ∧ ∀ id ∈ a.ids, ∀ t, a.contains id t = b.contains id t := by
  constructor
  · intro hall
    have hfound : ∀ id ∈ a.ids, ∃ g h, a.graph? id = some g ∧ b.graph? id = some h ∧ g.same h = true := by
      intro id hid
      obtain ⟨g, hg⟩ := exists_graph? hid
      obtain rfl := id_of_graph? hg
      obtain ⟨h, hh, hs⟩ := hall g (mem_of_graph? hg)
      exact ⟨g, h, hg, hh, hs⟩
    constructor
    · intro id hid
      obtain ⟨g, h, -, hh, -⟩ := hfound id hid
      exact mem_ids_of_graph? hh
    · intro id hid t
      obtain ⟨g, h, hg, hh, hs⟩ := hfound id hid
      rw [Bool.eq_iff_iff, contains_of_graph? hg, contains_of_graph? hh]
      exact ((Graph.same_iff (ha.nodup_of_graph? hg) (hb.nodup_of_graph? hh)).1 hs).2 t
  · rintro ⟨hids, ht⟩ g hg
    have hid : g.id ∈ a.ids := List.mem_map_of_mem hg
    have hga := ha.graph?_of_mem hg
    obtain ⟨h, hh⟩ := exists_graph? (hids g.id hid)
    refine ⟨h, hh, (Graph.same_iff (ha.triples g hg) (hb.nodup_of_graph? hh)).2 ⟨(id_of_graph? hh).symm, fun t => ?_⟩⟩
    rw [← contains_of_graph? hga, ht g.id hid t, contains_of_graph? hh]

theorem same_iff_alike (ha : a.WellFormed) (hb : b.WellFormed) : a.same b = true ↔ Alike a b := by
  rw [same_eq_true, Namespaces.same_iff ha.labels hb.labels, all_graphs_same_iff ha hb]
  constructor
  · rintro ⟨⟨ho, hp⟩, hl, hi, hc⟩
    have hids := (nodup_mem_iff ha.ids hb.ids).1 ⟨hl, hi⟩
    refine ⟨ho, hp, hids, fun id t => ?_⟩
    by_cases hid : id ∈ a.ids
    · exact hc id hid t
    · rw [contains_of_notMem hid, contains_of_notMem (mt (hids id).2 hid)]
  · rintro ⟨ho, hp, hi, hc⟩
    obtain ⟨hl, hsub⟩ := (nodup_mem_iff ha.ids hb.ids).2 hi
    exact ⟨⟨ho, hp⟩, hl, hsub, fun id _ => hc id⟩

/-! ## References -/

theorem refers_iff_contains {id r : GraphId} : a.Refers id r ↔ ∃ t, a.contains id t = true ∧ r ∈ t.references := by
  constructor
  · rintro ⟨g, hg, t, ht, hr⟩
    exact ⟨t, (contains_of_graph? hg t).2 ht, hr⟩
  · rintro ⟨t, ht, hr⟩
    obtain ⟨g, hg, ht⟩ := contains_iff.1 ht
    exact ⟨g, hg, t, ht, hr⟩

/-- The references of a document do not depend on its order. -/
theorem Alike.refers_eq (h : Alike a b) : a.Refers = b.Refers := by
  funext id r
  simp only [refers_iff_contains, h.contains]

theorem Alike.reachable_eq (h : Alike a b) : a.Reachable = b.Reachable := by
  funext id
  rw [Reachable, Reachable, h.refers_eq]

theorem Alike.sound (h : Alike a b) (ha : a.Sound) : b.Sound := by
  refine ha.of_refers_eq h.refers_eq fun id => ?_
  rw [Bool.eq_iff_iff, isSome_graph?, isSome_graph?]
  exact h.ids id

end Document

end Rdf

end AtomLines
