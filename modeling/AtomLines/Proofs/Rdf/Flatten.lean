import AtomLines.Proofs.Outcome
import AtomLines.Proofs.Rdf.Entry
import AtomLines.Proofs.Rdf.Numbering
import AtomLines.Proofs.Rdf.Reachability
import AtomLines.Proofs.Rdf.Store
/-!
# The entries of a written document

Each term is written with the numbers that its references will have at the end, since
no number changes. So the lines of a document are those of its reached graphs, every
one renumbered with the final table, in the order of that table.
-/

namespace AtomLines.Rdf

open Identities (Extends)

/-! ## Terms -/

section
variable {ns : Namespaces} {ids ids' : Identities}

theorem Term.emit_snd (ns : Namespaces) (ids : Identities) (t : Term) :
    (t.emit ns ids).2 = ids.meetAll t.graph?.toList := by
  cases t <;> rfl

theorem Term.emit_fst {t : Term} (h : Extends (t.emit ns ids).2 ids') :
    (t.emit ns ids).1 = (t.mapGraph ids'.rename).atom ns := by
  cases t with
  | graph id =>
    have hm : id ∈ (ids.meet id).order := Identities.mem_order_meet.2 (.inr rfl)
    have hr : ids'.rename id = (ids.meet id).rename id := Extends.rename_eq h hm
    show (ids.resolve id).1.atom = (ids'.rename id).atom
    rw [hr, Identities.resolve_fst]
  | _ => rfl

theorem Triple.references_eq (t : Triple) :
    t.references = t.subject.graph?.toList ++ t.predicate.graph?.toList ++ t.object.graph?.toList := by
  simp only [references, terms]
  cases hs : t.subject.graph? <;> cases hp : t.predicate.graph? <;> cases ho : t.object.graph? <;>
    simp [hs, hp, ho]

theorem Triple.emit_snd (ns : Namespaces) (ids : Identities) (t : Triple) :
    (t.emit ns ids).2 = ids.meetAll t.references := by
  simp only [emit, Term.emit_snd, references_eq, Identities.meetAll_append]

theorem Term.extends_emit (ns : Namespaces) (ids : Identities) (t : Term) : Extends ids (t.emit ns ids).2 := by
  rw [Term.emit_snd]
  exact Identities.extends_meetAll ..

theorem Triple.emit_fst {t : Triple} (h : Extends (t.emit ns ids).2 ids') :
    (t.emit ns ids).1 = (t.mapGraph ids'.rename).atom ns := by
  have ho : Extends (t.object.emit ns (t.predicate.emit ns (t.subject.emit ns ids).2).2).2 ids' := h
  have hp := (Term.extends_emit ns _ t.object).trans ho
  have hs := (Term.extends_emit ns _ t.predicate).trans hp
  show SExpr.list [(t.subject.emit ns ids).1, (t.predicate.emit ns (t.subject.emit ns ids).2).1,
    (t.object.emit ns (t.predicate.emit ns (t.subject.emit ns ids).2).2).1] = _
  rw [Term.emit_fst hs, Term.emit_fst hp, Term.emit_fst ho]
  rfl

/-! ## Graphs -/

theorem emitTriples_snd (ns : Namespaces) (label : SExpr) (ids : Identities) (ts : List Triple) :
    (emitTriples ns label ids ts).2 = ids.meetAll (ts.flatMap Triple.references) := by
  induction ts generalizing ids with
  | nil => rfl
  | cons t ts ih => simp only [emitTriples, ih, Triple.emit_snd, List.flatMap_cons, Identities.meetAll_append]

theorem emitTriples_fst {label : SExpr} {ts : List Triple} (h : Extends (emitTriples ns label ids ts).2 ids') :
    (emitTriples ns label ids ts).1 = ts.map fun t => .list [label, (t.mapGraph ids'.rename).atom ns] := by
  induction ts generalizing ids with
  | nil => rfl
  | cons t ts ih =>
    have hr : Extends (emitTriples ns label (t.emit ns ids).2 ts).2 ids' := h
    have ht : Extends (t.emit ns ids).2 ids' := by
      refine Extends.trans ?_ hr
      rw [emitTriples_snd]
      exact Identities.extends_meetAll ..
    show SExpr.list [label, (t.emit ns ids).1] :: (emitTriples ns label (t.emit ns ids).2 ts).1 = _
    rw [Triple.emit_fst ht, ih hr, List.map_cons]

theorem Graph.references_of_isEmpty {g : Graph} (h : g.isEmpty = true) : g.references = [] := by
  rw [references, List.isEmpty_iff.1 h, List.flatMap_nil]

theorem Graph.emit_snd (ns : Namespaces) (ids : Identities) (g : Graph) :
    (g.emit ns ids).2 = ids.meetAll g.references := by
  rw [emit]
  split
  · rename_i h
    rw [Bool.and_eq_true] at h
    rw [references_of_isEmpty h.1]
    rfl
  · exact emitTriples_snd ..

theorem Graph.extends_emit (ns : Namespaces) (ids : Identities) (g : Graph) : Extends ids (g.emit ns ids).2 := by
  rw [emit_snd]
  exact Identities.extends_meetAll ..

/-- A graph under the id that a table gives it, with its references renamed. -/
def Graph.renumbered (ids : Identities) (g : Graph) : Graph :=
  ⟨ids.rename g.id, (g.mapGraph ids.rename).triples⟩

theorem Graph.emit_fst {g : Graph} (ho : ids'.Ordered) (hg : g.id ∈ ids.order) (h : Extends (g.emit ns ids).2 ids') :
    (g.emit ns ids).1 = (g.renumbered ids').entries.map (Entry.line ns) := by
  have he : Extends ids ids' := (g.extends_emit ns ids).trans h
  have ht : (g.renumbered ids').id = .top ↔ g.id = .top := ho.rename_eq_top (he.mem hg)
  have hi : (g.renumbered ids').isEmpty = g.isEmpty := by simp [isEmpty, renumbered, mapGraph]
  rw [emit] at h ⊢
  rw [entries]
  by_cases hc : (g.isEmpty && g.id ≠ .top) = true
  · have hc' : ((g.renumbered ids').isEmpty && (g.renumbered ids').id ≠ .top) = true := by
      simpa [hi, ht] using hc
    rw [if_pos hc, if_pos hc', ← he.rename_eq hg]
    rfl
  · have hc' : ¬ ((g.renumbered ids').isEmpty && (g.renumbered ids').id ≠ .top) = true := by
      simpa [hi, ht] using hc
    rw [if_neg hc] at h ⊢
    rw [if_neg hc', emitTriples_fst h]
    simp [renumbered, mapGraph, Entry.line, he.rename_eq hg]

end

/-! ## Documents -/

namespace Document

variable {d : Document} {ids : Identities} {done todo : List GraphId}

/-- The tables that a run meets: the first graphs of the order are written out, and
the order holds reached graphs only. -/
structure Progress (d : Document) (ids : Identities) (done todo : List GraphId) : Prop where
  order : ids.order = done ++ todo
  ordered : ids.Ordered
  flattened : ∀ g, g ∈ ids.flattened ↔ g ∈ done
  reachable : ∀ g ∈ ids.order, d.Reachable g
  closed : ∀ g ∈ done, ∀ r, d.Refers g r → r ∈ ids.order

theorem Progress.start (d : Document) : d.Progress .start [] [.top] where
  order := rfl
  ordered := .start
  flattened := by simp [Identities.start]
  reachable := by simp [Identities.start, Reachable, Relation.ReflTransGen.refl]
  closed := by simp

theorem Progress.pending?_eq (h : d.Progress ids done todo) : ids.pending? = todo.head? := by
  have hd : ∀ g ∈ done, ¬ (decide (g ∉ ids.flattened)) = true := by
    intro g hg
    simp [(h.flattened g).2 hg]
  rw [Identities.pending?, h.order, List.find?_append, List.find?_eq_none.2 hd, Option.none_or]
  cases todo with
  | nil => rfl
  | cons g todo =>
    have hn : g ∉ done := by
      have := h.ordered.nodup
      rw [h.order, List.nodup_append] at this
      exact fun hg => this.2.2 g hg g List.mem_cons_self rfl
    rw [List.find?_cons_of_pos (by simpa [h.flattened] using hn), List.head?_cons]

/-- One graph is written out, and the graphs that it refers to first go to the end. -/
theorem Progress.step {source : GraphId} (h : d.Progress ids done (source :: todo)) {g : Graph}
    (hg : d.graph? source = some g) :
    ∃ more, d.Progress ((ids.meetAll g.references).markFlattened source) (done ++ [source]) (todo ++ more) := by
  obtain ⟨more, hm⟩ := Identities.extends_meetAll ids g.references
  have hs : source ∈ ids.order := by simp [h.order]
  have hs' : source ∈ (ids.meetAll g.references).order := Identities.mem_order_meetAll.2 (.inl hs)
  have ho := Identities.order_markFlattened (ids.meetAll g.references) source
  have hf : ((ids.meetAll g.references).markFlattened source).flattened = source :: ids.flattened := by
    rw [Identities.flattened_markFlattened hs', Identities.flattened_meetAll]
  have hr : ∀ r, d.Refers source r ↔ r ∈ g.references := fun r => refers_of_graph? hg
  exact ⟨more, {
    order := by
      rw [ho, ← hm, h.order]
      simp
    ordered := (h.ordered.meetAll g.references).of_order_eq ho
    flattened := by
      intro a
      rw [hf, List.mem_cons, h.flattened, List.mem_append, List.mem_singleton, or_comm]
    reachable := by
      intro a ha
      rw [ho, Identities.mem_order_meetAll] at ha
      rcases ha with ha | ha
      · exact h.reachable a ha
      · exact (h.reachable source hs).tail ((hr a).2 ha)
    closed := by
      intro a ha r har
      rw [ho, Identities.mem_order_meetAll]
      rcases List.mem_append.1 ha with ha | ha
      · exact .inl (h.closed a ha r har)
      · rw [List.mem_singleton.1 ha] at har
        exact .inr ((hr r).1 har) }⟩

/-- The finished table: it holds the reached graphs, all of them written out. -/
structure Numbered (d : Document) (ids : Identities) : Prop where
  ordered : ids.Ordered
  mem_order : ∀ g, g ∈ ids.order ↔ d.Reachable g
  flattened : ∀ g, g ∈ ids.flattened ↔ g ∈ ids.order

theorem Progress.numbered (h : d.Progress ids done []) : d.Numbered ids := by
  have ho : ids.order = done := by rw [h.order, List.append_nil]
  refine ⟨h.ordered, fun g => ⟨h.reachable g, ?_⟩, fun g => by rw [h.flattened, ho]⟩
  intro hg
  induction hg with
  | refl => exact h.ordered.top_mem
  | tail _ hr ih => exact h.closed _ (ho ▸ ih) _ hr

/-- The graphs of an order, renumbered with a table. -/
def renumbered (d : Document) (ids : Identities) (order : List GraphId) : List Graph :=
  (order.filterMap d.graph?).map (Graph.renumbered ids)

/-- The lines of graphs. -/
def graphLines (ns : Namespaces) (gs : List Graph) : List SExpr :=
  (gs.flatMap Graph.entries).map (Entry.line ns)

theorem renumbered_cons {source : GraphId} {g : Graph} (hg : d.graph? source = some g) (ids : Identities)
    (order : List GraphId) : d.renumbered ids (source :: order) = g.renumbered ids :: d.renumbered ids order := by
  rw [renumbered, List.filterMap_cons_some hg, List.map_cons, ← renumbered]

/-- The run goes on to the end of the order, with a line for everything in it. -/
theorem flattenFrom_ok (hd : ∀ g, d.Reachable g → (d.graph? g).isSome) (h : d.Progress ids done todo) :
    ∃ ids' rest, d.flattenFrom ids = .ok (graphLines d.namespaces (d.renumbered ids' rest), ids') ∧
      ids'.order = done ++ rest ∧ Extends ids ids' ∧ d.Numbered ids' := by
  fun_induction flattenFrom d ids generalizing done todo with
  | case1 ids hp =>
    rw [h.pending?_eq, List.head?_eq_none_iff] at hp
    subst hp
    exact ⟨ids, [], rfl, h.order, .refl ids, h.numbered⟩
  | case2 ids source hp hg =>
    -- A graph that waits is reached, so it is not missing.
    obtain ⟨todo, rfl⟩ := List.head?_eq_some_iff.1 (h.pending?_eq ▸ hp)
    have hr := hd source (h.reachable source (by simp [h.order]))
    rw [hg] at hr
    cases hr
  | case3 ids source hp g hg step _ e he =>
    rename_i ih
    obtain ⟨todo, rfl⟩ := List.head?_eq_some_iff.1 (h.pending?_eq ▸ hp)
    obtain ⟨more, hs⟩ := h.step hg
    rw [← Graph.emit_snd d.namespaces] at hs
    obtain ⟨ids', rest, hf, -⟩ := ih hs
    rw [he] at hf
    cases hf
  | case4 ids source hp g hg step _ lines ids' he =>
    rename_i ih
    obtain ⟨todo, rfl⟩ := List.head?_eq_some_iff.1 (h.pending?_eq ▸ hp)
    obtain ⟨more, hs⟩ := h.step hg
    rw [← Graph.emit_snd d.namespaces] at hs
    obtain ⟨ids'', rest, hf, ho, hx, hn⟩ := ih hs
    rw [he] at hf
    cases hf
    have hid : g.id ∈ ids.order := by simp [id_of_graph? hg, h.order]
    -- The references in the lines of `g` have their final numbers already.
    have hstep : Extends step.2 ids' := by
      rw [Extends, Identities.order_markFlattened] at hx
      exact hx
    refine ⟨ids', source :: rest, ?_, by simpa using ho, (g.extends_emit d.namespaces ids).trans hstep, hn⟩
    rw [Graph.emit_fst hn.ordered hid hstep, renumbered_cons hg, graphLines, graphLines, List.flatMap_cons,
      List.map_append]

/-- Where the asserted graph is there, every reached graph is. -/
theorem Sound.isSome_graph? (hd : d.Sound) (ht : GraphId.top ∈ d.ids) {g : GraphId} (hg : d.Reachable g) :
    (d.graph? g).isSome := by
  rcases (hd g hg).1 with rfl | hs
  · exact Document.isSome_graph?.2 ht
  · exact hs

theorem flatten_eq_ok {r : List SExpr × Identities} :
    d.flatten = .ok r ↔ d.Sound ∧ d.flattenFrom .start = .ok r := by
  rw [← checkReferences_succeeds, flatten, bind_eq_ok, exists_and_right]

/-- A document that is sound is written as the lines of its reached graphs, in the
order of their numbers. -/
theorem flatten_ok (hd : d.Sound) (ht : GraphId.top ∈ d.ids) :
    ∃ ids, d.flatten = .ok (graphLines d.namespaces (d.renumbered ids ids.order), ids) ∧ d.Numbered ids := by
  obtain ⟨ids, rest, hf, ho, -, hn⟩ := flattenFrom_ok (fun _ => hd.isSome_graph? ht) (.start d)
  rw [List.nil_append] at ho
  rw [ho.symm] at hf
  exact ⟨ids, flatten_eq_ok.2 ⟨hd, hf⟩, hn⟩

/-- The table of a document that has been written holds its reached graphs. -/
theorem numbered_of_flatten {lines : List SExpr} {ids : Identities} (h : d.flatten = .ok (lines, ids)) :
    d.Numbered ids := by
  obtain ⟨hd, hrun⟩ := flatten_eq_ok.1 h
  have ht : GraphId.top ∈ d.ids := by
    by_contra ht
    have hg : d.graph? .top = none := by rwa [← Option.not_isSome_iff_eq_none, isSome_graph?]
    have hm : d.flattenFrom .start = .error (.dangling .top .top) := flattenFrom_missing rfl hg
    cases hm.symm.trans hrun
  obtain ⟨ids', hf, hn⟩ := flatten_ok hd ht
  cases h.symm.trans hf
  exact hn

/-! ## Renumbered graphs -/

theorem Numbered.map_id_filterMap (h : d.Numbered ids) (hd : d.Sound) (ht : GraphId.top ∈ d.ids) :
    (ids.order.filterMap d.graph?).map Graph.id = ids.order := by
  have hs : ∀ a ∈ ids.order, (d.graph? a).map Graph.id = some a := by
    intro a ha
    obtain ⟨g, hg⟩ := Option.isSome_iff_exists.1 (hd.isSome_graph? ht ((h.mem_order a).1 ha))
    rw [hg, Option.map_some, id_of_graph? hg]
  rw [List.map_filterMap, List.filterMap_congr hs, List.filterMap_some]

theorem Numbered.ids_renumbered (h : d.Numbered ids) (hd : d.Sound) (ht : GraphId.top ∈ d.ids) :
    (d.renumbered ids ids.order).map Graph.id = ids.order.map ids.rename := by
  conv_rhs => rw [← h.map_id_filterMap hd ht]
  rw [renumbered, List.map_map, List.map_map]
  rfl

theorem Numbered.nodup_renumbered (h : d.Numbered ids) (hd : d.Sound) (ht : GraphId.top ∈ d.ids) :
    ((d.renumbered ids ids.order).map Graph.id).Nodup := by
  rw [h.ids_renumbered hd ht]
  exact h.ordered.nodup.map_on fun a ha b hb => h.ordered.rename_inj ha hb

theorem Numbered.head?_renumbered (h : d.Numbered ids) (hd : d.Sound) (ht : GraphId.top ∈ d.ids) :
    ((d.renumbered ids ids.order).map Graph.id).head? = some .top := by
  rw [h.ids_renumbered hd ht, List.head?_map, h.ordered.top, Option.map_some, h.ordered.rename_top]

/-- Of a document that is sound, the canonical form holds the renumbered graphs. -/
theorem Numbered.canonicalize_eq (h : d.Numbered ids) (hd : d.Sound) (ht : GraphId.top ∈ d.ids)
    {lines : List SExpr} (hf : d.flatten = .ok (lines, ids)) :
    d.canonicalize = .ok ⟨(d.renumbered ids ids.order).map Graph.distinct, d.namespaces⟩ := by
  have hid : ((d.renumbered ids ids.order).map Graph.distinct).map Graph.id =
      (d.renumbered ids ids.order).map Graph.id := by
    rw [List.map_map]
    exact List.map_congr_left fun g _ => g.id_distinct
  have hput := foldl_put_new (hid ▸ h.nodup_renumbered hd ht) (hid ▸ h.head?_renumbered hd ht) d.namespaces
  rw [renumbered, List.map_map, List.foldl_map, List.foldl_filterMap] at hput
  rw [canonicalize, hf, renumbered, List.map_map, ← hput]
  show Except.ok (ids.assignments.foldl _ _) = _
  rw [h.ordered.assignments_eq, List.foldl_map]
  congr 2
  funext c source
  dsimp only
  cases hg : d.graph? source with
  | none => rfl
  | some g =>
    obtain rfl := id_of_graph? hg
    rfl

end Document

end AtomLines.Rdf
