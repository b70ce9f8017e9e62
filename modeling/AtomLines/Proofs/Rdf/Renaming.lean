import AtomLines.Proofs.Rdf.RoundTrip
import Mathlib.Data.Set.Function
/-!
# Ids of graphs have no meaning

If one document has under new ids what another one reaches, then both are written as
the same lines and have the same canonical form, or both fail with the same error
about the renamed graphs. What is not reached counts for nothing: every step of the
check, of the numbering and of the writing commutes with a renaming that is injective
on the reached graphs.
-/

namespace AtomLines.Rdf

variable {f : GraphId → GraphId} {s : Set GraphId}

/-! ## Renamed lists -/

theorem mem_map_of_injOn (hf : Set.InjOn f s) {l : List GraphId} (hl : ∀ b ∈ l, b ∈ s) {a : GraphId} (ha : a ∈ s) :
    f a ∈ l.map f ↔ a ∈ l := by
  rw [List.mem_map]
  constructor
  · rintro ⟨b, hb, e⟩
    exact hf (hl b hb) ha e ▸ hb
  · exact fun h => ⟨a, h, rfl⟩

theorem idxOf?_map_of_injOn (hf : Set.InjOn f s) {l : List GraphId} (hl : ∀ b ∈ l, b ∈ s) {a : GraphId}
    (ha : a ∈ s) : (l.map f).idxOf? (f a) = l.idxOf? a := by
  induction l with
  | nil => rfl
  | cons b l ih =>
    rw [List.forall_mem_cons] at hl
    have hb : (f b == f a) = (b == a) := by
      rw [Bool.eq_iff_iff, beq_iff_eq, beq_iff_eq]
      exact hf.eq_iff hl.1 ha
    rw [List.map_cons, List.idxOf?_cons, List.idxOf?_cons, hb, ih hl.2]

theorem find?_map_of_injOn (hf : Set.InjOn f s) {l l' : List GraphId} (hl : ∀ b ∈ l, b ∈ s)
    (hl' : ∀ b ∈ l', b ∈ s) : (l.map f).find? (· ∉ l'.map f) = (l.find? (· ∉ l')).map f := by
  induction l with
  | nil => rfl
  | cons b l ih =>
    rw [List.forall_mem_cons] at hl
    have hb : (f b ∉ l'.map f) ↔ b ∉ l' := not_congr (mem_map_of_injOn hf hl' hl.1)
    rw [List.map_cons, List.find?_cons, List.find?_cons, ih hl.2, decide_eq_decide.2 hb]
    cases decide (b ∉ l') <;> rfl

/-! ## Renamed graphs, tables and errors -/

/-- A graph under a new id, its references renamed. -/
def Graph.renamed (f : GraphId → GraphId) (g : Graph) : Graph :=
  ⟨f g.id, (g.mapGraph f).triples⟩

/-- A table that gives the same numbers to the renamed graphs. -/
def Identities.renamed (f : GraphId → GraphId) (ids : Identities) : Identities :=
  ⟨ids.order.map f, ids.flattened.map f⟩

/-- The same error about the renamed graphs. -/
def GraphError.renamed (f : GraphId → GraphId) : GraphError → GraphError
  | dangling graph referrer => dangling (f graph) (f referrer)
  | cyclic graph => cyclic (f graph)
  | quotedInFlat graph => quotedInFlat (f graph)
  | malformed line fault => malformed line fault
  | term graph cause => term (f graph) cause

theorem Graph.references_renamed (f : GraphId → GraphId) (g : Graph) :
    (g.renamed f).references = g.references.map f := by
  rw [references, renamed, mapGraph, List.flatMap_map, references, List.map_flatMap]
  exact List.flatMap_congr fun t _ => t.references_mapGraph f

/-- Two renamings one after the other are a third one if they are so on the references. -/
theorem Triple.mapGraph_mapGraph {f' f'' : GraphId → GraphId} {t : Triple} (h : ∀ r ∈ t.references, f' (f r) = f'' r) :
    (t.mapGraph f).mapGraph f' = t.mapGraph f'' := by
  have hx : ∀ x ∈ t.terms, (x.mapGraph f).mapGraph f' = x.mapGraph f'' := by
    intro x hx
    cases x with
    | graph id => exact congrArg Term.graph (h id (Entry.mem_references_of_mem_terms hx rfl))
    | _ => rfl
  simp only [mapGraph, hx t.subject (by simp [terms]), hx t.predicate (by simp [terms]), hx t.object (by simp [terms])]

theorem Graph.mapGraph_renamed {f' f'' : GraphId → GraphId} {g : Graph} (h : ∀ r ∈ g.references, f' (f r) = f'' r) :
    ((g.renamed f).mapGraph f').triples = (g.mapGraph f'').triples := by
  simp only [renamed, mapGraph, List.map_map]
  exact List.map_congr_left fun t ht => Triple.mapGraph_mapGraph fun r hr => h r (mem_references.2 ⟨t, ht, hr⟩)

/-! ## Numbering -/

section
variable {ns : Namespaces} {ids : Identities}

namespace Identities

theorem emitted?_renamed (hf : Set.InjOn f s) (ho : ∀ a ∈ ids.order, a ∈ s) {a : GraphId} (ha : a ∈ s) :
    (ids.renamed f).emitted? (f a) = ids.emitted? a := by
  rw [emitted?, renamed, idxOf?_map_of_injOn hf ho ha, emitted?]

theorem rename_renamed (hf : Set.InjOn f s) (ho : ∀ a ∈ ids.order, a ∈ s) {a : GraphId} (ha : a ∈ ids.order) :
    (ids.renamed f).rename (f a) = ids.rename a := by
  rw [rename, emitted?_renamed hf ho (ho a ha), rename, emitted?_of_mem ha]
  rfl

theorem resolve_renamed (hf : Set.InjOn f s) (ho : ∀ a ∈ ids.order, a ∈ s) {a : GraphId} (ha : a ∈ s) :
    (ids.renamed f).resolve (f a) =
      ((ids.resolve a).1, (ids.resolve a).2.1, (ids.resolve a).2.2.renamed f) := by
  rw [resolve, emitted?_renamed hf ho ha, resolve]
  cases ids.emitted? a with
  | some id => rfl
  | none => simp [renamed]

theorem pending?_renamed (hf : Set.InjOn f s) (ho : ∀ a ∈ ids.order, a ∈ s) (hw : ∀ a ∈ ids.flattened, a ∈ s) :
    (ids.renamed f).pending? = ids.pending?.map f :=
  find?_map_of_injOn hf ho hw

theorem markFlattened_renamed (hf : Set.InjOn f s) (ho : ∀ a ∈ ids.order, a ∈ s) {a : GraphId} (ha : a ∈ s) :
    (ids.renamed f).markFlattened (f a) = (ids.markFlattened a).renamed f := by
  have hm : f a ∈ (ids.renamed f).order ↔ a ∈ ids.order := mem_map_of_injOn hf ho ha
  rw [markFlattened, markFlattened]
  by_cases h : a ∈ ids.order
  · rw [if_pos h, if_pos (hm.2 h)]
    rfl
  · rw [if_neg h, if_neg (fun h' => h (hm.1 h'))]

theorem assignments_renamed (f : GraphId → GraphId) (ids : Identities) :
    (ids.renamed f).assignments = ids.assignments.map fun p => (f p.1, p.2) := by
  simp [assignments, renamed, List.zipIdx_map]

end Identities

/-! ## Writing -/

theorem Term.emit_renamed (hf : Set.InjOn f s) (ho : ∀ a ∈ ids.order, a ∈ s) {t : Term}
    (ht : ∀ r ∈ t.graph?, r ∈ s) :
    (t.mapGraph f).emit ns (ids.renamed f) = ((t.emit ns ids).1, (t.emit ns ids).2.renamed f) := by
  cases t with
  | graph id =>
    show (((ids.renamed f).resolve (f id)).1.atom, ((ids.renamed f).resolve (f id)).2.2) = _
    rw [Identities.resolve_renamed hf ho (ht id rfl)]
    rfl
  | _ => rfl

theorem Term.mem_order_emit (ns : Namespaces) (ho : ∀ a ∈ ids.order, a ∈ s) {t : Term} (ht : ∀ r ∈ t.graph?, r ∈ s) :
    ∀ a ∈ (t.emit ns ids).2.order, a ∈ s := by
  intro a ha
  rw [Term.emit_snd, Identities.mem_order_meetAll] at ha
  rcases ha with ha | ha
  · exact ho a ha
  · exact ht a (Option.mem_toList.1 ha)

theorem Triple.emit_renamed (hf : Set.InjOn f s) (ho : ∀ a ∈ ids.order, a ∈ s) {t : Triple}
    (ht : ∀ r ∈ t.references, r ∈ s) :
    (t.mapGraph f).emit ns (ids.renamed f) = ((t.emit ns ids).1, (t.emit ns ids).2.renamed f) := by
  have hx : ∀ x ∈ t.terms, ∀ r ∈ x.graph?, r ∈ s :=
    fun x hx r hr => ht r (Entry.mem_references_of_mem_terms hx hr)
  have hs := hx t.subject (by simp [terms])
  have hp := hx t.predicate (by simp [terms])
  have hs' := Term.mem_order_emit ns ho hs
  have hp' := Term.mem_order_emit ns hs' hp
  simp only [emit, mapGraph, Term.emit_renamed hf ho hs, Term.emit_renamed hf hs' hp,
    Term.emit_renamed hf hp' (hx t.object (by simp [terms]))]

theorem emitTriples_renamed (hf : Set.InjOn f s) (ho : ∀ a ∈ ids.order, a ∈ s) (label : SExpr) {ts : List Triple}
    (ht : ∀ t ∈ ts, ∀ r ∈ t.references, r ∈ s) :
    emitTriples ns label (ids.renamed f) (ts.map (Triple.mapGraph f)) =
      ((emitTriples ns label ids ts).1, (emitTriples ns label ids ts).2.renamed f) := by
  induction ts generalizing ids with
  | nil => rfl
  | cons t ts ih =>
    rw [List.forall_mem_cons] at ht
    have ho' : ∀ a ∈ (t.emit ns ids).2.order, a ∈ s := by
      intro a ha
      rw [Triple.emit_snd, Identities.mem_order_meetAll] at ha
      exact ha.elim (ho a) (ht.1 a)
    simp only [List.map_cons, emitTriples, Triple.emit_renamed hf ho ht.1, ih ho' ht.2]

theorem Graph.emit_renamed (hf : Set.InjOn f s) (ho : ∀ a ∈ ids.order, a ∈ s) (htop : f .top = .top)
    (hs : GraphId.top ∈ s) {g : Graph} (hg : g.id ∈ ids.order) (hr : ∀ r ∈ g.references, r ∈ s) :
    (g.renamed f).emit ns (ids.renamed f) = ((g.emit ns ids).1, (g.emit ns ids).2.renamed f) := by
  have hl : (ids.renamed f).rename (g.renamed f).id = ids.rename g.id := Identities.rename_renamed hf ho hg
  have hi : (g.renamed f).id = .top ↔ g.id = .top := by
    have h := hf.eq_iff (ho _ hg) hs
    rwa [htop] at h
  have he : (g.renamed f).isEmpty = g.isEmpty := by simp [isEmpty, renamed, mapGraph]
  have ht : ∀ t ∈ g.triples, ∀ r ∈ t.references, r ∈ s :=
    fun t ht r h => hr r (mem_references.2 ⟨t, ht, h⟩)
  simp only [emit, hl, he, ne_eq, hi]
  split
  · rfl
  · exact emitTriples_renamed hf ho _ ht

end

namespace Document

variable {d d' : Document}

/-! ## Documents -/

/-- The second document has under new ids what the first one reaches. Of what is not
reached, in either document, nothing is asked. -/
structure Renaming (f : GraphId → GraphId) (d d' : Document) : Prop where
  top : f .top = .top
  injOn : Set.InjOn f {g | d.Reachable g}
  graph : ∀ g, d.Reachable g → d'.graph? (f g) = (d.graph? g).map (Graph.renamed f)
  namespaces : d'.namespaces = d.namespaces

namespace Renaming

theorem asserted (h : Renaming f d d') : d'.asserted.references = d.asserted.references.map f := by
  have ht : d'.graph? .top = (d.graph? .top).map (Graph.renamed f) := by
    have hg := h.graph .top .refl
    rwa [h.top] at hg
  rw [Document.asserted, ht, Document.asserted]
  cases d.graph? .top with
  | none => rfl
  | some g => exact g.references_renamed f

/-- A walk in the renamed document comes by the renamed graphs. -/
theorem follow (h : Renaming f d d') {path references done : List GraphId} {current : GraphId}
    (hp : ∀ g ∈ path, d.Reachable g) (hr : ∀ g ∈ references, d.Reachable g) (hd : ∀ g ∈ done, d.Reachable g) :
    d'.follow (path.map f) (f current) (references.map f) (done.map f) =
      ((d.follow path current references done).map (List.map f)).mapError (GraphError.renamed f) := by
  -- On reachable graphs the renaming is injective, so the walk takes the same branches.
  have mem_iff {l : List GraphId} (hl : ∀ g ∈ l, d.Reachable g) {a : GraphId} (ha : d.Reachable a) :
      f a ∈ l.map f ↔ a ∈ l := mem_map_of_injOn h.injOn hl ha
  fun_induction Document.follow d path current references done with
  | case1 => rw [List.map_nil, Document.follow]; rfl
  | case2 path current done next rest hn =>
    rw [List.forall_mem_cons] at hr
    rw [List.map_cons, follow_cyclic ((mem_iff hp hr.1).2 hn)]
    rfl
  | case3 path current done next rest hn hm ih =>
    rw [List.forall_mem_cons] at hr
    rw [List.map_cons, follow_skip (mt (mem_iff hp hr.1).1 hn) ((mem_iff hd hr.1).2 hm), ih hp hr.2 hd]
  | case4 path current done next rest hn hm hg =>
    rw [List.forall_mem_cons] at hr
    have hg' : d'.graph? (f next) = none := by rw [h.graph next hr.1, hg, Option.map_none]
    rw [List.map_cons, follow_dangling (mt (mem_iff hp hr.1).1 hn) (mt (mem_iff hd hr.1).1 hm) hg']
    rfl
  | case5 path current done next rest hn hm g hg _ e he ih =>
    rw [List.forall_mem_cons] at hr
    have hg' : d'.graph? (f next) = some (g.renamed f) := by rw [h.graph next hr.1, hg, Option.map_some]
    have ih := ih (List.forall_mem_cons.2 ⟨hr.1, hp⟩) (fun r => hr.1.of_mem_references hg) hd
    rw [List.map_cons] at ih
    rw [List.map_cons, follow_enter (mt (mem_iff hp hr.1).1 hn) (mt (mem_iff hd hr.1).1 hm) hg',
      g.references_renamed, ih, he]
    rfl
  | case6 path current done next rest hn hm g hg _ inner hi ih₁ ih₂ =>
    rw [List.forall_mem_cons] at hr
    have hg' : d'.graph? (f next) = some (g.renamed f) := by rw [h.graph next hr.1, hg, Option.map_some]
    have hin : ∀ a ∈ next :: inner, d.Reachable a :=
      List.forall_mem_cons.2 ⟨hr.1, reachable_of_follow (fun r => hr.1.of_mem_references hg) hd hi⟩
    have ih₁ := ih₁ (List.forall_mem_cons.2 ⟨hr.1, hp⟩) (fun r => hr.1.of_mem_references hg) hd
    rw [List.map_cons] at ih₁
    rw [List.map_cons, follow_enter (mt (mem_iff hp hr.1).1 hn) (mt (mem_iff hd hr.1).1 hm) hg',
      g.references_renamed, ih₁, hi]
    exact ih₂ hp hr.2 hin

theorem checkReferences (h : Renaming f d d') :
    d'.checkReferences = (d.checkReferences.map (List.map f)).mapError (GraphError.renamed f) := by
  have ht : ∀ g ∈ [GraphId.top], d.Reachable g := by simp [Reachable, Relation.ReflTransGen.refl]
  have hf : d'.follow ([GraphId.top].map f) (f .top) (d.asserted.references.map f) (List.map f []) = _ :=
    h.follow ht (fun r hr => .tail .refl (refers_top.2 hr)) (List.forall_mem_nil _)
  rw [List.map_singleton, List.map_nil, h.top] at hf
  rw [Document.checkReferences, h.asserted, hf, Document.checkReferences]
  cases d.follow [.top] .top d.asserted.references [] with
  | error e => rfl
  | ok done =>
    show Except.ok (GraphId.top :: done.map f) = Except.ok (f .top :: done.map f)
    rw [h.top]

section
variable {ids : Identities} {source : GraphId} {g : Graph}

/-- Writing one more graph meets reached graphs only. -/
theorem reachable_of_step (ho : ∀ a ∈ ids.order, d.Reachable a) (hw : ∀ a ∈ ids.flattened, d.Reachable a)
    (hp : ids.pending? = some source) (hg : d.graph? source = some g) :
    (∀ a ∈ ((g.emit d.namespaces ids).2.markFlattened source).order, d.Reachable a) ∧
      ∀ a ∈ ((g.emit d.namespaces ids).2.markFlattened source).flattened, d.Reachable a := by
  have hs : source ∈ ids.order := (Identities.mem_of_pending? hp).1
  have hs' : source ∈ (g.emit d.namespaces ids).2.order := Graph.order_emit _ _ _ hs
  rw [Identities.order_markFlattened, Identities.flattened_markFlattened hs', Graph.flattened_emit]
  refine ⟨fun a ha => ?_, List.forall_mem_cons.2 ⟨ho source hs, hw⟩⟩
  rw [Graph.emit_snd, Identities.mem_order_meetAll] at ha
  rcases ha with ha | ha
  · exact ho a ha
  · exact (ho source hs).of_mem_references hg ha

/-- One graph is written as the same lines in both documents. -/
theorem flattenFrom_step (h : Renaming f d d') (ho : ∀ a ∈ ids.order, d.Reachable a)
    (hw : ∀ a ∈ ids.flattened, d.Reachable a) (hp : ids.pending? = some source) (hg : d.graph? source = some g) :
    d'.flattenFrom (ids.renamed f) =
      (d'.flattenFrom (((g.emit d.namespaces ids).2.markFlattened source).renamed f)).map
        fun r => ((g.emit d.namespaces ids).1 ++ r.1, r.2) := by
  have hs : source ∈ ids.order := (Identities.mem_of_pending? hp).1
  have hpend : (ids.renamed f).pending? = some (f source) := by
    rw [Identities.pending?_renamed h.injOn ho hw, hp, Option.map_some]
  have hg' : d'.graph? (f source) = some (g.renamed f) := by rw [h.graph source (ho source hs), hg, Option.map_some]
  have hr : ∀ r ∈ g.references, d.Reachable r := fun r => (ho source hs).of_mem_references hg
  have he : (g.renamed f).emit d'.namespaces (ids.renamed f) =
      ((g.emit d.namespaces ids).1, (g.emit d.namespaces ids).2.renamed f) := by
    rw [h.namespaces]
    exact Graph.emit_renamed h.injOn ho h.top .refl (id_of_graph? hg ▸ hs) hr
  have hm : ((g.emit d.namespaces ids).2.renamed f).markFlattened (f source) =
      ((g.emit d.namespaces ids).2.markFlattened source).renamed f := by
    refine Identities.markFlattened_renamed h.injOn (fun a ha => ?_) (ho source hs)
    rw [Graph.emit_snd, Identities.mem_order_meetAll] at ha
    exact ha.elim (ho a) (hr a)
  rw [flattenFrom_next hpend hg', he, hm]

/-- The rest of a document is written as the same lines, whatever has been met. -/
theorem flattenFrom (h : Renaming f d d') (ho : ∀ a ∈ ids.order, d.Reachable a)
    (hw : ∀ a ∈ ids.flattened, d.Reachable a) :
    d'.flattenFrom (ids.renamed f) =
      ((d.flattenFrom ids).map fun r => (r.1, r.2.renamed f)).mapError (GraphError.renamed f) := by
  fun_induction Document.flattenFrom d ids with
  | case1 ids hp =>
    have hpend : (ids.renamed f).pending? = none := by
      rw [Identities.pending?_renamed h.injOn ho hw, hp, Option.map_none]
    rw [flattenFrom_end hpend]
    rfl
  | case2 ids source hp hg =>
    have hpend : (ids.renamed f).pending? = some (f source) := by
      rw [Identities.pending?_renamed h.injOn ho hw, hp, Option.map_some]
    have hs : d.Reachable source := ho source (Identities.mem_of_pending? hp).1
    have hg' : d'.graph? (f source) = none := by rw [h.graph source hs, hg, Option.map_none]
    rw [flattenFrom_missing hpend hg']
    show Except.error (GraphError.dangling (f source) .top) = Except.error (GraphError.dangling (f source) (f .top))
    rw [h.top]
  | case3 ids source hp g hg step _ e he ih =>
    obtain ⟨ho', hw'⟩ := reachable_of_step ho hw hp hg
    rw [h.flattenFrom_step ho hw hp hg, ih ho' hw', he]
    rfl
  | case4 ids source hp g hg step _ lines ids' he ih =>
    obtain ⟨ho', hw'⟩ := reachable_of_step ho hw hp hg
    rw [h.flattenFrom_step ho hw hp hg, ih ho' hw', he]
    rfl

end

theorem flatten (h : Renaming f d d') :
    d'.flatten = (d.flatten.map fun r => (r.1, r.2.renamed f)).mapError (GraphError.renamed f) := by
  have hstart : Identities.start = Identities.start.renamed f := by simp [Identities.start, Identities.renamed, h.top]
  have ho : ∀ a ∈ Identities.start.order, d.Reachable a := by
    simp [Identities.start, Reachable, Relation.ReflTransGen.refl]
  have hf := h.flattenFrom ho (List.forall_mem_nil _)
  rw [← hstart] at hf
  rw [Document.flatten, h.checkReferences, Document.flatten]
  cases d.checkReferences with
  | error e => rfl
  | ok reached => exact hf

theorem canonicalize (h : Renaming f d d') :
    d'.canonicalize = d.canonicalize.mapError (GraphError.renamed f) := by
  rw [Document.canonicalize, h.flatten, Document.canonicalize]
  cases hf : d.flatten with
  | error e => rfl
  | ok r =>
    obtain ⟨lines, ids⟩ := r
    have hn := numbered_of_flatten hf
    have ho : ∀ a ∈ ids.order, d.Reachable a := fun a => (hn.mem_order a).1
    show Except.ok ((ids.renamed f).assignments.foldl _ _) = Except.ok (ids.assignments.foldl _ _)
    rw [Identities.assignments_renamed, List.foldl_map, h.namespaces]
    congr 1
    refine List.foldl_ext _ _ _ fun c p hp => ?_
    rw [hn.ordered.assignments_eq] at hp
    obtain ⟨source, hs, rfl⟩ := List.mem_map.1 hp
    dsimp only
    rw [h.graph source (ho source hs)]
    cases hg : d.graph? source with
    | none => rfl
    | some g =>
      have hr : ∀ r ∈ g.references, (ids.renamed f).rename (f r) = ids.rename r := fun r hr =>
        Identities.rename_renamed h.injOn ho ((hn.mem_order r).2 ((ho source hs).of_mem_references hg hr))
      rw [Option.map_some]
      dsimp only
      rw [Graph.mapGraph_renamed hr]

end Renaming

/-- Only the shape of a document is written, and only the shape is in its canonical
form: a document with other ids for the graphs that are reached, and with whatever
other graphs, gives the same lines and the same canonical form, or the same error
about the renamed graphs. -/
theorem output_of_renaming (h : Renaming f d d') :
    (∀ namespaceLines, d'.encode ⟨.quoted, namespaceLines⟩ =
      (d.encode ⟨.quoted, namespaceLines⟩).mapError (GraphError.renamed f)) ∧
    d'.canonicalize = d.canonicalize.mapError (GraphError.renamed f) := by
  refine ⟨fun namespaceLines => ?_, h.canonicalize⟩
  rw [encode, h.flatten, h.namespaces, encode]
  cases d.flatten <;> rfl

/-- A graph `a` and an empty graph `b`, shared by `a` and the asserted graph. -/
def sharing (a b : GraphId) (others : List Graph) : Document where
  graphs := [
    ⟨.top, [⟨.graph a, .iri .xsdString, .graph b⟩]⟩,
    ⟨a, [⟨.graph b, .iri .xsdString, .iri .xsdInteger⟩]⟩,
    ⟨b, []⟩] ++ others
  namespaces := .empty

/-- The ids change places, and the graphs that are not reached refer to themselves. -/
theorem output_of_renaming_sharing :
    let f : GraphId → GraphId := fun g => if g = 9 then 4 else if g = 4 then 1 else 0
    let d := sharing 9 4 [⟨2, [⟨.graph 2, .iri .xsdString, .graph 3⟩]⟩]
    let d' := sharing 4 1 [⟨9, [⟨.graph 9, .iri .xsdString, .graph 9⟩]⟩]
    Renaming f d d' ∧ (∃ lines, d.encode .standard = .ok lines ∧ d'.encode .standard = .ok lines) ∧
      ∃ c, d.canonicalize = .ok c ∧ d'.canonicalize = .ok c := by
  intro f d d'
  have hc : d.checkReferences = .ok [0, 9, 4] := by cbv
  have hmem : ∀ g, d.Reachable g ↔ g = 0 ∨ g = 9 ∨ g = 4 := by
    intro g
    rw [← (checkReferences_ok hc).2 g]
    simp
  have h : Renaming f d d' := by
    refine ⟨rfl, ?_, ?_, rfl⟩
    · intro a ha b hb
      rcases (hmem a).1 ha with rfl | rfl | rfl <;> rcases (hmem b).1 hb with rfl | rfl | rfl <;> decide
    · intro g hg
      rcases (hmem g).1 hg with rfl | rfl | rfl <;> rfl
  obtain ⟨he, hcan⟩ := output_of_renaming h
  obtain ⟨ids, hf, hn⟩ := flatten_ok (checkReferences_succeeds.1 ⟨_, hc⟩) (List.mem_cons_self ..)
  have hl := encode_standard hf
  have hd := hn.canonicalize_eq (checkReferences_succeeds.1 ⟨_, hc⟩) (List.mem_cons_self ..) hf
  refine ⟨h, ⟨_, hl, ?_⟩, _, hd, ?_⟩
  · rw [GraphFormat.standard, he true, ← GraphFormat.standard, hl]
    rfl
  · rw [hcan, hd]
    rfl

end Document

end AtomLines.Rdf
