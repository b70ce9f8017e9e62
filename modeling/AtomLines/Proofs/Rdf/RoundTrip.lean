import AtomLines.Proofs.Rdf.Decode
import AtomLines.Proofs.Rdf.Flatten
import Mathlib.Data.List.Permutation
/-!
# Documents come back from their text

A document whose references are sound is written, and its text is read as its
canonical form: reached graphs only, numbered in the order in which they are referred
to. Renumbering keeps references and their absence of cycles, since it is injective
on the reached graphs.
-/

namespace AtomLines.Rdf

/-! ## References under renumbering -/

theorem Term.graph?_mapGraph (f : GraphId → GraphId) (x : Term) : (x.mapGraph f).graph? = x.graph?.map f := by
  cases x <;> rfl

theorem Triple.references_mapGraph (f : GraphId → GraphId) (t : Triple) :
    (t.mapGraph f).references = t.references.map f := by
  have ht : (t.mapGraph f).terms = t.terms.map (Term.mapGraph f) := rfl
  rw [references, ht, List.filterMap_map, references, List.map_filterMap]
  exact List.filterMap_congr fun x _ => x.graph?_mapGraph f

theorem Graph.mem_references_renumbered {ids : Identities} {g : Graph} {r : GraphId} :
    r ∈ (g.renumbered ids).references ↔ ∃ s ∈ g.references, ids.rename s = r := by
  simp only [mem_references, renumbered, mapGraph, List.mem_map]
  constructor
  · rintro ⟨-, ⟨t, ht, rfl⟩, hr⟩
    rw [Triple.references_mapGraph, List.mem_map] at hr
    obtain ⟨s, hs, rfl⟩ := hr
    exact ⟨s, ⟨t, ht, hs⟩, rfl⟩
  · rintro ⟨s, ⟨t, ht, hs⟩, rfl⟩
    refine ⟨_, ⟨t, ht, rfl⟩, ?_⟩
    rw [Triple.references_mapGraph]
    exact List.mem_map_of_mem hs

theorem Term.Complete.mapGraph {x : Term} (h : x.Complete) (f : GraphId → GraphId) : (x.mapGraph f).Complete := by
  cases x with
  | graph id => rintro l ⟨⟩
  | _ => exact h

theorem Graph.Complete.renumbered {g : Graph} (h : g.Complete) (ids : Identities) : (g.renumbered ids).Complete := by
  intro t ht x hx
  obtain ⟨t, ht', rfl⟩ := List.mem_map.1 ht
  have hx' : x ∈ t.terms.map (Term.mapGraph ids.rename) := hx
  obtain ⟨x, hxt, rfl⟩ := List.mem_map.1 hx'
  exact (h t ht' x hxt).mapGraph _

namespace Document

variable {d : Document} {ids : Identities}

theorem mem_renumbered {order : List GraphId} {g' : Graph} (h : g' ∈ d.renumbered ids order) :
    ∃ g, g.id ∈ order ∧ d.graph? g.id = some g ∧ g' = g.renumbered ids := by
  obtain ⟨g, hg, rfl⟩ := List.mem_map.1 h
  obtain ⟨s, hs, hg⟩ := List.mem_filterMap.1 hg
  obtain rfl := id_of_graph? hg
  exact ⟨g, hs, hg, rfl⟩

/-- No reached graph refers to the asserted one. -/
theorem Sound.ne_top {a b : GraphId} (hd : d.Sound) (ha : d.Reachable a) (hab : d.Refers a b) : b ≠ .top := by
  rintro rfl
  exact (hd .top .refl).2 (Relation.TransGen.tail' ha hab)

theorem Numbered.together (h : d.Numbered ids) (hd : d.Sound) (ht : GraphId.top ∈ d.ids) :
    Together (d.renumbered ids ids.order) where
  top := h.head?_renumbered hd ht
  nodup := h.nodup_renumbered hd ht
  references := by
    intro g' hg' r hr
    obtain ⟨g, hg, hf, rfl⟩ := mem_renumbered hg'
    obtain ⟨s, hs, rfl⟩ := Graph.mem_references_renumbered.1 hr
    have hgr : d.Reachable g.id := (h.mem_order g.id).1 hg
    have hgs : d.Refers g.id s := (refers_of_graph? hf).2 hs
    have hso : s ∈ ids.order := (h.mem_order s).2 (hgr.tail hgs)
    constructor
    · exact fun e => hd.ne_top hgr hgs ((h.ordered.rename_eq_top hso).1 e)
    · rw [h.ids_renumbered hd ht]
      exact List.mem_map_of_mem hso

/-- The document of the renumbered graphs. -/
def canonical (d : Document) (ids : Identities) : Document :=
  ⟨(d.renumbered ids ids.order).map Graph.distinct, d.namespaces⟩

/-- A reference between renumbered graphs comes from one between the graphs. -/
theorem Numbered.refers (h : d.Numbered ids) {a' b' : GraphId} (hr : (d.canonical ids).Refers a' b') :
    ∃ a b, a ∈ ids.order ∧ b ∈ ids.order ∧ ids.rename a = a' ∧ ids.rename b = b' ∧ d.Refers a b := by
  obtain ⟨g', hg', t, ht, hb⟩ := hr
  obtain rfl := id_of_graph? hg'
  obtain ⟨g', hm, rfl⟩ := List.mem_map.1 (mem_of_graph? hg')
  obtain ⟨g, hg, hf, rfl⟩ := mem_renumbered hm
  have hb' : b' ∈ (g.renumbered ids).references := Graph.mem_references.2 ⟨t, Graph.mem_distinct.1 ht, hb⟩
  obtain ⟨b, hbg, rfl⟩ := Graph.mem_references_renumbered.1 hb'
  have hab : d.Refers g.id b := (refers_of_graph? hf).2 hbg
  refine ⟨g.id, b, hg, ?_, ?_, rfl, hab⟩
  · exact (h.mem_order b).2 (((h.mem_order g.id).1 hg).tail hab)
  · rw [Graph.id_distinct]
    rfl

theorem Numbered.leads (h : d.Numbered ids) {a' b' : GraphId}
    (hr : Relation.TransGen (d.canonical ids).Refers a' b') :
    ∃ a b, a ∈ ids.order ∧ b ∈ ids.order ∧ ids.rename a = a' ∧ ids.rename b = b' ∧
      Relation.TransGen d.Refers a b := by
  induction hr with
  | single hr =>
    obtain ⟨a, b, ha, hb, rfl, rfl, hab⟩ := h.refers hr
    exact ⟨a, b, ha, hb, rfl, rfl, .single hab⟩
  | tail _ hr ih =>
    obtain ⟨a, b, ha, hb, rfl, rfl, hab⟩ := ih
    obtain ⟨b₁, c, hb₁, hc, e, rfl, hbc⟩ := h.refers hr
    -- The two graphs in the middle have one number, so they are one graph.
    obtain rfl := h.ordered.rename_inj hb₁ hb e
    exact ⟨a, c, ha, hc, rfl, rfl, hab.tail hbc⟩

theorem Numbered.sound_canonical (h : d.Numbered ids) (hd : d.Sound) (ht : GraphId.top ∈ d.ids) :
    (d.canonical ids).Sound := by
  intro g' hg'
  constructor
  · rcases Relation.ReflTransGen.cases_tail hg' with rfl | ⟨a', -, hr⟩
    · exact .inl rfl
    · obtain ⟨a, b, -, hb, -, rfl, -⟩ := h.refers hr
      refine .inr (isSome_graph?.2 ?_)
      have hm : ids.rename b ∈ (d.renumbered ids ids.order).map Graph.id := by
        rw [h.ids_renumbered hd ht]
        exact List.mem_map_of_mem hb
      simpa [canonical, Document.ids] using hm
  · intro hc
    obtain ⟨a, b, ha, hb, rfl, e, hab⟩ := h.leads hc
    obtain rfl := h.ordered.rename_inj hb ha e
    exact (hd b ((h.mem_order b).1 hb)).2 hab

/-! ## Documents -/

theorem encode_quoted (d : Document) (namespaceLines : Bool) :
    d.encode ⟨.quoted, namespaceLines⟩ =
      d.flatten.map fun r => r.1 ++ if namespaceLines then d.namespaces.lines else [] := by
  rw [encode]
  cases d.flatten <;> rfl

theorem encode_standard {gs : List Graph} (hf : d.flatten = .ok (graphLines d.namespaces gs, ids)) :
    d.encode .standard = .ok ((gs.flatMap Graph.entries ++ d.namespaces.entries).map (Entry.line d.namespaces)) := by
  rw [GraphFormat.standard, encode_quoted, hf, List.map_append, ← Namespaces.lines_eq]
  rfl

/-- The lines of the reached graphs under their numbers, and those of the namespaces. -/
def numberedLines (d : Document) (ids : Identities) : List SExpr :=
  ((d.renumbered ids ids.order).flatMap Graph.entries ++ d.namespaces.entries).map (Entry.line d.namespaces)

/-- A document whose references are sound is written as its numbered lines, and these
are read from their text. -/
theorem written_ok (hd : d.Sound) (ht : GraphId.top ∈ d.ids) :
    ∃ ids, d.Numbered ids ∧ d.canonicalize = .ok (d.canonical ids) ∧ d.encode .standard = .ok (d.numberedLines ids) ∧
      SExpr.read (SExpr.write (d.numberedLines ids)) = .ok ((d.numberedLines ids).map SExpr.reread) := by
  obtain ⟨ids, hf, hn⟩ := flatten_ok hd ht
  refine ⟨ids, hn, hn.canonicalize_eq hd ht hf, encode_standard hf, (SExpr.readsAs_lineChars ?_).read_eq⟩
  intro line hm
  obtain ⟨e, -, rfl⟩ := List.mem_map.1 hm
  exact e.proper_line d.namespaces

/-- The numbered lines of a document are read as its renumbered graphs, with the terms
that the reading table makes of theirs. -/
theorem Numbered.decode_map (h : d.Numbered ids) (hd : d.Sound) (hw : d.WellFormed) {address : Option String}
    {m : Term → Term} (hm : ∀ x, (m x).graph? = x.graph?)
    (hx : ∀ g ∈ d.renumbered ids ids.order, ∀ t ∈ g.triples, ∀ x ∈ t.terms,
      Term.ofAtom (d.namespaces.readAt address) (x.atom d.namespaces).reread = .ok (m x)) :
    decode .quoted address ((d.numberedLines ids).map SExpr.reread) =
      .ok ⟨(d.renumbered ids ids.order).map fun g => (g.map m).distinct, d.namespaces.readAt address⟩ :=
  decode_entries_map (h.together hd hw.top_mem) hw.labels hm hx (h.sound_canonical hd hw.top_mem)

theorem Numbered.decode_same (h : d.Numbered ids) (hd : d.Sound) (hw : d.WellFormed) {address : Option String}
    (hx : ∀ g ∈ d.renumbered ids ids.order, ∀ t ∈ g.triples, ∀ x ∈ t.terms,
      Term.ofAtom (d.namespaces.readAt address) (x.atom d.namespaces).reread = .ok x) :
    decode .quoted address ((d.numberedLines ids).map SExpr.reread) =
      .ok { d.canonical ids with namespaces := d.namespaces.readAt address } := by
  rw [h.decode_map hd hw (fun _ => rfl) hx]
  simp only [Graph.map_same]
  rfl

/-- They are refused for the reason for which any of their terms is. -/
theorem Numbered.decode_refused (h : d.Numbered ids) (hd : d.Sound) (hw : d.WellFormed) {address : Option String}
    {cause : TermError} (hx : ∀ g ∈ d.renumbered ids ids.order, ∀ t ∈ g.triples, ∀ x ∈ t.terms,
      Term.ofAtom (d.namespaces.readAt address) (x.atom d.namespaces).reread = .ok x ∨
        Term.ofAtom (d.namespaces.readAt address) (x.atom d.namespaces).reread = .error cause)
    (hex : ∃ g ∈ d.renumbered ids ids.order, ∃ t ∈ g.triples, ∃ x ∈ t.terms,
      Term.ofAtom (d.namespaces.readAt address) (x.atom d.namespaces).reread = .error cause) :
    ∃ g ∈ d.renumbered ids ids.order,
      decode .quoted address ((d.numberedLines ids).map SExpr.reread) = .error (.term g.id cause) :=
  Document.decode_refused (h.together hd hw.top_mem) hw.labels hx hex

theorem Numbered.complete (hn : d.Numbered ids) (hc : ∀ id g, d.Reachable id → d.graph? id = some g → g.Complete) :
    ∀ g ∈ d.renumbered ids ids.order, g.Complete := by
  intro g' hg'
  obtain ⟨g, hid, hg, rfl⟩ := mem_renumbered hg'
  exact (hc g.id g ((hn.mem_order g.id).1 hid) hg).renumbered ids

/-- The text of a document whose references are sound is read as its canonical form,
at every address that gives the base of its local namespace. -/
theorem decode_written (d : Document) (address : Option String) (hw : d.WellFormed) (hd : d.Sound)
    (hl : localLabel ∉ Keyed.keys d.namespaces.prefixes)
    (hc : ∀ id g, d.Reachable id → d.graph? id = some g → g.Complete)
    (hb : address.bind (fun a => (LocalNamespace.ofDocument a).base) = d.namespaces.own.bind LocalNamespace.base) :
    ∃ lines es c, d.encode .standard = .ok lines ∧ SExpr.read (SExpr.write lines) = .ok es ∧
      d.canonicalize = .ok c ∧ Document.decode .quoted address es = .ok c := by
  have ht : GraphId.top ∈ d.ids := List.mem_of_mem_head? hw.top
  obtain ⟨ids, hf, hn⟩ := flatten_ok hd ht
  have hcs : ∀ g ∈ d.renumbered ids ids.order, g.Complete := by
    intro g' hg'
    obtain ⟨g, hg, hfind, rfl⟩ := mem_renumbered hg'
    exact (hc g.id g ((hn.mem_order g.id).1 hg) hfind).renumbered ids
  refine ⟨_, _, d.canonical ids, encode_standard hf, (SExpr.readsAs_lineChars ?_).read_eq,
    hn.canonicalize_eq hd ht hf, decode_entries (hn.together hd ht) hcs ⟨hw.labels, hl, hb⟩ (hn.sound_canonical hd ht)⟩
  intro line hm
  obtain ⟨e, -, rfl⟩ := List.mem_map.1 hm
  exact e.proper_line d.namespaces

/-! Two IRIs that several of the sample documents use. -/

theorem iriProblem_property : iriProblem? "ex:p".toList = none := by decide +kernel

theorem iriProblem_localA : iriProblem? "file:///kb#a".toList = none := by decide +kernel

/-- A document with a shared and an empty quoted graph, one that is not reached and
refers to a missing one, and local names that are read as a number and a string. -/
def oddDocument : Document where
  graphs := [
    ⟨.top, [
      ⟨.iri ⟨"file:///kb#-5", by decide +kernel⟩, .graph 9,
        .literal (.tagged "(a \"b\"" ⟨"en", by decide +kernel, by decide +kernel⟩)⟩,
      ⟨.graph 9, .var ⟨"1", by decide +kernel⟩, .graph 4⟩]⟩,
    ⟨9, [⟨.graph 4, .iri ⟨"file:///kb#;", by decide +kernel⟩, .literal (.typed "" .xsdInteger)⟩]⟩,
    ⟨4, []⟩,
    ⟨2, [⟨.graph 3, .blank ⟨"0", by decide +kernel⟩, .graph 2⟩]⟩]
  namespaces := ⟨[("ex", "http://example.org/")], some ⟨"k b", some "file:///kb#"⟩⟩

theorem wellFormed_oddDocument : oddDocument.WellFormed := by
  refine ⟨by decide, by decide, ?_, by decide⟩
  decide +kernel

theorem decode_written_odd :
    ∃ lines es c, oddDocument.encode .standard = .ok lines ∧ SExpr.read (SExpr.write lines) = .ok es ∧
      oddDocument.canonicalize = .ok c ∧ Document.decode .quoted (some "file:///kb") es = .ok c ∧
      c.ids = [0, 1, 2] := by
  have hs : oddDocument.Sound := checkReferences_succeeds.1 ⟨[0, 9, 4], by cbv⟩
  have hc : ∀ g ∈ oddDocument.graphs, g.Complete := by
    have hd : Iri.xsdInteger ≠ .rdfLangString := by decide
    simp [oddDocument, Graph.Complete, Triple.terms, Term.Complete, Literal.Complete, hd]
  obtain ⟨lines, es, c, he, hr, hf, hd⟩ := decode_written oddDocument (some "file:///kb") wellFormed_oddDocument hs (by decide)
    (fun _ _ _ hg => hc _ (mem_of_graph? hg)) (by decide)
  have hi : oddDocument.canonicalize.map Document.ids = .ok [0, 1, 2] := by cbv
  rw [hf] at hi
  exact ⟨lines, es, c, he, hr, hf, hd, Except.ok.inj hi⟩

end Document

end AtomLines.Rdf
