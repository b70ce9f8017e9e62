import AtomLines.Proofs.Rdf.Asserted
/-!
# Flat documents

A flat line is the body of a line of the asserted graph. The flat writer fails exactly
if there is a quoted graph among the asserted terms; else the labelled lines are the
flat ones under the label of the asserted graph. The flat reader finds in its lines what
the other reader finds in the labelled ones.
-/

namespace AtomLines.Rdf

/-! ## Writing -/

theorem Term.flatAtom_eq (ns : Namespaces) (x : Term) :
    x.flatAtom ns = x.graph?.elim (.ok (x.atom ns)) fun g => .error (.quotedInFlat g) := by
  cases x <;> rfl

theorem Triple.flatAtom_eq (ns : Namespaces) (t : Triple) :
    t.flatAtom ns = t.references.head?.elim (.ok (t.atom ns)) fun g => .error (.quotedInFlat g) := by
  have hm : t.flatAtom ns = (t.terms.mapM (Term.flatAtom ns)).map SExpr.list := by
    simp only [flatAtom, terms, List.mapM_cons, List.mapM_nil]
    cases t.subject.flatAtom ns with
    | error e => rfl
    | ok s =>
      cases t.predicate.flatAtom ns with
      | error e => rfl
      | ok p => cases t.object.flatAtom ns <;> rfl
  rw [hm, mapM_eq_elim (Term.flatAtom_eq ns), references, List.head?_filterMap]
  cases t.terms.findSome? Term.graph? <;> rfl

/-- The line of a statement of the asserted graph. -/
def asserting (statement : SExpr) : SExpr := .list [GraphId.top.atom, statement]

namespace Document

variable {d : Document}

/-- The statements of a flat document. -/
def statements (d : Document) : List SExpr := d.asserted.triples.map (Triple.atom d.namespaces)

theorem encodeFlat_eq (d : Document) :
    d.encodeFlat = d.asserted.references.head?.elim (.ok d.statements) fun g => .error (.quotedInFlat g) := by
  rw [encodeFlat, mapM_eq_elim (Triple.flatAtom_eq d.namespaces), Graph.references, List.head?_flatMap]
  rfl

theorem encode_flat (d : Document) (namespaceLines : Bool) :
    d.encode ⟨.flat, namespaceLines⟩ =
      d.asserted.references.head?.elim
        (.ok (d.statements ++ if namespaceLines then d.namespaces.lines else []))
        fun g => .error (.quotedInFlat g) := by
  rw [encode, encodeFlat_eq]
  cases d.asserted.references.head? <;> rfl

theorem encode_flat_eq_ok {namespaceLines : Bool} {lines : List SExpr} :
    d.encode ⟨.flat, namespaceLines⟩ = .ok lines ↔
      d.asserted.references = [] ∧ lines = d.statements ++ if namespaceLines then d.namespaces.lines else [] := by
  rw [encode_flat]
  cases h : d.asserted.references with
  | nil => simp [eq_comm]
  | cons g rest => simp

theorem encode_flat_eq_error {namespaceLines : Bool} {e : GraphError} :
    d.encode ⟨.flat, namespaceLines⟩ = .error e ↔
      ∃ g, d.asserted.references.head? = some g ∧ e = .quotedInFlat g := by
  rw [encode_flat]
  cases h : d.asserted.references.head? with
  | none => simp
  | some g => simp [eq_comm]

/-- The labelled lines of the same statements. -/
theorem encode_asserting (ht : GraphId.top ∈ d.ids) (h : d.asserted.references = []) (namespaceLines : Bool) :
    d.encode ⟨.quoted, namespaceLines⟩ =
      .ok (d.statements.map asserting ++ if namespaceLines then d.namespaces.lines else []) := by
  obtain ⟨ids, hf⟩ := flatten_asserted ht h
  have hl : graphLines d.namespaces [d.asserted] = d.statements.map asserting := by
    rw [graphLines, List.flatMap_singleton, Graph.entries_of_top d.id_asserted, statements, List.map_map, List.map_map]
    rfl
  rw [encode_quoted, hf, hl]
  rfl

end Document

/-! ## Reading -/

namespace Entry

variable {ns : Namespaces} {frame : Document}

/-- The line of an entry in a flat document, where only the asserted graph has lines. -/
def flatLine (ns : Namespaces) : Entry → SExpr
  | statement _ t => t.atom ns
  | e => e.line ns

theorem proper_flatLine (ns : Namespaces) (e : Entry) : (e.flatLine ns).Proper := by
  cases e with
  | statement g t => exact .list (by simp [Term.proper_atom])
  | definition g => exact proper_line ns (.definition g)
  | binding label iri => exact proper_line ns (.binding label iri)

/-- The body of a statement is read as one of the asserted graph. Its first item is a
list, so it is not taken for a binding. -/
theorem ofExpr_reread_body (ns : Namespaces) (t : Triple) :
    GraphLine.ofExpr .flat (t.atom ns).reread = .ok ((statement .top t).seen ns) := by
  have hk : (t.atom ns).reread.hasHead "Namespace" = false := by
    rw [Triple.atom, SExpr.reread_list]
    cases t.subject <;> simp [Term.atom, GraphId.atom, SExpr.hasHead]
  rw [GraphLine.ofExpr, hk, Triple.atom, SExpr.reread_list]
  rfl

theorem ofExpr_reread_binding (ns : Namespaces) (label iri : String) :
    GraphLine.ofExpr .flat (bindingLine label iri).reread = .ok ((binding label iri).seen ns) := by
  have hk : (SExpr.symbol "Namespace").reread = .symbol "Namespace" := SExpr.reread_symbol (by decide) (by decide)
  simp only [bindingLine, SExpr.reread_list, List.map_cons, List.map_nil, hk, SExpr.reread_string]
  rfl

theorem ofLines_reread_flatLines {g : Graph} (hg : g.id = .top) :
    GraphLine.ofLines .flat (((g.entries ++ ns.entries).map (flatLine ns)).map SExpr.reread) =
      .ok (seenLines [g] ns) := by
  rw [seenLines, List.flatMap_singleton]
  refine ofLines_map fun e he => ?_
  rw [Graph.entries_of_top hg] at he
  rcases List.mem_append.1 he with he | he
  · obtain ⟨t, -, rfl⟩ := List.mem_map.1 he
    exact ofExpr_reread_body ns t
  · obtain ⟨label, iri, rfl⟩ := eq_binding_of_mem_entries he
    exact ofExpr_reread_binding ns label iri

/-- A triple without references is added as it was written, in both layouts. -/
theorem add_plain {t : Triple} (hx : ∀ x ∈ t.terms, Term.ofAtom frame.namespaces (x.atom ns).reread = .ok x)
    (hr : t.references = []) (encoding : GraphEncoding) (d : Document) (id : GraphId) :
    GraphLine.add encoding frame d ((statement id t).seen ns) = .ok (d.insert id t) := by
  have hread : ∀ x ∈ t.terms, GraphLine.readTerm encoding frame id (x.atom ns).reread = .ok x :=
    fun x hxt => readTerm_plain (hx x hxt) (List.filterMap_eq_nil_iff.1 hr x hxt) encoding id
  rw [seen, GraphLine.add, readTriple_ok hread]
  rfl

end Entry

namespace Document

variable {d : Document} {address : Option String}

/-- Flat lines that assert no quoted graph are read as the labelled ones are. -/
theorem decode_flat_eq {g : Graph} {ns : Namespaces} (hg : g.id = .top) (hr : g.references = []) (hc : g.Complete)
    (hb : ns.Bound address) (ht : Together [g]) :
    decode .flat address (((g.entries ++ ns.entries).map (Entry.flatLine ns)).map SExpr.reread) =
      decode .quoted address ((([g].flatMap Graph.entries ++ ns.entries).map (Entry.line ns)).map SExpr.reread) := by
  have hadd : ∀ l ∈ Entry.seenLines [g] ns, ∀ d : Document,
      GraphLine.add .flat (blank [g] ns) d l = GraphLine.add .quoted (blank [g] ns) d l := by
    intro l hl d
    obtain ⟨e, he, rfl⟩ := List.mem_map.1 hl
    cases e with
    | statement id t =>
      obtain ⟨g', hg', -, htg⟩ := Entry.mem_of_statement he
      rw [List.mem_singleton.1 hg'] at htg
      have hx : ∀ x ∈ t.terms, Term.ofAtom (blank [g] ns).namespaces (x.atom ns).reread = .ok x :=
        fun x hxt => Term.ofAtom_reread_atom ns (hc t htg x hxt)
      have hrt := Graph.references_eq_nil.1 hr t htg
      rw [Entry.add_plain hx hrt, Entry.add_plain hx hrt]
    | _ => rfl
  have hrun := foldlM_congr hadd (blank [g] ns)
  rw [decode_lines ht hb.nodup, hb.readAt_eq, ← hrun, decode, Entry.ofLines_reread_flatLines hg]
  dsimp only [bind, Except.bind]
  rw [Entry.skeleton_seenLines hb.nodup ht, hb.readAt_eq]

theorem together_asserted (h : d.asserted.references = []) : Together [d.asserted] where
  top := congrArg some d.id_asserted
  nodup := List.nodup_singleton _
  references := by simp [h]

/-- Of the flat lines of a document the asserted graph and the table come back. -/
theorem decode_flat (hn : d.asserted.triples.Nodup) (h : d.asserted.references = []) (hc : d.asserted.Complete)
    (hb : d.namespaces.Bound address) :
    decode .flat address (((d.asserted.entries ++ d.namespaces.entries).map (Entry.flatLine d.namespaces)).map
      SExpr.reread) = .ok ⟨[d.asserted], d.namespaces⟩ := by
  have ht := together_asserted h
  have hs : Sound ⟨[d.asserted].map Graph.distinct, d.namespaces⟩ := by
    rw [List.map_singleton, Graph.distinct_of_nodup hn]
    exact sound_of_references_nil (by rw [asserted_single d.id_asserted, h])
  rw [decode_flat_eq d.id_asserted h hc hb ht, decode_entries ht (by simpa using hc) hb hs, List.map_singleton,
    Graph.distinct_of_nodup hn]

theorem flatLines_eq (d : Document) :
    d.statements ++ d.namespaces.lines =
      (d.asserted.entries ++ d.namespaces.entries).map (Entry.flatLine d.namespaces) := by
  have hb : d.namespaces.entries.map (Entry.flatLine d.namespaces) =
      d.namespaces.entries.map (Entry.line d.namespaces) := by
    refine List.map_congr_left fun e he => ?_
    obtain ⟨label, iri, rfl⟩ := Entry.eq_binding_of_mem_entries he
    rfl
  rw [List.map_append, hb, ← Namespaces.lines_eq, Graph.entries_of_top d.id_asserted, List.map_map, statements]
  rfl

/-! ## Both layouts -/

theorem encode_flat_fails {namespaceLines : Bool} :
    (∃ e, d.encode ⟨.flat, namespaceLines⟩ = .error e) ↔
      ∃ t ∈ d.asserted.triples, ∃ x ∈ t.terms, ∃ g, x = .graph g := by
  constructor
  · rintro ⟨e, h⟩
    obtain ⟨g, hg, -⟩ := encode_flat_eq_error.1 h
    obtain ⟨t, ht, hr⟩ := Graph.mem_references.1 (List.mem_of_head? hg)
    obtain ⟨x, hx, hxg⟩ := List.mem_filterMap.1 hr
    cases x with
    | graph id => exact ⟨t, ht, _, hx, id, rfl⟩
    | _ => cases hxg
  · rintro ⟨t, ht, x, hx, g, rfl⟩
    have hr : g ∈ d.asserted.references :=
      Graph.mem_references.2 ⟨t, ht, Entry.mem_references_of_mem_terms hx rfl⟩
    obtain ⟨first, hfirst⟩ := Option.isSome_iff_exists.1 (List.isSome_head?.2 (List.ne_nil_of_mem hr))
    exact ⟨_, encode_flat_eq_error.2 ⟨first, hfirst, rfl⟩⟩

/-- A flat document is refused exactly if a quoted graph is asserted, with the first one
there is in the order of triples and terms. Else its statements are the bodies of the
lines in the other layout, and they are read as the asserted graph with the table of
namespaces. -/
theorem flat_agrees (hw : d.WellFormed) :
    (∀ namespaceLines,
      ((∃ e, d.encode ⟨.flat, namespaceLines⟩ = .error e) ↔
        ∃ t ∈ d.asserted.triples, ∃ x ∈ t.terms, ∃ g, x = .graph g) ∧
      (∀ e, d.encode ⟨.flat, namespaceLines⟩ = .error e →
        ∃ g, d.asserted.references.head? = some g ∧ e = .quotedInFlat g) ∧
      ∀ lines, d.encode ⟨.flat, namespaceLines⟩ = .ok lines →
        ∃ statements bindings, lines = statements ++ bindings ∧
          bindings = (if namespaceLines then d.namespaces.lines else []) ∧
          d.encode ⟨.quoted, namespaceLines⟩ = .ok (statements.map asserting ++ bindings)) ∧
    ∀ lines address, d.encode ⟨.flat, true⟩ = .ok lines → localLabel ∉ Keyed.keys d.namespaces.prefixes →
      d.asserted.Complete →
      address.bind (fun a => (LocalNamespace.ofDocument a).base) = d.namespaces.own.bind LocalNamespace.base →
      ∃ es, SExpr.read (SExpr.write lines) = .ok es ∧ decode .flat address es = .ok ⟨[d.asserted], d.namespaces⟩ := by
  refine ⟨fun namespaceLines => ⟨encode_flat_fails, fun e => encode_flat_eq_error.1, ?_⟩, ?_⟩
  · intro lines h
    obtain ⟨hr, rfl⟩ := encode_flat_eq_ok.1 h
    exact ⟨_, _, rfl, rfl, encode_asserting hw.top_mem hr namespaceLines⟩
  · intro lines address h hl hc hb
    obtain ⟨hr, rfl⟩ := encode_flat_eq_ok.1 h
    rw [if_pos rfl, flatLines_eq]
    have hn : d.asserted.triples.Nodup := hw.nodup_of_graph? (graph?_top hw.top_mem)
    refine ⟨_, (SExpr.readsAs_lineChars fun line hm => ?_).read_eq, decode_flat hn hr hc ⟨hw.labels, hl, hb⟩⟩
    obtain ⟨e, -, rfl⟩ := List.mem_map.1 hm
    exact e.proper_flatLine d.namespaces

/-- A document with local names that are read as a number and a string, and a quoted
graph that is not reached and refers to itself. -/
def plainDocument : Document where
  graphs := [
    ⟨.top, [
      ⟨.iri ⟨"file:///kb#1e3", by decide +kernel⟩, .iri ⟨"ex:p", iriProblem_property⟩,
        .literal (.tagged "(a \"b\"" ⟨"fr", by decide +kernel, by decide +kernel⟩)⟩,
      ⟨.blank ⟨"b0", by decide +kernel⟩, .iri ⟨"file:///kb#(x)", by decide +kernel⟩, .literal (.typed "" .xsdInteger)⟩]⟩,
    ⟨9, [⟨.graph 9, .iri ⟨"ex:p", iriProblem_property⟩, .graph 2⟩]⟩]
  namespaces := ⟨[("ex", "http://example.org/")], some ⟨"k b", some "file:///kb#"⟩⟩

/-- One document that can be written flat, and one that cannot. -/
theorem flat_agrees_plain :
    plainDocument.WellFormed ∧ oddDocument.WellFormed ∧
      (∃ lines statements bindings es, plainDocument.encode ⟨.flat, true⟩ = .ok lines ∧
        lines = statements ++ bindings ∧ bindings.length = 2 ∧
        plainDocument.encode ⟨.quoted, true⟩ = .ok (statements.map asserting ++ bindings) ∧
        SExpr.read (SExpr.write lines) = .ok es ∧
        decode .flat (some "file:///kb") es = .ok ⟨[plainDocument.asserted], plainDocument.namespaces⟩) ∧
      oddDocument.encode ⟨.flat, true⟩ = .error (.quotedInFlat 9) := by
  have hw : plainDocument.WellFormed := by
    refine ⟨by decide, by decide, ?_, by decide⟩
    decide +kernel
  have hc : plainDocument.asserted.Complete := by
    have hi : Iri.xsdInteger ≠ .rdfLangString := by decide
    simp [plainDocument, asserted, graph?, Graph.Complete, Triple.terms, Term.Complete, Literal.Complete, hi]
  refine ⟨hw, wellFormed_oddDocument, ?_, ?_⟩
  · obtain ⟨hlayout, hback⟩ := flat_agrees hw
    have he : plainDocument.encode ⟨.flat, true⟩ = .ok (plainDocument.statements ++ plainDocument.namespaces.lines) :=
      encode_flat_eq_ok.2 ⟨by decide, rfl⟩
    obtain ⟨statements, bindings, hl, hb, hq⟩ := (hlayout true).2.2 _ he
    obtain ⟨es, hread, hdecode⟩ := hback _ (some "file:///kb") he (by decide) hc (by decide)
    exact ⟨_, statements, bindings, es, he, hl, by rw [hb]; rfl, hq, hread, hdecode⟩
  · obtain ⟨hfails, hfirst, -⟩ := (flat_agrees wellFormed_oddDocument).1 true
    obtain ⟨e, he⟩ := hfails.2 ⟨_, List.mem_cons_self, .graph 9, by decide, 9, rfl⟩
    obtain ⟨g, hg, rfl⟩ := hfirst e he
    have h9 : oddDocument.asserted.references.head? = some 9 := rfl
    rw [he, Option.some.inj (hg.symm.trans h9)]

end Document

end AtomLines.Rdf
