import AtomLines.Proofs.Rdf.Asserted
import AtomLines.Proofs.Rdf.LineOrder
import AtomLines.Rdf.Exchange.Import
/-!
# Imported documents from their text

An imported document has no quoted graphs, so it is its own canonical form. All of it
is read again but a prefix with the label of the local namespace, which has no line; and
it is refused if one of its literals is of the language datatype and has no tag.
-/

namespace AtomLines.Rdf

namespace Exchange

/-! ## Terms of the data model -/

variable {n : Node} {x : Term}

theorem Node.graph?_of_toIri {text : String} (h : toIri text = .ok x) : x.graph? = none := by
  obtain ⟨i, -, rfl⟩ := map_eq_ok.1 (mapError_eq_ok.1 h)
  rfl

theorem Node.graph?_of_toBlank {label : String} (h : toBlank label = .ok x) : x.graph? = none := by
  obtain ⟨b, -, rfl⟩ := map_eq_ok.1 (mapError_eq_ok.1 h)
  rfl

theorem Node.graph?_of_toSubject (h : n.toSubject = .ok x) : x.graph? = none := by
  cases n with
  | iri text => exact graph?_of_toIri h
  | blank label => exact graph?_of_toBlank h
  | _ => cases h

theorem Node.graph?_of_toObject (h : n.toObject = .ok x) : x.graph? = none := by
  cases n with
  | iri text => exact graph?_of_toIri h
  | blank label => exact graph?_of_toBlank h
  | plain text =>
    cases h
    rfl
  | tagged text tag =>
    cases h
    rfl
  | typed text datatype =>
    obtain ⟨d, -, rfl⟩ := map_eq_ok.1 (mapError_eq_ok.1 h)
    rfl
  | quotation => cases h

/-- Nothing that a text states refers to a quoted graph. -/
theorem Statement.references_of_toTriple {s : Statement} {t : Triple} (h : s.toTriple = .ok t) : t.references = [] := by
  obtain ⟨subject, hs, h⟩ := bind_eq_ok.1 h
  obtain ⟨predicate, hp, h⟩ := bind_eq_ok.1 h
  obtain ⟨object, ho, h⟩ := bind_eq_ok.1 h
  cases h
  simp [Triple.references, Triple.terms, Node.graph?_of_toSubject hs, Node.graph?_of_toIri hp,
    Node.graph?_of_toObject ho]

theorem Reading.references_of_triples {r : Reading} {ts : List Triple} (h : r.triples = .ok ts) :
    ∀ t ∈ ts, t.references = [] := by
  obtain ⟨ts', hm, h⟩ := bind_eq_ok.1 h
  split at h
  · cases h
    intro t ht
    obtain ⟨s, -, hs⟩ := ((mapM_ok_mem hm).2 t).1 ht
    exact s.references_of_toTriple hs
  · cases h

/-! ## Imported documents -/

theorem own_tableOf (base : Option String) (prefixes : List (String × String)) :
    (tableOf base prefixes).own = base.map .ofDocument :=
  List.foldlRecOn (motive := fun ns : Namespaces => ns.own = base.map .ofDocument) _ _ rfl fun _ h _ _ => h

theorem nodup_keys_tableOf (base : Option String) (prefixes : List (String × String)) :
    (Keyed.keys (tableOf base prefixes).prefixes).Nodup :=
  List.foldlRecOn (motive := fun ns : Namespaces => (Keyed.keys ns.prefixes).Nodup) _ _ List.nodup_nil
    fun _ h _ _ => Keyed.nodup_keys_put h

theorem importDocument_eq_ok {format : Format} {base : Option String} {text : String} {d : Document} :
    importDocument format base text = .ok d ↔ ∃ reading ts, read format base text = .ok reading ∧
      reading.triples = .ok ts ∧ d = ⟨[(Graph.mk .top ts).distinct], tableOf base reading.prefixes⟩ := by
  have hput : ∀ ts ns, (Document.new ns).put (ts.foldl Graph.insert (.empty .top)) =
      ⟨[(Graph.mk .top ts).distinct], ns⟩ := by
    intro ts ns
    have hn : ([(Graph.mk .top ts).distinct].map Graph.id).Nodup := List.nodup_singleton _
    have hid : ([(Graph.mk .top ts).distinct].map Graph.id).head? = some .top :=
      congrArg some (Graph.mk .top ts).id_distinct
    exact Document.foldl_put_new hn hid ns
  rw [importDocument]
  simp only [bind_eq_ok, hput]
  constructor
  · rintro ⟨reading, hr, ts, ht, h⟩
    cases h
    exact ⟨reading, ts, hr, ht, rfl⟩
  · rintro ⟨reading, ts, hr, ht, rfl⟩
    exact ⟨reading, hr, ts, ht, rfl⟩

theorem importDocument_of_nodup {format : Format} {base : Option String} {text : String} {r : Reading}
    {ts : List Triple} (hr : read format base text = .ok r) (ht : r.triples = .ok ts) (hn : ts.Nodup) :
    importDocument format base text = .ok ⟨[⟨.top, ts⟩], tableOf base r.prefixes⟩ := by
  refine importDocument_eq_ok.2 ⟨r, ts, hr, ht, ?_⟩
  rw [Graph.distinct_of_nodup hn]

end Exchange

namespace Document

variable {d : Document} {base : Option String}

/-- What holds of a document that was imported with a base: there is only the asserted
graph, and it refers to no other. -/
structure Imported (d : Document) (base : Option String) : Prop where
  graphs : d.graphs = [d.asserted]
  nodup : d.asserted.triples.Nodup
  references : ∀ t ∈ d.asserted.triples, t.references = []
  labels : (Keyed.keys d.namespaces.prefixes).Nodup
  own : d.namespaces.own = base.map .ofDocument

theorem imported_of_import {format : Exchange.Format} {text : String}
    (h : Exchange.importDocument format base text = .ok d) : d.Imported base := by
  obtain ⟨reading, ts, -, ht, rfl⟩ := Exchange.importDocument_eq_ok.1 h
  have ha : asserted ⟨[(Graph.mk .top ts).distinct], Exchange.tableOf base reading.prefixes⟩ =
      (Graph.mk .top ts).distinct := by
    simp [asserted, graph?]
  refine ⟨by rw [ha], ?_, ?_, Exchange.nodup_keys_tableOf base _, Exchange.own_tableOf base _⟩
  · rw [ha]
    exact Graph.nodup_distinct _
  · rw [ha]
    exact fun t ht' => Exchange.Reading.references_of_triples ht t (Graph.mem_distinct.1 ht')

theorem Imported.ids_eq (h : d.Imported base) : d.ids = [.top] := by
  rw [ids, h.graphs, List.map_singleton, id_asserted]

theorem Imported.wellFormed (h : d.Imported base) : d.WellFormed where
  top := by rw [h.ids_eq]; rfl
  ids := by rw [h.ids_eq]; exact List.nodup_singleton _
  triples g hg := by
    rw [h.graphs] at hg
    rw [List.mem_singleton.1 hg]
    exact h.nodup
  labels := h.labels

theorem Imported.references_eq (h : d.Imported base) : d.asserted.references = [] :=
  Graph.references_eq_nil.2 h.references

theorem Imported.sound (h : d.Imported base) : d.Sound := sound_of_references_nil h.references_eq

/-! ## Their canonical form -/

theorem Imported.renumbered_eq (h : d.Imported base) {ids : Identities} (hn : d.Numbered ids) :
    d.renumbered ids ids.order = [d.asserted] :=
  hn.renumbered_eq_asserted h.wellFormed.top_mem h.references_eq

theorem Imported.readAt_eq (h : d.Imported base) :
    d.namespaces.readAt base = { d.namespaces with prefixes := d.namespaces.prefixes.filter (·.1 ≠ localLabel) } := by
  have ho : (d.namespaces.readAt base).own = d.namespaces.own := by
    rw [Namespaces.readAt, h.own]
    cases base <;> rfl
  exact congrArg (Namespaces.mk _) ho

/-- Only prefixes are different in the reading table, which do not matter to terms. -/
theorem Imported.ofAtom_readAt (h : d.Imported base) (e : SExpr) :
    Term.ofAtom (d.namespaces.readAt base) e = Term.ofAtom d.namespaces e :=
  Term.ofAtom_congr (by rw [h.readAt_eq]) e

section

variable {ids : Identities}

theorem Imported.decode_complete (h : d.Imported base) (hn : d.Numbered ids) (hc : d.asserted.Complete) :
    decode .quoted base ((d.numberedLines ids).map SExpr.reread) =
      .ok { d with namespaces.prefixes := d.namespaces.prefixes.filter (·.1 ≠ localLabel) } := by
  have hx : ∀ g ∈ d.renumbered ids ids.order, ∀ t ∈ g.triples, ∀ x ∈ t.terms,
      Term.ofAtom (d.namespaces.readAt base) (x.atom d.namespaces).reread = .ok x := by
    rw [h.renumbered_eq hn, List.forall_mem_singleton]
    intro t ht x hx
    rw [h.ofAtom_readAt, Term.ofAtom_reread_atom d.namespaces (hc t ht x hx)]
  rw [hn.decode_same h.sound h.wellFormed hx, h.readAt_eq, hn.canonical_renumbered h.wellFormed, h.renumbered_eq hn,
    ← h.graphs]

theorem Imported.decode_incomplete (h : d.Imported base) (hn : d.Numbered ids) (hc : ¬ d.asserted.Complete) :
    decode .quoted base ((d.numberedLines ids).map SExpr.reread) =
      .error (.term .top (.malformed .missingLanguage)) := by
  have hbad : ∃ t ∈ d.asserted.triples, ∃ x ∈ t.terms, ¬ x.Complete := by
    simpa [Graph.Complete] using hc
  obtain ⟨t, ht, x, hxt, hcx⟩ := hbad
  have hg : d.asserted ∈ d.renumbered ids ids.order := by
    rw [h.renumbered_eq hn]
    exact List.mem_singleton_self _
  have hx : ∀ g ∈ d.renumbered ids ids.order, ∀ t ∈ g.triples, ∀ x ∈ t.terms,
      Term.ofAtom (d.namespaces.readAt base) (x.atom d.namespaces).reread = .ok x ∨
        Term.ofAtom (d.namespaces.readAt base) (x.atom d.namespaces).reread = .error (.malformed .missingLanguage) := by
    intro _ _ _ _ y _
    rw [h.ofAtom_readAt]
    by_cases hy : y.Complete
    · exact .inl (Term.ofAtom_reread_atom _ hy)
    · exact .inr (Term.ofAtom_reread_incomplete _ _ hy)
  obtain ⟨g, hg, hfail⟩ := hn.decode_refused h.sound h.wellFormed hx
    ⟨d.asserted, hg, t, ht, x, hxt, Term.ofAtom_reread_incomplete _ _ hcx⟩
  rw [h.renumbered_eq hn, List.mem_singleton] at hg
  rw [hfail, hg, id_asserted]

end

/-- An imported document is written and read with its base: without a prefix that has
the label of the local namespace, and only if its literals are complete. -/
theorem Imported.written (h : d.Imported base) :
    ∃ lines es, d.encode .standard = .ok lines ∧ SExpr.read (SExpr.write lines) = .ok es ∧
      (d.asserted.Complete → decode .quoted base es =
        .ok { d with namespaces.prefixes := d.namespaces.prefixes.filter (·.1 ≠ localLabel) }) ∧
      (¬ d.asserted.Complete → decode .quoted base es = .error (.term .top (.malformed .missingLanguage))) := by
  obtain ⟨ids, hn, -, he, hread⟩ := written_ok h.sound h.wellFormed.top_mem
  exact ⟨_, _, he, hread, h.decode_complete hn, h.decode_incomplete hn⟩

end Document

namespace Exchange

open Document

/-- A document that was imported from a text is written, and read with the base of the
text. It comes back as it is, but for a prefix with the label of the local namespace,
if every literal of the language datatype has a tag; else it is refused. -/
theorem imported_comes_back {format : Format} {base : Option String} {text : String} {d : Document}
    (h : importDocument format base text = .ok d) :
    ∃ lines es, d.encode .standard = .ok lines ∧ SExpr.read (SExpr.write lines) = .ok es ∧
      (d.asserted.Complete → decode .quoted base es =
        .ok { d with namespaces.prefixes := d.namespaces.prefixes.filter (·.1 ≠ localLabel) }) ∧
      (d.asserted.Complete → localLabel ∉ Keyed.keys d.namespaces.prefixes → decode .quoted base es = .ok d) ∧
      (¬ d.asserted.Complete → decode .quoted base es = .error (.term .top (.malformed .missingLanguage))) := by
  have hd := imported_of_import h
  obtain ⟨lines, es, he, hread, hc, hn⟩ := hd.written
  refine ⟨lines, es, he, hread, hc, fun hcd hl => ?_, hn⟩
  have hall : d.namespaces.prefixes.filter (·.1 ≠ localLabel) = d.namespaces.prefixes :=
    Namespaces.prefixes_readAt hl base
  rw [hc hcd, hall]

/-- Prefixes in another order than that of their labels, a reference that is completed
from the base, a tag in capitals, a number and an anonymous node. -/
def sampleText : String :=
  "@prefix z: <ex:z/> .\n@prefix e: <ex:e/> .\n<#a> e:p \"Hi\"@DE, 07, [ z:q _:b ] ."

def sample : Document where
  graphs := [⟨.top, [
    ⟨.iri ⟨"file:///kb#a", Document.iriProblem_localA⟩, .iri ⟨"ex:e/p", by decide +kernel⟩,
      .literal (.tagged "Hi" ⟨"de", by decide +kernel, by decide +kernel⟩)⟩,
    ⟨.iri ⟨"file:///kb#a", Document.iriProblem_localA⟩, .iri ⟨"ex:e/p", by decide +kernel⟩,
      .literal (.typed "07" .xsdInteger)⟩,
    ⟨.blank ⟨"riog00000001", by decide +kernel⟩, .iri ⟨"ex:z/q", by decide +kernel⟩,
      .blank ⟨"b", by decide +kernel⟩⟩,
    ⟨.iri ⟨"file:///kb#a", Document.iriProblem_localA⟩, .iri ⟨"ex:e/p", by decide +kernel⟩,
      .blank ⟨"riog00000001", by decide +kernel⟩⟩]⟩]
  namespaces := ⟨[("e", "ex:e/"), ("z", "ex:z/")], some ⟨"kb", some "file:///kb#"⟩⟩

theorem import_sample : importDocument .turtle (some "file:///kb") sampleText = .ok sample := by
  have hb : iriProblem? "file:///kb".toList = none := by decide +kernel
  have hr : read .turtle (some "file:///kb") sampleText =
      .ok (Turtle.read (some "file:///kb".toList) sampleText.toList) := by simp only [read, hb]
  have ht : (Turtle.read (some "file:///kb".toList) sampleText.toList).triples = .ok sample.asserted.triples ∧
      (Turtle.read (some "file:///kb".toList) sampleText.toList).prefixes = [("z", "ex:z/"), ("e", "ex:e/")] := by
    decide +kernel
  have hns : tableOf (some "file:///kb") [("z", "ex:z/"), ("e", "ex:e/")] = sample.namespaces := by cbv
  rw [importDocument_of_nodup hr ht.1 (by decide +kernel), ht.2, hns]
  rfl

theorem imported_comes_back_sample :
    importDocument .turtle (some "file:///kb") sampleText = .ok sample ∧
      ∃ lines es, sample.encode .standard = .ok lines ∧ SExpr.read (SExpr.write lines) = .ok es ∧
        decode .quoted (some "file:///kb") es = .ok sample := by
  have hc : sample.asserted.Complete := by
    have hi : Iri.xsdInteger ≠ .rdfLangString := by decide
    simp [sample, asserted, graph?, Graph.Complete, Triple.terms, Term.Complete, Literal.Complete, hi]
  obtain ⟨lines, es, he, hread, -, hback, -⟩ := imported_comes_back import_sample
  exact ⟨import_sample, lines, es, he, hread, hback hc (by decide)⟩

/-- A text that declares the label of the local namespace. -/
def reservedText : String := "@prefix local: <http://l/> .\nlocal:a local:b local:c ."

def reserved : Document where
  graphs := [⟨.top, [⟨.iri ⟨"http://l/a", by decide +kernel⟩, .iri ⟨"http://l/b", by decide +kernel⟩,
    .iri ⟨"http://l/c", by decide +kernel⟩⟩]⟩]
  namespaces := ⟨[("local", "http://l/")], none⟩

theorem import_reserved : importDocument .turtle none reservedText = .ok reserved := by
  have ht : (Turtle.read none reservedText.toList).triples = .ok reserved.asserted.triples ∧
      (Turtle.read none reservedText.toList).prefixes = [("local", "http://l/")] := by decide +kernel
  have hns : tableOf none [("local", "http://l/")] = reserved.namespaces := by cbv
  rw [importDocument_of_nodup rfl ht.1 (by decide +kernel), ht.2, hns]
  rfl

/-- A text with a literal of the language datatype that has no tag. -/
def untaggedText : String := "<ex:a> <ex:b> \"x\"^^<http://www.w3.org/1999/02/22-rdf-syntax-ns#langString> ."

def untagged : Document where
  graphs := [⟨.top, [⟨.iri ⟨"ex:a", by decide +kernel⟩, .iri ⟨"ex:b", by decide +kernel⟩,
    .literal (.typed "x" .rdfLangString)⟩]⟩]
  namespaces := .empty

theorem import_untagged : importDocument .turtle none untaggedText = .ok untagged := by
  have ht : (Turtle.read none untaggedText.toList).triples = .ok untagged.asserted.triples ∧
      (Turtle.read none untaggedText.toList).prefixes = [] := by decide +kernel
  have hns : tableOf none [] = untagged.namespaces := by cbv
  rw [importDocument_of_nodup rfl ht.1 (by decide +kernel), ht.2, hns]
  rfl

/-- The first comes back without its prefix, the second does not come back. -/
theorem imported_comes_back_exceptions :
    (importDocument .turtle none reservedText = .ok reserved ∧
      ∃ lines es d, reserved.encode .standard = .ok lines ∧ SExpr.read (SExpr.write lines) = .ok es ∧
        decode .quoted none es = .ok d ∧ reserved.same d = false) ∧
    importDocument .turtle none untaggedText = .ok untagged ∧
      ∃ lines es, untagged.encode .standard = .ok lines ∧ SExpr.read (SExpr.write lines) = .ok es ∧
        decode .quoted none es = .error (.term .top (.malformed .missingLanguage)) := by
  have hc : reserved.asserted.Complete := by
    simp [reserved, asserted, graph?, Graph.Complete, Triple.terms, Term.Complete]
  have hn : ¬ untagged.asserted.Complete := by
    simp [untagged, asserted, graph?, Graph.Complete, Triple.terms, Term.Complete, Literal.Complete]
  obtain ⟨lines, es, he, hread, hback, -⟩ := (imported_of_import import_reserved).written
  obtain ⟨lines', es', he', hread', -, hfail⟩ := (imported_of_import import_untagged).written
  exact ⟨⟨import_reserved, lines, es, _, he, hread, hback hc, by decide +kernel⟩,
    import_untagged, lines', es', he', hread', hfail hn⟩

end Exchange

end AtomLines.Rdf
