import AtomLines.Proofs.Rdf.LineOrder
import AtomLines.Proofs.Rdf.RoundTrip
/-!
# What the reader accepts can be written

The reader takes several spellings of a term, graphs that nothing refers to, and cycles
among these. It makes of them terms that have one spelling, with references to graphs
that are there, so every document that it accepts is written, and read again.
-/

namespace AtomLines.Rdf

/-! ## Terms that are read -/

/-- A literal of the language datatype is read with its tag or not at all. -/
theorem Literal.complete_of_ofParts {text : String} {info : SExpr} {parts : List String} {l : Literal}
    (h : ofParts text info parts = .ok l) : l.Complete := by
  unfold ofParts at h
  split at h
  · rename_i d
    split at h
    · cases h
    · rename_i hd
      obtain ⟨i, hi, rfl⟩ := map_eq_ok.1 (mapError_eq_ok.1 h)
      rintro rfl
      exact hd (Iri.text_of_ofString (mapError_eq_ok.1 hi)).symm
  · split at h
    · obtain ⟨t, -, rfl⟩ := map_eq_ok.1 (mapError_eq_ok.1 h)
      trivial
    · cases h
  · cases h

theorem Literal.complete_of_ofAtom {head : SExpr} {args : List SExpr} {l : Literal} (h : ofAtom head args = .ok l) :
    l.Complete := by
  unfold ofAtom at h
  split at h
  · split at h
    · split at h
      · cases h
      · exact complete_of_ofParts h
      · cases h
    · cases h
  · cases h

/-- No kind that has a name is that of literals. -/
theorem Term.ne_literal_of_ofKind? {ns : Namespaces} {kind : String} {read : SExpr → Except TermError Term}
    (hk : ofKind? ns kind = some read) {arg : SExpr} {t : Term} (h : read arg = .ok t) (l : Literal) :
    t ≠ .literal l := by
  rintro rfl
  rcases ofKind?_cases hk h with ⟨_, -, -, e⟩ | ⟨_, _, -, -, -, e⟩ | ⟨_, _, -, -, -, e⟩ | ⟨_, -, -, e⟩ <;> cases e

theorem Term.complete_of_ofAtom {ns : Namespaces} {e : SExpr} {t : Term} (h : ofAtom ns e = .ok t) : t.Complete := by
  rcases ofAtom_cases h with ⟨_, _, l, -, hl, rfl⟩ | ⟨_, _, _, -, hk, hr⟩
  · rintro l' ⟨⟩
    exact Literal.complete_of_ofAtom hl
  · exact fun l e => absurd e (ne_literal_of_ofKind? hk hr l)

namespace GraphLine

variable {frame : Document} {id : GraphId} {e s p o : SExpr} {x : Term} {t : Triple}

theorem readTerm_eq_ok (h : readTerm .quoted frame id e = .ok x) :
    x.Complete ∧ ∀ r, x.graph? = some r → r ≠ .top ∧ r ∈ frame.ids := by
  obtain ⟨y, hy, h⟩ := bind_eq_ok.1 h
  have hc : y.Complete := Term.complete_of_ofAtom (mapError_eq_ok.1 hy)
  split at h
  -- No reference, a reference in flat lines, and a reference that is checked.
  · rename_i hn
    cases h
    exact ⟨hc, fun r hr => absurd (hn.symm.trans hr) nofun⟩
  · rename_i he
    cases he
  · rename_i r hr _
    split at h
    · cases h
    · rename_i ht
      split at h
      · cases h
      · rename_i hm
        cases h
        refine ⟨hc, fun r' hr' => ?_⟩
        rw [hr, Option.some.injEq] at hr'
        subst hr'
        exact ⟨ht, Document.isSome_graph?.1 (by simpa [Option.isSome_iff_ne_none] using hm)⟩

theorem readTriple_eq_ok (h : readTriple .quoted frame id s p o = .ok t) :
    (∀ x ∈ t.terms, x.Complete) ∧ ∀ r ∈ t.references, r ≠ .top ∧ r ∈ frame.ids := by
  obtain ⟨s', hs, h⟩ := bind_eq_ok.1 h
  obtain ⟨p', hp, h⟩ := bind_eq_ok.1 h
  obtain ⟨o', ho, h⟩ := bind_eq_ok.1 h
  cases h
  have hall : ∀ x ∈ (⟨s', p', o'⟩ : Triple).terms,
      x.Complete ∧ ∀ r, x.graph? = some r → r ≠ .top ∧ r ∈ frame.ids := by
    simp only [Triple.terms, List.forall_mem_cons, List.not_mem_nil, false_imp_iff, implies_true, and_true]
    exact ⟨readTerm_eq_ok hs, readTerm_eq_ok hp, readTerm_eq_ok ho⟩
  refine ⟨fun x hx => (hall x hx).1, fun r hr => ?_⟩
  obtain ⟨x, hx, hr⟩ := List.mem_filterMap.1 hr
  exact (hall x hx).2 r hr

theorem bind_own (ks : List GraphLine) (address : Option String) :
    address.bind (fun a => (LocalNamespace.ofDocument a).base) = (own ks address).bind LocalNamespace.base := by
  rw [own]
  cases localName? ks <;> cases address <;> rfl

end GraphLine

/-! ## Documents that are read -/

namespace Document

open GraphLine

/-- What holds of every document that the reader accepts at an address. -/
structure Accepted (d : Document) (address : Option String) : Prop where
  wellFormed : d.WellFormed
  sound : d.Sound
  complete : ∀ g ∈ d.graphs, g.Complete
  references : ∀ g ∈ d.graphs, ∀ r ∈ g.references, r ≠ .top ∧ r ∈ d.ids
  bound : d.namespaces.Bound address

theorem accepted_of_decode {address : Option String} {lines : List SExpr} {d : Document}
    (h : decode .quoted address lines = .ok d) : d.Accepted address := by
  obtain ⟨ks, -, hf, hs⟩ := decode_eq_ok.1 h
  have hgain := gained_foldlM hf
  have hw : d.WellFormed := hgain.wellFormed (wellFormed_skeleton ks address)
  have hns : d.namespaces = GraphLine.namespaces ks address :=
    hgain.namespaces.trans (namespaces_skeleton ks address)
  have hstated : ∀ g ∈ d.graphs, ∀ t ∈ g.triples,
      (∀ x ∈ t.terms, x.Complete) ∧ ∀ r ∈ t.references, r ≠ .top ∧ r ∈ (skeleton ks address).ids := by
    intro g hg t ht
    -- The frame holds no triple, so this one is stated by a line.
    have hst := (hgain.contains g.id t).1 ((contains_of_graph? (hw.graph?_of_mem hg) t).2 ht)
    rw [contains_skeleton] at hst
    obtain ⟨s, p, o, -, hr⟩ := hst.resolve_left nofun
    exact readTriple_eq_ok hr
  refine ⟨hw, hs, fun g hg t ht => (hstated g hg t ht).1, fun g hg r hr => ?_, ?_⟩
  · obtain ⟨t, ht, hr⟩ := Graph.mem_references.1 hr
    obtain ⟨hne, hm⟩ := (hstated g hg t ht).2 r hr
    exact ⟨hne, (hgain.ids r).2 (.inl hm)⟩
  · rw [hns]
    refine ⟨nodup_keys_prefixes ks, Keyed.get?_eq_none.1 ?_, bind_own ks address⟩
    exact (get?_prefixes localLabel ks).trans (if_pos rfl)

/-- A document that the reader accepts refers only to quoted graphs that it holds, also
in graphs that are not reached, and no reached graph lies on a cycle. It is written, and
its text is read at the same address as its canonical form. -/
theorem accepted_comes_back {address : Option String} {lines : List SExpr} {d : Document}
    (h : decode .quoted address lines = .ok d) :
    (∀ g ∈ d.graphs, ∀ r ∈ g.references, r ≠ .top ∧ r ∈ d.ids) ∧ (∀ id, d.Reachable id → ¬ d.Cyclic id) ∧
      ∃ lines' es c, d.encode .standard = .ok lines' ∧ SExpr.read (SExpr.write lines') = .ok es ∧
        d.canonicalize = .ok c ∧ decode .quoted address es = .ok c := by
  have ha := accepted_of_decode h
  have ht := ha.wellFormed.top_mem
  obtain ⟨ids, hn, hcan, he, hr⟩ := written_ok ha.sound ht
  have hc : ∀ g ∈ d.renumbered ids ids.order, g.Complete :=
    hn.complete fun _ g _ hg => ha.complete g (mem_of_graph? hg)
  exact ⟨ha.references, fun id hid => (ha.sound id hid).2, _, _, _, he, hr, hcan,
    decode_entries (hn.together ha.sound ht) hc ha.bound (hn.sound_canonical ha.sound ht)⟩

/-- Terms in other spellings than those that are written, a local name, a name in
another namespace, and two quoted graphs that refer to each other and are not reached. -/
def respelledLines : List SExpr := [
  .list [(0 : GraphId).atom, .list [.list [.string "uriref", .list [.string "here", .number "7"]],
    .list [.symbol "uriref", .list [.string "ex:p"]], .list [.string "Graph", .number "05"]]],
  .list [(5 : GraphId).atom, .list [.list [.symbol "bnode", .number "1"],
    .list [.symbol "uriref", .list [.symbol "http://example.org/x", .symbol "y"]],
    .list [.list [.symbol "literal", .list [.string "http://www.w3.org/2001/XMLSchema#integer"]], .number "007"]]],
  .list [(9 : GraphId).atom, .list [(8 : GraphId).atom, .list [.symbol "uriref", .symbol "ex:p"], (8 : GraphId).atom]],
  .list [(8 : GraphId).atom, .list [(9 : GraphId).atom, .list [.symbol "uriref", .symbol "ex:p"], (5 : GraphId).atom]],
  .list [.symbol "Namespace", .list [.symbol "local", .string "there"]],
  .list [.symbol "Namespace", .list [.symbol "local", .string "here"]]]

/-- What these lines say. -/
def respelled : Document where
  graphs := [
    ⟨.top, [⟨.iri ⟨"file:///kb#7", by decide +kernel⟩, .iri ⟨"ex:p", iriProblem_property⟩, .graph 5⟩]⟩,
    ⟨5, [⟨.blank ⟨"1", by decide +kernel⟩, .iri ⟨"http://example.org/x#y", by decide +kernel⟩,
      .literal (.typed "007" .xsdInteger)⟩]⟩,
    ⟨9, [⟨.graph 8, .iri ⟨"ex:p", iriProblem_property⟩, .graph 8⟩]⟩,
    ⟨8, [⟨.graph 9, .iri ⟨"ex:p", iriProblem_property⟩, .graph 5⟩]⟩]
  namespaces := ⟨[], some ⟨"here", some "file:///kb#"⟩⟩

theorem accepted_comes_back_respelled :
    decode .quoted (some "file:///kb") respelledLines = .ok respelled ∧
      ∃ lines es c, respelled.encode .standard = .ok lines ∧ SExpr.read (SExpr.write lines) = .ok es ∧
        respelled.canonicalize = .ok c ∧ decode .quoted (some "file:///kb") es = .ok c ∧ c.ids = [0, 1] := by
  have hd : decode .quoted (some "file:///kb") respelledLines = .ok respelled :=
    decode_eq_ok.2 ⟨_, rfl, by decide +kernel, checkReferences_succeeds.1 ⟨[0, 5], by cbv⟩⟩
  obtain ⟨-, -, lines, es, c, he, hr, hcan, hback⟩ := accepted_comes_back hd
  have hi : respelled.canonicalize.map Document.ids = .ok [0, 1] := by cbv
  rw [hcan] at hi
  exact ⟨hd, lines, es, c, he, hr, hcan, hback, Except.ok.inj hi⟩

end Document

end AtomLines.Rdf
