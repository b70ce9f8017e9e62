import AtomLines.Proofs.Rdf.Exchange.NTriples
import AtomLines.Proofs.Rdf.Exchange.Turtle
import AtomLines.Proofs.Rdf.Imported
/-!
# Exported graphs are read back

A graph is exported if each of its triples has a written form. The text is read again if
its blank node labels are portable, and then it states the same triples; labels that look
like those of numbered nodes are other labels in a Turtle document.
-/

namespace AtomLines.Rdf

/-- There is no written form of the triple. -/
def Triple.Inexpressible (t : Triple) : Prop :=
  (∃ x ∈ t.terms, (∃ v, x = .var v) ∨ ∃ id, x = .graph id) ∨ (∃ l, t.subject = .literal l) ∨ ∀ i, t.predicate ≠ .iri i

/-- Texts can have the labels of the graph. -/
def Graph.Portable (g : Graph) : Prop :=
  ∀ t ∈ g.triples, ∀ l, .blank l ∈ t.terms → l.Portable

namespace Exchange

/-! ## What is exported -/

theorem Resource.exists_term {t : Term} (h : ∀ l, t ≠ .literal l) (hv : ∀ v, t ≠ .var v) (hg : ∀ id, t ≠ .graph id) :
    ∃ r : Resource, r.term = t := by
  cases t with
  | iri i => exact ⟨.iri i, rfl⟩
  | blank l => exact ⟨.blank l, rfl⟩
  | literal l => exact absurd rfl (h l)
  | var v => exact absurd rfl (hv v)
  | graph id => exact absurd rfl (hg id)

theorem Value.exists_term {t : Term} (hv : ∀ v, t ≠ .var v) (hg : ∀ id, t ≠ .graph id) : ∃ v : Value, v.term = t := by
  cases t with
  | literal l => exact ⟨.literal l, rfl⟩
  | iri i => exact ⟨.resource (.iri i), rfl⟩
  | blank l => exact ⟨.resource (.blank l), rfl⟩
  | var v => exact absurd rfl (hv v)
  | graph id => exact absurd rfl (hg id)

theorem Fact.exists_triple_iff {t : Triple} : (∃ x : Fact, x.triple = t) ↔ ¬ t.Inexpressible := by
  constructor
  · rintro ⟨⟨s, p, o⟩, rfl⟩ (⟨y, hy, hterm⟩ | ⟨l, hl⟩ | hp)
    · simp only [Triple.terms, List.mem_cons, List.not_mem_nil, or_false] at hy
      rcases hy with rfl | rfl | rfl
      · cases s <;> rcases hterm with ⟨v, h⟩ | ⟨id, h⟩ <;> cases h
      · rcases hterm with ⟨v, h⟩ | ⟨id, h⟩ <;> cases h
      · rcases o with (i | b) | l <;> rcases hterm with ⟨v, h⟩ | ⟨id, h⟩ <;> cases h
    · cases s <;> cases hl
    · exact hp p rfl
  · intro h
    obtain ⟨hterms, h⟩ := not_or.1 h
    obtain ⟨hl, hp⟩ := not_or.1 h
    have hv : ∀ x ∈ t.terms, ∀ v, x ≠ .var v := fun x hx v e => hterms ⟨x, hx, .inl ⟨v, e⟩⟩
    have hg : ∀ x ∈ t.terms, ∀ id, x ≠ .graph id := fun x hx id e => hterms ⟨x, hx, .inr ⟨id, e⟩⟩
    have hs : t.subject ∈ t.terms := by simp [Triple.terms]
    have ho : t.object ∈ t.terms := by simp [Triple.terms]
    obtain ⟨s, es⟩ := Resource.exists_term (fun l e => hl ⟨l, e⟩) (hv _ hs) (hg _ hs)
    obtain ⟨p, ep⟩ := not_forall_not.1 hp
    obtain ⟨o, eo⟩ := Value.exists_term (hv _ ho) (hg _ ho)
    exact ⟨⟨s, p, o⟩, by rw [Fact.triple, es, eo, ← ep]⟩

/-- A graph is exported if each of its triples is a fact. -/
theorem exports_iff {format : Format} {g : Graph} :
    (∃ text, exportGraph format g = .ok text) ↔ ∀ t ∈ g.triples, ¬ t.Inexpressible := by
  constructor
  · rintro ⟨text, h⟩ t ht
    obtain ⟨xs, hxs, -⟩ := exportGraph_eq_ok.1 h
    rw [← hxs] at ht
    obtain ⟨x, -, rfl⟩ := List.mem_map.1 ht
    exact Fact.exists_triple_iff.1 ⟨x, rfl⟩
  · intro h
    have hx : ∀ t ∈ g.triples, ∃ w, WrittenTriple.of format t = .ok w := by
      intro t ht
      obtain ⟨x, rfl⟩ := Fact.exists_triple_iff.2 (h t ht)
      exact ⟨_, WrittenTriple.of_eq_ok.2 ⟨x, rfl, rfl⟩⟩
    obtain ⟨ws, hws⟩ := mapM_exists_ok hx
    obtain ⟨xs, hxs, -⟩ := mapM_of_eq_ok.1 hws
    exact ⟨_, exportGraph_eq_ok.2 ⟨xs, hxs, rfl⟩⟩

/-- Else it is refused. -/
theorem refuses_iff {format : Format} {g : Graph} :
    (∃ u, exportGraph format g = .error u) ↔ ∃ t ∈ g.triples, t.Inexpressible := by
  have hcases : (∃ u, exportGraph format g = .error u) ↔ ¬ ∃ text, exportGraph format g = .ok text := by
    cases exportGraph format g <;> simp
  simp only [hcases, exports_iff, not_forall, not_not, exists_prop]

/-! ## What is read of it -/

/-- The label that a document has for a label of the text. -/
def labelIn : Format → BlankLabel → BlankLabel
  | .nTriples => id
  | .turtle => Turtle.apart

theorem labelIn_injective (format : Format) : Function.Injective (labelIn format) := by
  cases format with
  | nTriples => exact Function.injective_id
  | turtle => exact Turtle.apart_injective

theorem Fact.relabel_id (x : Fact) : x.relabel id = x := by
  obtain ⟨s, p, o⟩ := x
  rcases o with (i | b) | l <;> cases s <;> rfl

/-- The facts of a text are read, or it is not read to its end. -/
theorem read_text (format : Format) (xs : List Fact) :
    ∃ r, read format none (String.ofList (textOf format (xs.map Fact.written))) = .ok r ∧
      ((∀ x ∈ xs, x.Portable) ∧ r = ⟨xs.map fun x => (x.relabel (labelIn format)).statement, true, []⟩ ∨
        ¬ (∀ x ∈ xs, x.Portable) ∧ r.complete = false) := by
  cases format with
  | nTriples =>
    refine ⟨_, rfl, ?_⟩
    simp only [labelIn, Fact.relabel_id, textOf, String.toList_ofList]
    exact NTriples.read_facts xs
  | turtle =>
    refine ⟨_, rfl, ?_⟩
    simp only [labelIn, textOf, String.toList_ofList]
    exact Turtle.read_facts xs

theorem Reading.triples_of_incomplete {r : Reading} {ts : List Triple} (h : r.complete = false) : r.triples ≠ .ok ts := by
  intro ht
  obtain ⟨ts', -, ht⟩ := bind_eq_ok.1 ht
  rw [h] at ht
  cases ht

theorem Reading.triples_of_facts (xs : List Fact) (prefixes : List (String × String)) :
    Reading.triples ⟨xs.map Fact.statement, true, prefixes⟩ = .ok (xs.map Fact.triple) := by
  have hm : (xs.map Fact.statement).mapM Statement.toTriple = .ok (xs.map Fact.triple) := by
    induction xs with
    | nil => rfl
    | cons x xs ih =>
      rw [List.map_cons, List.mapM_cons, x.toTriple_statement, ih]
      rfl
  rw [Reading.triples, hm]
  rfl

theorem portable_facts {xs : List Fact} {g : Graph} (h : xs.map Fact.triple = g.triples) :
    (∀ x ∈ xs, x.Portable) ↔ g.Portable := by
  simp only [Graph.Portable, ← h, List.forall_mem_map, Fact.portable_iff]

/-- A text of portable facts is imported, as the document that asserts them. -/
theorem importDocument_text {format : Format} {xs : List Fact} {d : Document} :
    importDocument format none (String.ofList (textOf format (xs.map Fact.written))) = .ok d ↔
      (∀ x ∈ xs, x.Portable) ∧
        d = ⟨[(Graph.mk .top (xs.map fun x => x.triple.relabel (labelIn format))).distinct], tableOf none []⟩ := by
  obtain ⟨r, hr, hread⟩ := read_text format xs
  rw [importDocument_eq_ok]
  obtain ⟨hx, rfl⟩ | ⟨hx, hc⟩ := hread
  · have ht := Reading.triples_of_facts (xs.map (Fact.relabel (labelIn format))) []
    simp only [List.map_map, Function.comp_def, Fact.triple_relabel] at ht
    constructor
    · rintro ⟨r', ts, hr', hts, rfl⟩
      cases hr.symm.trans hr'
      cases ht.symm.trans hts
      exact ⟨hx, rfl⟩
    · rintro ⟨-, rfl⟩
      exact ⟨_, _, hr, ht, rfl⟩
  · constructor
    · rintro ⟨r', ts, hr', hts, -⟩
      cases hr.symm.trans hr'
      exact absurd hts (Reading.triples_of_incomplete hc)
    · exact fun h => absurd h.1 hx

/-- A graph is exported unless one of its triples has no written form. Its text is
imported in the same format if its labels are portable, and then the document asserts
the same triples, up to a renaming of labels that makes no two of them one. -/
theorem exported_reads_back (format : Format) (g : Graph) :
    ((∃ u, exportGraph format g = .error u) ↔ ∃ t ∈ g.triples, t.Inexpressible) ∧
      ∀ text, exportGraph format g = .ok text →
        ((∃ d, importDocument format none text = .ok d) ↔ g.Portable) ∧
        ∀ d, importDocument format none text = .ok d → ∃ f : BlankLabel → BlankLabel, Function.Injective f ∧
          ∀ t, t ∈ d.asserted.triples ↔ ∃ u ∈ g.triples, u.relabel f = t := by
  refine ⟨refuses_iff, fun text h => ?_⟩
  obtain ⟨xs, hxs, rfl⟩ := exportGraph_eq_ok.1 h
  refine ⟨?_, fun d hd => ⟨labelIn format, labelIn_injective format, fun t => ?_⟩⟩
  · simp only [importDocument_text, portable_facts hxs, exists_and_left, exists_eq, and_true]
  · obtain ⟨-, rfl⟩ := importDocument_text.1 hd
    rw [Document.asserted_single (Graph.id_distinct _), Graph.mem_distinct, ← hxs]
    simp only [List.mem_map, exists_exists_and_eq_and]

/-- The label of the second numbered node. -/
def numberedLabel : BlankLabel := ⟨"riog00000002", by decide +kernel⟩

def pointLabel : BlankLabel := ⟨"a.b", by decide +kernel⟩

/-- Among others one text under three types. -/
def exportedSample : Graph where
  id := .top
  triples :=
    let p : Term := .iri ⟨"ex:p", Document.iriProblem_property⟩
    let q : Term := .iri ⟨"ex:q", by decide +kernel⟩
    [⟨.blank numberedLabel, p, .blank pointLabel⟩,
      ⟨.blank numberedLabel, p, .literal (.plain "\"\n\x01")⟩,
      ⟨.blank numberedLabel, q, .literal (.tagged "\"\n\x01" ⟨"de-at", by decide +kernel, by decide +kernel⟩)⟩,
      ⟨p, p, .literal (.typed "\"\n\x01" .rdfLangString)⟩]

def exportedText : String :=
  "_:riog00000002 <ex:p> _:a.b , \"\\\"\\n\x01\" ;\n\t<ex:q> \"\\\"\\n\x01\"@de-at .\n" ++
    "<ex:p> <ex:p> \"\\\"\\n\x01\"^^<http://www.w3.org/1999/02/22-rdf-syntax-ns#langString> .\n"

theorem export_sample : exportGraph .turtle exportedSample = .ok exportedText := by
  decide +kernel

theorem portable_sample : exportedSample.Portable := by
  have hnumbered : PortableChars numberedLabel.text.toList := by decide +kernel
  have hpoint : PortableChars pointLabel.text.toList := by decide +kernel
  simp [Graph.Portable, BlankLabel.Portable, exportedSample, Triple.terms, Literal.plain, hnumbered, hpoint]

theorem exported_reads_back_sample :
    exportGraph .turtle exportedSample = .ok exportedText ∧
      ∃ d, importDocument .turtle none exportedText = .ok d ∧ ∃ f : BlankLabel → BlankLabel, Function.Injective f ∧
        ∀ t, t ∈ d.asserted.triples ↔ ∃ u ∈ exportedSample.triples, u.relabel f = t := by
  obtain ⟨hread, hsame⟩ := (exported_reads_back .turtle exportedSample).2 exportedText export_sample
  obtain ⟨d, hd⟩ := hread.2 portable_sample
  exact ⟨export_sample, d, hd, hsame d hd⟩

/-- A label with a colon is written, and the text is refused. -/
def colonSample : Graph where
  id := .top
  triples := [⟨.iri ⟨"ex:s", by decide +kernel⟩, .iri ⟨"ex:p", Document.iriProblem_property⟩,
    .blank ⟨"a:b", by decide +kernel⟩⟩]

theorem exported_reads_back_colon :
    (exportGraph .nTriples colonSample = .ok "<ex:s> <ex:p> _:a:b .\n" ∧
      importDocument .nTriples none "<ex:s> <ex:p> _:a:b .\n" = .error .unreadable) ∧
    exportGraph .turtle colonSample = .ok "<ex:s> <ex:p> _:a:b .\n" ∧
      importDocument .turtle none "<ex:s> <ex:p> _:a:b .\n" = .error .unreadable := by
  let x : Fact := ⟨.iri ⟨"ex:s", by decide +kernel⟩, ⟨"ex:p", Document.iriProblem_property⟩,
    .resource (.blank ⟨"a:b", by decide +kernel⟩)⟩
  have hline : NTriples.line (x.written.chars ++ [' ', '.']) = none := by
    obtain ⟨h, -⟩ | ⟨-, h⟩ := NTriples.line_fact x
    · have hcolon : ¬ PortableChars "a:b".toList := by decide +kernel
      exact absurd h.object hcolon
    · exact h
  have hread : NTriples.read "<ex:s> <ex:p> _:a:b .\n".toList = ⟨[], false, []⟩ := by
    have htext : "<ex:s> <ex:p> _:a:b .\n".toList = nTriplesChars ([x].map Fact.written) := by decide +kernel
    rw [htext, NTriples.read_cons, hline]
  have himport : importDocument .nTriples none "<ex:s> <ex:p> _:a:b .\n" = .error .unreadable := by
    rw [importDocument, read, hread]
    rfl
  exact ⟨⟨by decide +kernel, himport⟩, by decide +kernel, by decide +kernel⟩

end Exchange

end AtomLines.Rdf
