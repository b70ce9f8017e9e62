import AtomLines.Proofs.Rdf.Canonical
/-!
# Local names at another address

A text holds the local names of its document without their base, so at another address
they are read with another base, and everything else as it is. Without an address they
have no base, and a text that holds any of them is refused.
-/

namespace AtomLines.Rdf

/-! ## IRIs -/

/-- The IRI goes on after the base by at least one character. -/
def Iri.Extends (base : String) (i : Iri) : Prop := ∃ fragment, fragment ≠ "" ∧ i.text = base ++ fragment

/-- The IRI with a new base, if it extends the old one. One that would not be valid
stays. -/
def Iri.moved (old new : String) (i : Iri) : Iri :=
  match after? old.toList i.text.toList with
  | none | some [] => i
  | some fragment =>
    let text := new ++ String.ofList fragment
    if h : iriProblem? text.toList = none then ⟨text, h⟩ else i

theorem Iri.extends_iff {base : String} {i : Iri} :
    i.Extends base ↔ ∃ c rest, after? base.toList i.text.toList = some (c :: rest) := by
  simp only [after?_eq_some]
  constructor
  · rintro ⟨fragment, hf, hi⟩
    obtain ⟨c, rest, hc⟩ := List.exists_cons_of_ne_nil (mt String.toList_eq_nil_iff.1 hf)
    exact ⟨c, rest, by rw [hi, String.toList_append, hc]⟩
  · rintro ⟨c, rest, h⟩
    refine ⟨String.ofList (c :: rest), by simp, ?_⟩
    rw [← String.toList_inj, String.toList_append, String.toList_ofList, h]

theorem Iri.moved_of_not_extends {old : String} {i : Iri} (h : ¬ i.Extends old) (new : String) :
    i.moved old new = i := by
  unfold moved
  split
  · rfl
  · rfl
  · rename_i fragment hne hf
    cases fragment with
    | nil => exact absurd rfl hne
    | cons c rest => exact absurd (extends_iff.2 ⟨c, rest, hf⟩) h

/-- An IRI that can move goes on after the new base as it did after the old one. -/
theorem Iri.moved_eq {old new fragment : String} {i : Iri} (hf : fragment ≠ "") (hi : i.text = old ++ fragment)
    (hv : iriProblem? (new ++ fragment).toList = none) : i.moved old new = ⟨new ++ fragment, hv⟩ := by
  obtain ⟨c, rest, hc⟩ := List.exists_cons_of_ne_nil (mt String.toList_eq_nil_iff.1 hf)
  have ha : after? old.toList i.text.toList = some (c :: rest) := by
    rw [after?_eq_some, hi, String.toList_append, hc]
  have hr : String.ofList (c :: rest) = fragment := by rw [← hc, String.ofList_toList]
  simp only [moved, ha, hr, hv, ↓reduceDIte]

/-- A name is local where the IRI extends the base. -/
theorem Namespaces.splitLocal_eq_none {ns : Namespaces} {name base : String} (ho : ns.own = some ⟨name, some base⟩)
    {i : Iri} : ns.splitLocal i.text = none ↔ ¬ i.Extends base := by
  rw [Option.eq_none_iff_forall_ne_some]
  constructor
  · rintro h ⟨fragment, hf, hi⟩
    exact h (name, fragment) (splitLocal_eq_some.2 ⟨_, base, ho, rfl, rfl, hi, hf⟩)
  · rintro h ⟨name', fragment⟩ hs
    obtain ⟨own, base', ho', hb, -, hi, hf⟩ := splitLocal_eq_some.1 hs
    rw [ho, Option.some.injEq] at ho'
    subst ho'
    cases hb
    exact h ⟨fragment, hf, hi⟩

/-- The name is kept at every address, the base is the one that the address gives. -/
theorem Namespaces.readAt_of_own {ns : Namespaces} {own : LocalNamespace} (ho : ns.own = some own)
    (hl : localLabel ∉ Keyed.keys ns.prefixes) (address : Option String) :
    ns.readAt address =
      ⟨ns.prefixes, some ⟨own.name, (address.map LocalNamespace.ofDocument).bind LocalNamespace.base⟩⟩ := by
  have hp := prefixes_readAt hl address
  have hown : (ns.readAt address).own =
      some ⟨own.name, (address.map LocalNamespace.ofDocument).bind LocalNamespace.base⟩ := by
    rw [readAt, ho]
  exact congr (congrArg Namespaces.mk hp) hown

/-! ## Terms -/

def Term.moved (old new : String) : Term → Term
  | iri i => iri (i.moved old new)
  | t => t

theorem Term.graph?_moved (old new : String) (t : Term) : (t.moved old new).graph? = t.graph? := by
  cases t <;> rfl

section

variable {ns ns' : Namespaces} {name old new : String} {t : Term}

/-- A term is read with the base that the reading table has for the same name. -/
theorem Term.ofAtom_reread_moved (ho : ns.own = some ⟨name, some old⟩) (ho' : ns'.own = some ⟨name, some new⟩)
    (hc : t.Complete) (hv : ∀ i fragment, t = .iri i → fragment ≠ "" → i.text = old ++ fragment →
      iriProblem? (new ++ fragment).toList = none) :
    ofAtom ns' (t.atom ns).reread = .ok (t.moved old new) := by
  cases t with
  | iri i =>
    have hbody : Iri.ofBody ns' (i.body ns).reread = .ok (i.moved old new) := by
      by_cases hi : i.Extends old
      · obtain ⟨fragment, hf, hi⟩ := hi
        have hs : ns.splitLocal i.text = some (name, fragment) :=
          Namespaces.splitLocal_eq_some.2 ⟨_, old, ho, rfl, rfl, hi, hf⟩
        have hb : ns'.localBase name = some new := by simp [Namespaces.localBase, ho']
        rw [Iri.ofBody, iriText_reread_based hs hb]
        have hn := hv i fragment rfl hf hi
        rw [Iri.moved_eq hf hi hn]
        show (Iri.of (Iri.mk (new ++ fragment) hn).text).mapError _ = _
        rw [Iri.of_text]
        rfl
      · rw [Iri.ofBody, iriText_reread_absolute ((Namespaces.splitLocal_eq_none ho).2 hi)]
        show (Iri.of i.text).mapError _ = _
        rw [Iri.of_text, Iri.moved_of_not_extends hi]
        rfl
    rw [ofAtom_reread_iri, hbody]
    rfl
  | _ => exact ofAtom_reread_of_not_iri ns ns' (by simp) hc

/-- Where the name has no base, a term is refused if it is a local name. -/
theorem Term.ofAtom_reread_local (ho : ns.own = some ⟨name, some old⟩) (ho' : ns'.own = some ⟨name, none⟩) {i : Iri}
    (hi : i.Extends old) : ofAtom ns' ((iri i).atom ns).reread = .error (.unresolvedLocal name) := by
  obtain ⟨fragment, hf, hi⟩ := hi
  have hs : ns.splitLocal i.text = some (name, fragment) :=
    Namespaces.splitLocal_eq_some.2 ⟨_, old, ho, rfl, rfl, hi, hf⟩
  have hb : ns'.localBase name = none := by simp [Namespaces.localBase, ho']
  have hn : ns'.isLocalName name = true := by simp [Namespaces.isLocalName, ho']
  rw [ofAtom_reread_iri, Iri.ofBody, iriText_reread_unresolved hs hb hn]
  rfl

/-- Any other term does not need the base. -/
theorem Term.ofAtom_reread_other (ho : ns.own = some ⟨name, some old⟩) (hc : t.Complete)
    (hi : ∀ i, t = .iri i → ¬ i.Extends old) (ns' : Namespaces) : ofAtom ns' (t.atom ns).reread = .ok t := by
  cases t with
  | iri i =>
    rw [ofAtom_reread_iri, Iri.ofBody, iriText_reread_absolute ((Namespaces.splitLocal_eq_none ho).2 (hi i rfl))]
    show ((Iri.of i.text).mapError _).map _ = _
    rw [Iri.of_text]
    rfl
  | _ => exact ofAtom_reread_of_not_iri ns ns' (by simp) hc

end

/-! ## Documents -/

namespace Document

variable {d : Document} {ids : Identities}

/-- The IRI is a term of a reached graph. -/
def Mentions (d : Document) (i : Iri) : Prop :=
  ∃ id g, d.Reachable id ∧ d.graph? id = some g ∧ ∃ t ∈ g.triples, Term.iri i ∈ t.terms

/-- The document at an address that gives a new base. Triples that become the same are
one. -/
def moved (old new : String) (d : Document) : Document where
  graphs := d.graphs.map fun g => (g.map (Term.moved old new)).distinct
  namespaces := { d.namespaces with own := d.namespaces.own.map fun own => ⟨own.name, some new⟩ }

theorem Numbered.mentions_iff (hn : d.Numbered ids) {i : Iri} :
    d.Mentions i ↔ ∃ g ∈ d.renumbered ids ids.order, ∃ t ∈ g.triples, Term.iri i ∈ t.terms := by
  constructor
  · rintro ⟨id, g, hid, hg, t, ht, hi⟩
    refine ⟨g.renumbered ids, List.mem_map_of_mem (List.mem_filterMap.2 ⟨id, (hn.mem_order id).2 hid, hg⟩),
      t.mapGraph ids.rename, List.mem_map_of_mem ht, ?_⟩
    exact List.mem_map_of_mem (f := Term.mapGraph ids.rename) hi
  · rintro ⟨g', hg', t', ht', hi⟩
    obtain ⟨g, hid, hg, rfl⟩ := mem_renumbered hg'
    obtain ⟨t, ht, rfl⟩ := List.mem_map.1 ht'
    have hi' : Term.iri i ∈ t.terms.map (Term.mapGraph ids.rename) := hi
    obtain ⟨x, hx, e⟩ := List.mem_map.1 hi'
    cases x with
    | iri j =>
      cases e
      exact ⟨g.id, g, (hn.mem_order g.id).1 hid, hg, t, ht, hx⟩
    | _ => cases e

/-- A document whose text can be read at other addresses: its local names have a base,
and nothing of it is lost. -/
structure Based (d : Document) (name old : String) : Prop where
  wellFormed : d.WellFormed
  sound : d.Sound
  own : d.namespaces.own = some ⟨name, some old⟩
  notLocal : localLabel ∉ Keyed.keys d.namespaces.prefixes
  complete : ∀ id g, d.Reachable id → d.graph? id = some g → g.Complete

section

variable {name old : String}

theorem Based.terms (h : d.Based name old) (hn : d.Numbered ids) :
    ∀ g ∈ d.renumbered ids ids.order, ∀ t ∈ g.triples, ∀ x ∈ t.terms,
      x.Complete ∧ ∀ i, x = .iri i → d.Mentions i := by
  intro g hg t ht x hx
  refine ⟨hn.complete h.complete g hg t ht x hx, ?_⟩
  rintro i rfl
  exact hn.mentions_iff.2 ⟨g, hg, t, ht, hx⟩

/-- Another base takes the place of the first. -/
theorem Based.decode_at (h : d.Based name old) (hn : d.Numbered ids) {address new : String}
    (hb : (LocalNamespace.ofDocument address).base = some new)
    (hv : ∀ i fragment, d.Mentions i → fragment ≠ "" → i.text = old ++ fragment →
      iriProblem? (new ++ fragment).toList = none) :
    decode .quoted (some address) ((d.numberedLines ids).map SExpr.reread) = .ok ((d.canonical ids).moved old new) := by
  have hns : d.namespaces.readAt (some address) = ⟨d.namespaces.prefixes, some ⟨name, some new⟩⟩ := by
    rw [Namespaces.readAt_of_own h.own h.notLocal, ← hb]
    rfl
  have hx : ∀ g ∈ d.renumbered ids ids.order, ∀ t ∈ g.triples, ∀ x ∈ t.terms,
      Term.ofAtom (d.namespaces.readAt (some address)) (x.atom d.namespaces).reread = .ok (x.moved old new) := by
    intro g hg t ht x hx
    obtain ⟨hc, hm⟩ := h.terms hn g hg t ht x hx
    exact Term.ofAtom_reread_moved h.own (by rw [hns]) hc fun i fragment hi => hv i fragment (hm i hi)
  rw [hn.decode_map h.sound h.wellFormed (Term.graph?_moved old new) hx, hns, hn.canonical_renumbered h.wellFormed,
    moved, h.own]
  rfl

/-- Without an address a local name that is mentioned is not resolved. -/
theorem Based.decode_unresolved (h : d.Based name old) (hn : d.Numbered ids) (hex : ∃ i, d.Mentions i ∧ i.Extends old) :
    ∃ id, decode .quoted none ((d.numberedLines ids).map SExpr.reread) = .error (.term id (.unresolvedLocal name)) := by
  have hns : (d.namespaces.readAt none).own = some ⟨name, none⟩ := by
    rw [Namespaces.readAt_of_own h.own h.notLocal]
    rfl
  have hx : ∀ g ∈ d.renumbered ids ids.order, ∀ t ∈ g.triples, ∀ x ∈ t.terms,
      Term.ofAtom (d.namespaces.readAt none) (x.atom d.namespaces).reread = .ok x ∨
        Term.ofAtom (d.namespaces.readAt none) (x.atom d.namespaces).reread = .error (.unresolvedLocal name) := by
    intro g hg t ht x hx
    by_cases hlocal : ∃ j, x = .iri j ∧ j.Extends old
    · obtain ⟨j, rfl, hj⟩ := hlocal
      exact .inr (Term.ofAtom_reread_local h.own hns hj)
    · exact .inl (Term.ofAtom_reread_other h.own (h.terms hn g hg t ht x hx).1 (fun j e hj => hlocal ⟨j, e, hj⟩) _)
  obtain ⟨i, hi, hold⟩ := hex
  obtain ⟨g, hg, t, ht, hi⟩ := hn.mentions_iff.1 hi
  obtain ⟨g', -, hfail⟩ := hn.decode_refused h.sound h.wellFormed hx
    ⟨g, hg, t, ht, .iri i, hi, Term.ofAtom_reread_local h.own hns hold⟩
  exact ⟨g'.id, hfail⟩

/-- A document that mentions no local name does not need the base. -/
theorem Based.decode_without_base (h : d.Based name old) (hn : d.Numbered ids)
    (hno : ∀ i, d.Mentions i → ¬ i.Extends old) :
    decode .quoted none ((d.numberedLines ids).map SExpr.reread) =
      .ok { d.canonical ids with namespaces.own := some ⟨name, none⟩ } := by
  have hx : ∀ g ∈ d.renumbered ids ids.order, ∀ t ∈ g.triples, ∀ x ∈ t.terms,
      Term.ofAtom (d.namespaces.readAt none) (x.atom d.namespaces).reread = .ok x := by
    intro g hg t ht x hx
    obtain ⟨hc, hm⟩ := h.terms hn g hg t ht x hx
    exact Term.ofAtom_reread_other h.own hc (fun i e => hno i (hm i e)) _
  rw [hn.decode_same h.sound h.wellFormed hx, Namespaces.readAt_of_own h.own h.notLocal]
  rfl

end

/-- The text of a document with a local namespace, at any address and at none. Another
base takes the place of the first in every IRI that extends it, if all of them stay
valid. Without an address a document that mentions such an IRI is refused, and any
other comes back without a base. -/
theorem decode_moved (d : Document) (hw : d.WellFormed) {reached : List GraphId} (hr : d.checkReferences = .ok reached)
    {name old : String} (ho : d.namespaces.own = some ⟨name, some old⟩)
    (hl : localLabel ∉ Keyed.keys d.namespaces.prefixes)
    (hc : ∀ id g, d.Reachable id → d.graph? id = some g → g.Complete) :
    ∃ lines es c, d.encode .standard = .ok lines ∧ SExpr.read (SExpr.write lines) = .ok es ∧ d.canonicalize = .ok c ∧
      (∀ address new, (LocalNamespace.ofDocument address).base = some new →
        (∀ i fragment, d.Mentions i → fragment ≠ "" → i.text = old ++ fragment →
          iriProblem? (new ++ fragment).toList = none) →
        decode .quoted (some address) es = .ok (c.moved old new)) ∧
      ((∃ i, d.Mentions i ∧ i.Extends old) →
        ∃ id, decode .quoted none es = .error (.term id (.unresolvedLocal name))) ∧
      ((∀ i, d.Mentions i → ¬ i.Extends old) →
        decode .quoted none es = .ok { c with namespaces.own := some ⟨name, none⟩ }) := by
  have h : d.Based name old := ⟨hw, checkReferences_succeeds.1 ⟨reached, hr⟩, ho, hl, hc⟩
  obtain ⟨ids, hn, hcan, he, htext⟩ := written_ok h.sound hw.top_mem
  exact ⟨_, _, _, he, htext, hcan, fun _ _ hb hv => h.decode_at hn hb hv, h.decode_unresolved hn,
    h.decode_without_base hn⟩

/-- Local names with and without a fragment, one that is the datatype of a literal, and
an IRI with the base to which the document moves. -/
def neighbours : Document where
  graphs := [
    ⟨.top, [
      ⟨.iri ⟨"file:///kb#a", iriProblem_localA⟩, .iri ⟨"ex:p", iriProblem_property⟩, .graph 4⟩,
      ⟨.iri ⟨"file:///other#a", by decide +kernel⟩, .iri ⟨"ex:p", iriProblem_property⟩, .graph 4⟩]⟩,
    ⟨4, [⟨.iri ⟨"file:///kb#", by decide +kernel⟩, .iri ⟨"ex:p", iriProblem_property⟩,
      .literal (.typed "x" ⟨"file:///kb#t", by decide +kernel⟩)⟩]⟩]
  namespaces := ⟨[("ex", "http://example.org/")], some ⟨"here", some "file:///kb#"⟩⟩

/-- The same under the ids that a text has. -/
def neighboursNumbered : Document :=
  { neighbours with graphs := neighbours.graphs.map (Graph.renamed fun id => if id = 4 then 1 else id) }

/-- The same at the other address: of the two triples one is left. -/
def neighboursMoved : Document where
  graphs := [
    ⟨.top, [⟨.iri ⟨"file:///other#a", by decide +kernel⟩, .iri ⟨"ex:p", iriProblem_property⟩, .graph 1⟩]⟩,
    ⟨1, [⟨.iri ⟨"file:///kb#", by decide +kernel⟩, .iri ⟨"ex:p", iriProblem_property⟩,
      .literal (.typed "x" ⟨"file:///kb#t", by decide +kernel⟩)⟩]⟩]
  namespaces := ⟨[("ex", "http://example.org/")], some ⟨"here", some "file:///other#"⟩⟩

theorem decode_moved_neighbours :
    neighbours.checkReferences = .ok [0, 4] ∧
      ∃ lines es, neighbours.encode .standard = .ok lines ∧ SExpr.read (SExpr.write lines) = .ok es ∧
        decode .quoted (some "file:///other") es = .ok neighboursMoved ∧
        ∃ id, decode .quoted none es = .error (.term id (.unresolvedLocal "here")) := by
  have hw : neighbours.WellFormed := by
    refine ⟨by decide, by decide, ?_, by decide⟩
    decide +kernel
  have hr : neighbours.checkReferences = .ok [0, 4] := by cbv
  have hc : ∀ g ∈ neighbours.graphs, g.Complete := by
    have hd : (⟨"file:///kb#t", by decide +kernel⟩ : Iri) ≠ .rdfLangString := by decide
    simp [neighbours, Graph.Complete, Triple.terms, Term.Complete, Literal.Complete, hd]
  have hm : ∀ i, neighbours.Mentions i → i.text ∈ ["file:///kb#a", "ex:p", "file:///other#a", "file:///kb#"] := by
    rintro i ⟨id, g, -, hg, t, ht, hi⟩
    have hi : Term.iri i ∈ neighbours.graphs.flatMap fun g => g.triples.flatMap Triple.terms :=
      List.mem_flatMap.2 ⟨g, mem_of_graph? hg, List.mem_flatMap.2 ⟨t, ht, hi⟩⟩
    simp only [neighbours, Triple.terms, List.flatMap_cons, List.flatMap_nil, List.append_nil, List.cons_append,
      List.nil_append, List.mem_cons, List.not_mem_nil, Term.iri.injEq, reduceCtorEq, or_false, false_or] at hi
    rcases hi with rfl | rfl | rfl | rfl | rfl | rfl <;> decide
  have hv : ∀ text ∈ ["file:///kb#a", "ex:p", "file:///other#a", "file:///kb#"],
      ∀ fragment ∈ after? "file:///kb#".toList text.toList, iriProblem? ("file:///other#".toList ++ fragment) = none := by
    decide +kernel
  have ha : neighbours.Mentions ⟨"file:///kb#a", by decide +kernel⟩ :=
    ⟨.top, _, .refl, rfl, _, List.mem_cons_self, List.mem_cons_self⟩
  obtain ⟨lines, es, c, he, hread, hcan, hmoved, hnone, -⟩ :=
    decode_moved neighbours hw hr rfl (by decide) fun _ _ _ hg => hc _ (mem_of_graph? hg)
  have hto : neighbours.canonicalize = .ok neighboursNumbered := by cbv
  obtain rfl : c = neighboursNumbered := Except.ok.inj (hcan.symm.trans hto)
  have hmove : neighboursNumbered.moved "file:///kb#" "file:///other#" = neighboursMoved := by decide +kernel
  refine ⟨hr, lines, es, he, hread, ?_, hnone ⟨_, ha, "a", by decide, rfl⟩⟩
  rw [← hmove]
  refine hmoved "file:///other" "file:///other#" (by decide) fun i fragment hi _ htext => ?_
  rw [String.toList_append]
  refine hv i.text (hm i hi) fragment.toList ?_
  rw [Option.mem_def, after?_eq_some, htext, String.toList_append]

end Document

end AtomLines.Rdf
