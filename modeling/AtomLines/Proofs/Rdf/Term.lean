import AtomLines.Proofs.SExpr.Atoms
import AtomLines.Rdf.TermAtom
/-!
# Terms from their text

Every term comes back from its expression after it has been written and read, but
for a literal of the language datatype that has no tag. A local name comes back as
the IRI that it stands for.
-/

namespace AtomLines.Rdf

/-! ## Local names -/

theorem after?_eq_some {start cs rest : List Char} : after? start cs = some rest ↔ cs = start ++ rest := by
  induction start generalizing cs with
  | nil => simp [after?]
  | cons a start ih =>
    cases cs with
    | nil => simp [after?]
    | cons c cs =>
      rw [after?]
      split
      · rename_i h
        simp [ih, h]
      · rename_i h
        simp [Ne.symm h]

/-- A name is local if the IRI goes on after the base. -/
theorem Namespaces.splitLocal_eq_some {ns : Namespaces} {iri name fragment : String} :
    ns.splitLocal iri = some (name, fragment) ↔
      ∃ own base, ns.own = some own ∧ own.base = some base ∧ own.name = name ∧ iri = base ++ fragment ∧
        fragment ≠ "" := by
  constructor
  · intro h
    rw [splitLocal] at h
    obtain ⟨own, ho, h⟩ := Option.bind_eq_some_iff.1 h
    obtain ⟨base, hb, h⟩ := Option.bind_eq_some_iff.1 h
    obtain ⟨rest, hr, h⟩ := Option.bind_eq_some_iff.1 h
    cases rest with
    | nil => cases h
    | cons c rest =>
      cases h
      refine ⟨own, base, ho, hb, rfl, ?_, ?_⟩
      · rw [← String.toList_inj, String.toList_append, String.toList_ofList, after?_eq_some.1 hr]
      · simp
  · rintro ⟨own, base, ho, hb, rfl, rfl, hf⟩
    have hr : after? base.toList (base ++ fragment).toList = some fragment.toList := by
      rw [after?_eq_some, String.toList_append]
    obtain ⟨c, rest, hc⟩ := List.exists_cons_of_ne_nil (fun h => hf (String.toList_eq_nil_iff.1 h))
    simp only [splitLocal, ho, hb, hr, hc, Option.bind_eq_bind, Option.bind_some]
    rw [← hc, String.ofList_toList]

/-- An expression for a text, whichever atom it is. -/
theorem iriText_of_name (ns : Namespaces) {e : SExpr} {s : String} (h : e.name? = some s) : iriText ns e = .ok s := by
  cases e with
  | list items => cases h
  | _ => cases h; rfl

/-- A local name goes on from the base that the reading table gives its name. -/
theorem iriText_reread_based {ns ns' : Namespaces} {i : Iri} {name fragment base : String}
    (h : ns.splitLocal i.text = some (name, fragment)) (hb : ns'.localBase name = some base) :
    iriText ns' (i.body ns).reread = .ok (base ++ fragment) := by
  rw [Iri.body, h]
  simp [iriText, hb]

/-- Without a base nothing is made of it. -/
theorem iriText_reread_unresolved {ns ns' : Namespaces} {i : Iri} {name fragment : String}
    (h : ns.splitLocal i.text = some (name, fragment)) (hb : ns'.localBase name = none)
    (hn : ns'.isLocalName name = true) : iriText ns' (i.body ns).reread = .error (.unresolvedLocal name) := by
  rw [Iri.body, h]
  simp [iriText, hb, hn]

/-- Any other IRI is written in full, so its table does not matter. -/
theorem iriText_reread_absolute {ns : Namespaces} {i : Iri} (h : ns.splitLocal i.text = none) (ns' : Namespaces) :
    iriText ns' (i.body ns).reread = .ok i.text := by
  rw [Iri.body, h]
  exact iriText_of_name ns' (SExpr.name?_reread_symbol i.text)

theorem iriText_reread_body (ns : Namespaces) (i : Iri) : iriText ns (i.body ns).reread = .ok i.text := by
  cases h : ns.splitLocal i.text with
  | none => exact iriText_reread_absolute h ns
  | some found =>
    obtain ⟨name, fragment⟩ := found
    obtain ⟨own, base, ho, hb, rfl, hi, -⟩ := Namespaces.splitLocal_eq_some.1 h
    have hl : ns.localBase own.name = some base := by simp [Namespaces.localBase, ho, hb]
    rw [iriText_reread_based h hl, hi]

theorem Iri.of_text (i : Iri) : Iri.of i.text = .ok i := by
  rw [Iri.of, Iri.ofString_text]
  rfl

theorem Iri.ofBody_reread_body (ns : Namespaces) (i : Iri) : Iri.ofBody ns (i.body ns).reread = .ok i := by
  rw [Iri.ofBody, iriText_reread_body]
  show (Iri.of i.text).mapError _ = _
  rw [Iri.of_text]
  rfl

/-! ## Literals -/

theorem LanguageTag.ofString_text (t : LanguageTag) : ofString t.text = .ok t := by
  unfold ofString
  dsimp only
  split
  · congr
    rw [t.lower, String.ofList_toList]
  · rename_i h
    rw [t.lower, t.valid] at h
    cases h

theorem LanguageTag.of_text (t : LanguageTag) : LanguageTag.of t.text = .ok t := by
  rw [LanguageTag.of, ofString_text]
  rfl

/-- The language datatype comes with a tag. -/
def Literal.Complete : Literal → Prop
  | typed _ d => d ≠ .rdfLangString
  | tagged _ _ => True

/-- The texts in the type of a literal. -/
def Literal.typeTexts : Literal → List String
  | typed _ d => [d.text]
  | tagged _ t => [Iri.rdfLangString.text, t.text]

theorem Iri.text_injective {i j : Iri} (h : i.text = j.text) : i = j := by
  cases i
  cases j
  cases h
  rfl

theorem Literal.names_reread_typeAtom (l : Literal) :
    l.typeAtom.reread.items?.bind (·.mapM SExpr.name?) = some l.typeTexts := by
  cases l <;> simp [typeAtom, typeTexts, SExpr.items?]

theorem Literal.ofParts_typeTexts {l : Literal} (h : l.Complete) (info : SExpr) :
    ofParts l.text info l.typeTexts = .ok l := by
  cases l with
  | typed s d =>
    rw [typeTexts, ofParts, if_neg (fun e => h (Iri.text_injective e)), Iri.of_text]
    rfl
  | tagged s t =>
    rw [typeTexts, ofParts, if_pos rfl, LanguageTag.of_text]
    rfl

/-! ## Terms -/

/-- A literal in the term is complete. -/
def Term.Complete (t : Term) : Prop := ∀ l, t = .literal l → l.Complete

/-- A term of a known kind is read from the argument. -/
theorem Term.ofAtom_kind {ns : Namespaces} {kind : String} {read : SExpr → Except TermError Term}
    (h : ofKind? ns kind = some read) (arg : SExpr) : ofAtom ns (.list [.symbol kind, arg]) = read arg := by
  simp only [ofAtom, SExpr.name?, Option.getD_some, h]

/-- What a term of a known kind is read from. -/
theorem Term.ofKind?_cases {ns : Namespaces} {kind : String} {read : SExpr → Except TermError Term}
    (hk : ofKind? ns kind = some read) {arg : SExpr} {t : Term} (h : read arg = .ok t) :
    (∃ i, kind = "uriref" ∧ Iri.ofBody ns arg = .ok i ∧ t = .iri i) ∨
    (∃ s b, kind = "bnode" ∧ arg.name? = some s ∧ BlankLabel.of s = .ok b ∧ t = .blank b) ∨
    (∃ s v, kind = "variable" ∧ arg.name? = some s ∧ VariableName.of s = .ok v ∧ t = .var v) ∨
    ∃ i, kind = "Graph" ∧ arg.index? = some i ∧ t = .graph (UInt64.ofNat i) := by
  unfold ofKind? at hk
  split at hk
  · cases hk
    obtain ⟨i, hi, rfl⟩ := map_eq_ok.1 h
    exact .inl ⟨i, rfl, hi, rfl⟩
  · cases hk
    dsimp only at h
    split at h
    · rename_i s hs
      obtain ⟨b, hb, rfl⟩ := map_eq_ok.1 (mapError_eq_ok.1 h)
      exact .inr (.inl ⟨s, b, rfl, hs, hb, rfl⟩)
    · cases h
  · cases hk
    dsimp only at h
    split at h
    · rename_i s hs
      obtain ⟨v, hv, rfl⟩ := map_eq_ok.1 (mapError_eq_ok.1 h)
      exact .inr (.inr (.inl ⟨s, v, rfl, hs, hv, rfl⟩))
    · cases h
  · cases hk
    dsimp only at h
    split at h
    · rename_i i hi
      cases h
      exact .inr (.inr (.inr ⟨i, rfl, hi, rfl⟩))
    · cases h
  · cases hk

/-- A term is a literal or the only argument of its kind. -/
theorem Term.ofAtom_cases {ns : Namespaces} {e : SExpr} {t : Term} (h : ofAtom ns e = .ok t) :
    (∃ parts args l, e = .list (.list parts :: args) ∧ Literal.ofAtom (.list parts) args = .ok l ∧ t = .literal l) ∨
    ∃ head arg read, e = .list [head, arg] ∧ ofKind? ns (head.name?.getD "") = some read ∧ read arg = .ok t := by
  unfold ofAtom at h
  split at h
  · cases h
  · rename_i parts args
    obtain ⟨l, hl, rfl⟩ := map_eq_ok.1 h
    exact .inl ⟨parts, args, l, rfl, hl, rfl⟩
  · rename_i head args _
    dsimp only at h
    split at h
    · cases h
    · rename_i read arg hk
      exact .inr ⟨head, arg, read, rfl, hk, h⟩
    · cases h
  · cases h

/-- The name of a kind stays what it is. -/
theorem Term.reread_kind {kind : String} (hq : ¬ SExpr.NeedsQuotation kind) (hn : ¬ Text.Numeral kind.toList)
    (arg : SExpr) : (SExpr.list [.symbol kind, arg]).reread = .list [.symbol kind, arg.reread] := by
  rw [SExpr.reread_list, List.map_cons, List.map_singleton, SExpr.reread_symbol hq hn]

theorem Term.ofAtom_reread_iri (ns ns' : Namespaces) (i : Iri) :
    ofAtom ns' ((iri i).atom ns).reread = (Iri.ofBody ns' (i.body ns).reread).map iri := by
  rw [atom, reread_kind (by decide) (by decide), ofAtom_kind rfl]

/-- A literal is read from its text and the texts of its type. -/
theorem Term.ofAtom_reread_literal (ns ns' : Namespaces) (l : Literal) :
    ofAtom ns' ((literal l).atom ns).reread =
      (Literal.ofParts l.text l.typeAtom.reread l.typeTexts).map literal := by
  rw [atom, SExpr.reread_list, List.map_cons, List.map_singleton, reread_kind (by decide) (by decide),
    SExpr.reread_string]
  simp only [ofAtom, Literal.ofAtom, SExpr.name?, l.names_reread_typeAtom]

/-- What is no IRI is written and read without the help of a table. -/
theorem Term.ofAtom_reread_of_not_iri (ns ns' : Namespaces) {t : Term} (hi : ∀ i, t ≠ .iri i) (h : t.Complete) :
    ofAtom ns' (t.atom ns).reread = .ok t := by
  cases t with
  | iri i => exact absurd rfl (hi i)
  | blank l =>
    rw [atom, reread_kind (by decide) (by decide), ofAtom_kind rfl, SExpr.reread_string]
    simp only [SExpr.name?, BlankLabel.of, BlankLabel.ofString?_text]
    rfl
  | literal l =>
    rw [ofAtom_reread_literal, Literal.ofParts_typeTexts (h l rfl)]
    rfl
  | var v =>
    rw [atom, reread_kind (by decide) (by decide), ofAtom_kind rfl]
    simp only [SExpr.name?_reread_symbol, VariableName.of, VariableName.ofString?_text]
    rfl
  | graph id =>
    rw [atom, GraphId.atom, reread_kind (by decide) (by decide), ofAtom_kind rfl, SExpr.reread_ofIndex]
    simp only [SExpr.index?_ofIndex id.toNat_lt, UInt64.ofNat_toNat]

theorem Term.ofAtom_reread_atom (ns : Namespaces) {t : Term} (h : t.Complete) :
    ofAtom ns (t.atom ns).reread = .ok t := by
  cases t with
  | iri i =>
    rw [ofAtom_reread_iri, Iri.ofBody_reread_body]
    rfl
  | _ => exact ofAtom_reread_of_not_iri ns ns nofun h

/-- A literal of the language datatype without a tag is not read, whatever the table. -/
theorem Term.ofAtom_reread_incomplete (ns ns' : Namespaces) {t : Term} (h : ¬ t.Complete) :
    ofAtom ns' (t.atom ns).reread = .error (.malformed .missingLanguage) := by
  obtain ⟨l, hi⟩ := Classical.not_forall.1 h
  obtain ⟨rfl, hl⟩ := Classical.not_imp.1 hi
  cases l with
  | typed s d =>
    obtain rfl : d = .rdfLangString := Decidable.not_not.1 hl
    rw [ofAtom_reread_literal, Literal.typeTexts, Literal.ofParts, if_pos rfl]
    rfl
  | tagged s tag => exact absurd trivial hl

/-- A graph is named by its expression, also after writing and reading. -/
theorem GraphId.ofAtom?_reread_atom (g : GraphId) : ofAtom? g.atom.reread = some g := by
  have hk : (SExpr.symbol "Graph").reread = .symbol "Graph" := SExpr.reread_symbol (by decide) (by decide)
  rw [atom, SExpr.reread_list, List.map_cons, List.map_singleton, hk, SExpr.reread_ofIndex, ofAtom?, if_pos rfl,
    SExpr.index?_ofIndex g.toNat_lt, Option.map_some, UInt64.ofNat_toNat]

/-! ## Proper expressions -/

theorem GraphId.proper_atom (g : GraphId) : g.atom.Proper :=
  .list (by simp [SExpr.Proper.symbol, SExpr.proper_ofIndex])

theorem Iri.proper_body (ns : Namespaces) (i : Iri) : (i.body ns).Proper := by
  unfold Iri.body
  split
  · exact .list (by simp [SExpr.Proper.symbol])
  · exact .symbol _

theorem Literal.proper_typeAtom (l : Literal) : l.typeAtom.Proper := by
  cases l <;> exact .list (by simp [SExpr.Proper.symbol])

theorem Term.proper_atom (ns : Namespaces) (t : Term) : (t.atom ns).Proper := by
  cases t with
  | iri i => exact .list (by simp [SExpr.Proper.symbol, i.proper_body ns])
  | blank l => exact .list (by simp [SExpr.Proper.symbol, SExpr.Proper.string])
  | literal l =>
    have hh : (SExpr.list [.symbol "literal", l.typeAtom]).Proper :=
      .list (by simp [SExpr.Proper.symbol, l.proper_typeAtom])
    exact .list (by simp [SExpr.Proper.string, hh])
  | var v => exact .list (by simp [SExpr.Proper.symbol])
  | graph id => exact id.proper_atom

/-! ## Texts of terms -/

/-- The text of a term is read as one expression, and that as the term, with every
table. Only a literal of the language datatype that has no tag is refused. -/
theorem Term.ofAtom_written (ns : Namespaces) (t : Term) :
    ∃ e, SExpr.read (t.atom ns).text = .ok [e] ∧ (t.Complete → ofAtom ns e = .ok t) ∧
      (¬ t.Complete → ofAtom ns e = .error (.malformed .missingLanguage)) :=
  ⟨_, SExpr.read_text (t.proper_atom ns), ofAtom_reread_atom ns, ofAtom_reread_incomplete ns ns⟩

theorem Term.ofAtom_written_untagged :
    let t : Term := .literal (.typed "v" .rdfLangString)
    SExpr.read (t.atom .empty).text = .ok [t.atom .empty] ∧
      ofAtom .empty (t.atom .empty) = .error (.malformed .missingLanguage) := by
  intro t
  have hr : (t.atom .empty).reread = t.atom .empty := by decide +kernel
  have ht := SExpr.read_text (t.proper_atom .empty)
  rw [hr] at ht
  exact ⟨ht, rfl⟩

end AtomLines.Rdf
