import AtomLines.Proofs.Rdf.Exchange.Lexeme
/-!
# Facts

A fact is a triple that has a written form: it is about an IRI or a blank node, its
predicate is an IRI, and its object may also be a literal. A graph is exported if its
triples are facts, and the statement that a fact is read as states its triple.
-/

namespace AtomLines.Rdf

/-! ## Other labels -/

/-- The term with its label changed, if it is a blank node. -/
def Term.relabel (f : BlankLabel → BlankLabel) : Term → Term
  | blank l => blank (f l)
  | t => t

def Triple.relabel (f : BlankLabel → BlankLabel) (t : Triple) : Triple :=
  ⟨t.subject.relabel f, t.predicate.relabel f, t.object.relabel f⟩

theorem BlankLabel.text_injective {l l' : BlankLabel} (h : l.text = l'.text) : l = l' := by
  cases l
  cases l'
  cases h
  rfl

namespace Exchange

theorem iriChars_injective {i j : Iri} (h : iriChars i = iriChars j) : i = j := by
  rw [iriChars, iriChars, List.cons.injEq, List.append_cancel_right_eq, String.toList_inj] at h
  exact Iri.text_injective h.2

/-! ## Subjects, objects and facts -/

inductive Resource where
  | iri (i : Iri)
  | blank (l : BlankLabel)

inductive Value where
  | resource (r : Resource)
  | literal (l : Literal)

structure Fact where
  subject : Resource
  predicate : Iri
  object : Value

namespace Resource

def term : Resource → Term
  | iri i => .iri i
  | blank l => .blank l

def chars : Resource → List Char
  | iri i => iriChars i
  | blank l => blankChars l

/-- What the resource is read as. -/
def node : Resource → Node
  | iri i => .iri i.text
  | blank l => .blank l.text

def Portable : Resource → Prop
  | iri _ => True
  | blank l => l.Portable

def relabel (f : BlankLabel → BlankLabel) : Resource → Resource
  | iri i => iri i
  | blank l => blank (f l)

variable (f : BlankLabel → BlankLabel) (r : Resource)

theorem term_relabel : (r.relabel f).term = r.term.relabel f := by cases r <;> rfl

theorem portable_iff : r.Portable ↔ ∀ l, r.term = .blank l → l.Portable := by
  cases r with
  | iri i => exact ⟨fun _ => nofun, fun _ => trivial⟩
  | blank l =>
    refine ⟨?_, fun h => h l rfl⟩
    rintro h l' ⟨⟩
    exact h

theorem toSubject_node : r.node.toSubject = .ok r.term := by
  cases r with
  | iri i =>
    rw [node, Node.toSubject, Node.toIri, Iri.of_text]
    rfl
  | blank l =>
    rw [node, Node.toSubject, Node.toBlank, BlankLabel.of, BlankLabel.ofString?_text]
    rfl

theorem toObject_node : r.node.toObject = .ok r.term := by
  cases r with
  | iri i => exact toSubject_node (iri i)
  | blank l => exact toSubject_node (blank l)

theorem subjectChars?_eq_some {x : Term} {cs : List Char} :
    subjectChars? x = some cs ↔ ∃ r : Resource, r.term = x ∧ r.chars = cs := by
  constructor
  · intro h
    cases x with
    | iri i => exact ⟨iri i, rfl, Option.some.inj h⟩
    | blank l => exact ⟨blank l, rfl, Option.some.inj h⟩
    | _ => cases h
  · rintro ⟨r, rfl, rfl⟩
    cases r <;> rfl

theorem chars_injective {r r' : Resource} (h : r.chars = r'.chars) : r = r' := by
  cases r with
  | iri i =>
    cases r' with
    | iri j => rw [iriChars_injective h]
    | blank l => cases h
  | blank l =>
    cases r' with
    | iri j => cases h
    | blank l' =>
      rw [chars, chars, blankChars, blankChars, List.cons.injEq, List.cons.injEq, String.toList_inj] at h
      rw [BlankLabel.text_injective h.2.2]

end Resource

namespace Value

def term : Value → Term
  | resource r => r.term
  | literal l => .literal l

def chars : Value → List Char
  | resource r => r.chars
  | literal l => literalChars l

/-- What the value is read as. The string datatype is not written. -/
def node : Value → Node
  | resource r => r.node
  | literal (.typed s d) => if d = .xsdString then .plain s else .typed s d.text
  | literal (.tagged s t) => .tagged s t

def Portable : Value → Prop
  | resource r => r.Portable
  | literal _ => True

def relabel (f : BlankLabel → BlankLabel) : Value → Value
  | resource r => resource (r.relabel f)
  | literal l => literal l

variable (f : BlankLabel → BlankLabel) (v : Value)

theorem term_relabel : (v.relabel f).term = v.term.relabel f := by
  cases v with
  | resource r => exact r.term_relabel f
  | literal l => rfl

theorem portable_iff : v.Portable ↔ ∀ l, v.term = .blank l → l.Portable := by
  cases v with
  | resource r => exact r.portable_iff
  | literal l => exact ⟨fun _ => nofun, fun _ => trivial⟩

theorem toObject_node : v.node.toObject = .ok v.term := by
  cases v with
  | resource r => exact r.toObject_node
  | literal l =>
    cases l with
    | typed s d =>
      rw [node]
      split
      · rename_i h
        rw [h]
        rfl
      · rw [Node.toObject, Iri.of_text]
        rfl
    | tagged s t => rfl

theorem objectChars?_eq_some {x : Term} {cs : List Char} :
    objectChars? x = some cs ↔ ∃ v : Value, v.term = x ∧ v.chars = cs := by
  constructor
  · intro h
    cases x with
    | iri i => exact ⟨resource (.iri i), rfl, Option.some.inj h⟩
    | blank l => exact ⟨resource (.blank l), rfl, Option.some.inj h⟩
    | literal l => exact ⟨literal l, rfl, Option.some.inj h⟩
    | _ => cases h
  · rintro ⟨v, rfl, rfl⟩
    cases v with
    | resource r => cases r <;> rfl
    | literal l => rfl

end Value

theorem predicateChars?_eq_some {x : Term} {cs : List Char} :
    predicateChars? x = some cs ↔ ∃ i, Term.iri i = x ∧ iriChars i = cs := by
  constructor
  · intro h
    cases x with
    | iri i => exact ⟨i, rfl, Option.some.inj h⟩
    | _ => cases h
  · rintro ⟨i, rfl, rfl⟩
    rfl

namespace Fact

def triple (x : Fact) : Triple := ⟨x.subject.term, .iri x.predicate, x.object.term⟩

def written (x : Fact) : WrittenTriple := ⟨x.subject.chars, iriChars x.predicate, x.object.chars⟩

theorem chars_written (x : Fact) (rest : List Char) :
    x.written.chars ++ rest = x.subject.chars ++ ' ' :: (iriChars x.predicate ++ ' ' :: (x.object.chars ++ rest)) := by
  simp [written, WrittenTriple.chars]

theorem written_subject_inj {x y : Fact} : x.written.subject = y.written.subject ↔ x.subject = y.subject :=
  ⟨Resource.chars_injective, congrArg Resource.chars⟩

theorem written_predicate_inj {x y : Fact} : x.written.predicate = y.written.predicate ↔ x.predicate = y.predicate :=
  ⟨iriChars_injective, congrArg iriChars⟩

/-- The statement that the fact is read as. -/
def statement (x : Fact) : Statement := ⟨x.subject.node, x.predicate.text, x.object.node⟩

structure Portable (x : Fact) : Prop where
  subject : x.subject.Portable
  object : x.object.Portable

def relabel (f : BlankLabel → BlankLabel) (x : Fact) : Fact :=
  ⟨x.subject.relabel f, x.predicate, x.object.relabel f⟩

variable (f : BlankLabel → BlankLabel) (x : Fact)

theorem triple_relabel : (x.relabel f).triple = x.triple.relabel f := by
  rw [triple, triple, relabel, Resource.term_relabel, Value.term_relabel]
  rfl

theorem portable_iff : x.Portable ↔ ∀ l, .blank l ∈ x.triple.terms → l.Portable := by
  have hterms : ∀ l, Term.blank l ∈ x.triple.terms ↔ x.subject.term = .blank l ∨ x.object.term = .blank l := by
    intro l
    simp [triple, Triple.terms, eq_comm]
  simp only [hterms, or_imp, forall_and, ← Resource.portable_iff, ← Value.portable_iff]
  exact ⟨fun h => ⟨h.subject, h.object⟩, fun h => ⟨h.1, h.2⟩⟩

theorem toTriple_statement : x.statement.toTriple = .ok x.triple := by
  have hp : Node.toIri x.predicate.text = .ok (.iri x.predicate) := Resource.toSubject_node (.iri x.predicate)
  rw [Statement.toTriple, statement, Resource.toSubject_node, hp, Value.toObject_node]
  rfl

end Fact

/-! ## Exported graphs -/

theorem written_eq_ok {format : Format} {form? : Term → Option (List Char)} {t : Term} {cs : List Char} :
    written format form? t = .ok cs ↔ form? t = some cs := by
  rw [written]
  cases form? t <;> simp

theorem WrittenTriple.of_eq_ok {format : Format} {t : Triple} {w : WrittenTriple} :
    WrittenTriple.of format t = .ok w ↔ ∃ x : Fact, x.triple = t ∧ x.written = w := by
  constructor
  · intro h
    obtain ⟨s, hs, h⟩ := bind_eq_ok.1 h
    obtain ⟨p, hp, h⟩ := bind_eq_ok.1 h
    obtain ⟨o, ho, h⟩ := bind_eq_ok.1 h
    cases h
    obtain ⟨subject, es, rfl⟩ := Resource.subjectChars?_eq_some.1 (written_eq_ok.1 hs)
    obtain ⟨predicate, ep, rfl⟩ := predicateChars?_eq_some.1 (written_eq_ok.1 hp)
    obtain ⟨object, eo, rfl⟩ := Value.objectChars?_eq_some.1 (written_eq_ok.1 ho)
    refine ⟨⟨subject, predicate, object⟩, ?_, rfl⟩
    rw [Fact.triple, es, ep, eo]
  · rintro ⟨x, rfl, rfl⟩
    have hs := Resource.subjectChars?_eq_some.2 ⟨x.subject, rfl, rfl⟩
    have ho := Value.objectChars?_eq_some.2 ⟨x.object, rfl, rfl⟩
    rw [WrittenTriple.of, Fact.triple, written_eq_ok.2 hs, written_eq_ok.2 (predicateChars?_eq_some.2 ⟨_, rfl, rfl⟩),
      written_eq_ok.2 ho]
    rfl

theorem mapM_of_eq_ok {format : Format} {ts : List Triple} {ws : List WrittenTriple} :
    ts.mapM (WrittenTriple.of format) = .ok ws ↔ ∃ xs : List Fact, xs.map Fact.triple = ts ∧ xs.map Fact.written = ws := by
  constructor
  · intro h
    induction ts generalizing ws with
    | nil =>
      cases h
      exact ⟨[], rfl, rfl⟩
    | cons t ts ih =>
      obtain ⟨w, rest, hw, hrest, rfl⟩ := mapM_cons_eq_ok h
      obtain ⟨x, rfl, rfl⟩ := WrittenTriple.of_eq_ok.1 hw
      obtain ⟨xs, rfl, rfl⟩ := ih hrest
      exact ⟨x :: xs, rfl, rfl⟩
  · rintro ⟨xs, rfl, rfl⟩
    induction xs with
    | nil => rfl
    | cons x xs ih =>
      rw [List.map_cons, List.mapM_cons, WrittenTriple.of_eq_ok.2 ⟨x, rfl, rfl⟩, ih]
      rfl

/-- The text of written triples in a format. -/
def textOf (format : Format) (ws : List WrittenTriple) : List Char :=
  match format with
  | .nTriples => nTriplesChars ws
  | .turtle => turtleChars ws

theorem exportGraph_eq_ok {format : Format} {g : Graph} {text : String} :
    exportGraph format g = .ok text ↔
      ∃ xs : List Fact, xs.map Fact.triple = g.triples ∧ text = String.ofList (textOf format (xs.map Fact.written)) := by
  have hf : exportGraph format g =
      (g.triples.mapM (WrittenTriple.of format)).map fun ws => String.ofList (textOf format ws) := by
    rw [exportGraph]
    cases g.triples.mapM (WrittenTriple.of format) with
    | error u => rfl
    | ok ws => cases format <;> rfl
  rw [hf, map_eq_ok]
  constructor
  · rintro ⟨ws, hws, rfl⟩
    obtain ⟨xs, hxs, rfl⟩ := mapM_of_eq_ok.1 hws
    exact ⟨xs, hxs, rfl⟩
  · rintro ⟨xs, hxs, rfl⟩
    exact ⟨xs.map Fact.written, mapM_of_eq_ok.2 ⟨xs, hxs, rfl⟩, rfl⟩

end Exchange

end AtomLines.Rdf
