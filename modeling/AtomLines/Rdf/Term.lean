import AtomLines.Rdf.Iri.Basic
import AtomLines.Rdf.Label
import AtomLines.Rdf.LanguageTag
import AtomLines.Text.Numeral
import AtomLines.Text.Hex
/-!
# Terms and triples

A term is an IRI, a blank node, a literal, a variable or a reference to a quoted
graph. A literal has a datatype or a language tag; a plain literal is one of the
string datatype.
-/

namespace AtomLines.Rdf

abbrev GraphId := UInt64

/-- The graph of the asserted triples. -/
def GraphId.top : GraphId := 0

def GraphId.text (g : GraphId) : String := toString g.toNat

inductive Literal where
  | typed (text : String) (datatype : Iri)
  | tagged (text : String) (tag : LanguageTag)
deriving DecidableEq

inductive Term where
  | iri (iri : Iri)
  | blank (label : BlankLabel)
  | literal (literal : Literal)
  | var (name : VariableName)
  | graph (id : GraphId)
deriving DecidableEq

structure Triple where
  subject : Term
  predicate : Term
  object : Term
deriving DecidableEq

/-! ## Building terms -/

/-- Why a text is no term. -/
inductive InvalidTerm where
  | iri (text : String) (problem : IriProblem)
  | blankLabel (text : String)
  | variableName (text : String)
  | languageTag (problem : TagProblem)
deriving DecidableEq, Repr

def InvalidTerm.message : InvalidTerm → String
  | iri text problem => "Invalid IRI: " ++ text ++ " (" ++ problem.message ++ ")"
  | blankLabel text => "Invalid blank node: " ++ text ++ " (The blank node identifier is invalid)"
  | variableName text => "Invalid variable: " ++ text ++ " (The variable name is invalid)"
  | languageTag problem => "Invalid literal: " ++ problem.message

def Iri.of (s : String) : Except InvalidTerm Iri :=
  (Iri.ofString s).mapError (.iri s)

def BlankLabel.of (s : String) : Except InvalidTerm BlankLabel :=
  match BlankLabel.ofString? s with
  | some l => .ok l
  | none => .error (.blankLabel s)

def VariableName.of (s : String) : Except InvalidTerm VariableName :=
  match VariableName.ofString? s with
  | some v => .ok v
  | none => .error (.variableName s)

def LanguageTag.of (s : String) : Except InvalidTerm LanguageTag :=
  (LanguageTag.ofString s).mapError .languageTag

/-- A literal of the string datatype. -/
def Literal.plain (text : String) : Literal :=
  typed text .xsdString

namespace Literal

def text : Literal → String
  | typed s _ | tagged s _ => s

def datatype : Literal → Iri
  | typed _ d => d
  | tagged _ _ => .rdfLangString

def tag? : Literal → Option LanguageTag
  | typed _ _ => none
  | tagged _ t => some t

end Literal

/-! ## References -/

namespace Term

def graph? : Term → Option GraphId
  | graph id => some id
  | _ => none

def mapGraph (f : GraphId → GraphId) : Term → Term
  | graph id => graph (f id)
  | t => t

end Term

namespace Triple

def terms (t : Triple) : List Term := [t.subject, t.predicate, t.object]

/-- The quoted graphs that a triple refers to. -/
def references (t : Triple) : List GraphId := t.terms.filterMap Term.graph?

def mapGraph (f : GraphId → GraphId) (t : Triple) : Triple :=
  ⟨t.subject.mapGraph f, t.predicate.mapGraph f, t.object.mapGraph f⟩

end Triple

/-! ## Display -/

/-- The escape of one character of a displayed literal. -/
def displayChar (c : Char) : List Char :=
  if c = '\x08' then ['\\', 'b']
  else if c = '\t' then ['\\', 't']
  else if c = '\n' then ['\\', 'n']
  else if c = '\x0c' then ['\\', 'f']
  else if c = '\r' then ['\\', 'r']
  else if c = '"' then ['\\', '"']
  else if c = '\\' then ['\\', '\\']
  else if c.toNat < 0x20 ∨ c.toNat = 0x7F then '\\' :: 'u' :: (Text.hexPadded 4 c.toNat).map Char.toUpper
  else [c]

def Iri.display (i : Iri) : String := "<" ++ i.text ++ ">"

/-- A literal between quotation marks with its tag, or with its datatype unless
it is plain. -/
def Literal.display : Literal → String
  | typed s d => quoted s ++ if d = .xsdString then "" else "^^" ++ d.display
  | tagged s t => quoted s ++ "@" ++ t.text
where
  quoted (s : String) : String := String.ofList ('"' :: (s.toList.flatMap displayChar ++ ['"']))

def Term.display : Term → String
  | iri i => i.display
  | blank l => "_:" ++ l.text
  | literal l => l.display
  | var v => "?" ++ v.text
  | graph id => "\x7bgraph " ++ id.text ++ "\x7d"

def Triple.display (t : Triple) : String :=
  t.subject.display ++ " " ++ t.predicate.display ++ " " ++ t.object.display ++ " ."

end AtomLines.Rdf
