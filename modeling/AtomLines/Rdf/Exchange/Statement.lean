import AtomLines.Rdf.Document
import AtomLines.Rdf.Exchange.Lexeme
/-!
# Statements of RDF texts

What a text states before the data model has checked it. A text may also quote
triples, which the data model has no term for; they can be told apart but not
imported. Statements are checked in the order in which the text completes them,
and the first that fails is the error of the text.
-/

namespace AtomLines.Rdf.Exchange

inductive Node where
  | iri (text : String)
  | blank (label : String)
  | plain (text : String)
  | tagged (text : String) (tag : LanguageTag)
  | typed (text datatype : String)
  /-- A quoted triple. -/
  | quotation
deriving DecidableEq

structure Statement where
  subject : Node
  predicate : String
  object : Node
deriving DecidableEq

inductive ImportError where
  /-- The text does not follow the grammar. -/
  | unreadable
  | invalid (cause : InvalidTerm)
  | unsupportedSubject
  | unsupportedObject
  | invalidBase (problem : IriProblem)
deriving DecidableEq, Repr

def ImportError.message : ImportError → String
  | unreadable => "Parse error"
  | invalid cause => "Parse error: " ++ cause.message
  | unsupportedSubject => "Parse error: Unsupported subject type"
  | unsupportedObject => "Parse error: Unsupported object type"
  | invalidBase problem => "Invalid base IRI: " ++ problem.message

namespace Node

def toIri (text : String) : Except ImportError Term :=
  ((Iri.of text).map Term.iri).mapError .invalid

def toBlank (label : String) : Except ImportError Term :=
  ((BlankLabel.of label).map Term.blank).mapError .invalid

def toSubject : Node → Except ImportError Term
  | iri text => toIri text
  | blank label => toBlank label
  | _ => .error .unsupportedSubject

def toObject : Node → Except ImportError Term
  | iri text => toIri text
  | blank label => toBlank label
  | plain text => .ok (.literal (.plain text))
  | tagged text tag => .ok (.literal (.tagged text tag))
  | typed text datatype => ((Iri.of datatype).map fun d => Term.literal (.typed text d)).mapError .invalid
  | quotation => .error .unsupportedObject

end Node

def Statement.toTriple (s : Statement) : Except ImportError Triple := do
  let subject ← s.subject.toSubject
  let predicate ← Node.toIri s.predicate
  let object ← s.object.toObject
  return ⟨subject, predicate, object⟩

/-- What was read of a text: the statements in order, and whether the text was
read to its end. -/
structure Reading where
  statements : List Statement
  complete : Bool
  prefixes : List (String × String)

/-- The triples of a text that was read to its end. -/
def Reading.triples (r : Reading) : Except ImportError (List Triple) := do
  let triples ← r.statements.mapM Statement.toTriple
  if r.complete then return triples else .error .unreadable

end AtomLines.Rdf.Exchange
