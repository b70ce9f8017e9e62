import AtomLines.Rdf.Exchange.NTriples
import AtomLines.Rdf.Exchange.Turtle
/-!
# Importing RDF texts

The statements of a text become the asserted triples of a document. Its prefixes
are those of the text by ascending label, and the base of the text, if there is
one, gives the local namespace.
-/

namespace AtomLines.Rdf.Exchange

inductive Format where
  | turtle
  | nTriples
deriving DecidableEq, Repr

namespace Format

def name : Format → String
  | turtle => "Turtle"
  | nTriples => "NTriples"

/-- The format of files with an extension, in any case. -/
def ofExtension? (extension : String) : Option Format :=
  let lower := String.ofList (extension.toList.map Char.toLower)
  if lower = "ttl" || lower = "turtle" then some turtle
  else if lower = "nt" || lower = "ntriples" then some nTriples
  else none

end Format

/-- Only Turtle uses the base for references, which has to be an absolute IRI. -/
def read (format : Format) (base : Option String) (text : String) : Except ImportError Reading :=
  match format, base with
  | .nTriples, _ => .ok (NTriples.read text.toList)
  | .turtle, none => .ok (Turtle.read none text.toList)
  | .turtle, some base =>
    match iriProblem? base.toList with
    | some p => .error (.invalidBase p)
    | none => .ok (Turtle.read (some base.toList) text.toList)

/-- Pairs by ascending label. -/
def sortedByLabel (prefixes : List (String × String)) : List (String × String) :=
  prefixes.mergeSort fun a b => !(b.1 < a.1 : Bool)

/-- The table of a text: its prefixes, and a local namespace if it has a base. -/
def tableOf (base : Option String) (prefixes : List (String × String)) : Namespaces :=
  (sortedByLabel prefixes).foldl (fun ns (label, iri) => ns.add label iri) ⟨[], base.map .ofDocument⟩

def importDocument (format : Format) (base : Option String) (text : String) :
    Except ImportError Document := do
  let reading ← read format base text
  let triples ← reading.triples
  return (Document.new (tableOf base reading.prefixes)).put (triples.foldl Graph.insert (.empty .top))

end AtomLines.Rdf.Exchange
