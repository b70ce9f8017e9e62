import AtomLines.Rdf.Exchange.Import
/-!
# Exporting RDF texts

A graph is written with full IRIs. Turtle names a subject once for triples that
follow each other, and so a predicate. Variables, references to graphs, literal
subjects and predicates other than IRIs have no written form.
-/

namespace AtomLines.Rdf.Exchange

/-- A term that a format has no written form for. -/
structure Unsupported where
  format : Format
  term : Term
deriving DecidableEq

def Unsupported.message (u : Unsupported) : String :=
  "Unsupported term in " ++ u.format.name ++ ": " ++ u.term.display

/-! ## Terms -/

/-- The escape of one character of a string. -/
def stringChar (c : Char) : List Char :=
  if c = '\n' then ['\\', 'n']
  else if c = '\r' then ['\\', 'r']
  else if c = '"' then ['\\', '"']
  else if c = '\\' then ['\\', '\\']
  else [c]

def stringChars (s : String) : List Char :=
  '"' :: (s.toList.flatMap stringChar ++ ['"'])

def iriChars (i : Iri) : List Char := '<' :: (i.text.toList ++ ['>'])

def blankChars (l : BlankLabel) : List Char := '_' :: ':' :: l.text.toList

def literalChars : Literal → List Char
  | .typed s d => stringChars s ++ if d = .xsdString then [] else '^' :: '^' :: iriChars d
  | .tagged s t => stringChars s ++ '@' :: t.text.toList

def subjectChars? : Term → Option (List Char)
  | .iri i => some (iriChars i)
  | .blank l => some (blankChars l)
  | _ => none

def predicateChars? : Term → Option (List Char)
  | .iri i => some (iriChars i)
  | _ => none

def objectChars? : Term → Option (List Char)
  | .iri i => some (iriChars i)
  | .blank l => some (blankChars l)
  | .literal l => some (literalChars l)
  | _ => none

/-! ## Triples -/

/-- A triple with the written form of each term. -/
structure WrittenTriple where
  subject : List Char
  predicate : List Char
  object : List Char
deriving DecidableEq

def written (format : Format) (form? : Term → Option (List Char)) (t : Term) :
    Except Unsupported (List Char) :=
  match form? t with
  | some cs => .ok cs
  | none => .error ⟨format, t⟩

def WrittenTriple.of (format : Format) (t : Triple) : Except Unsupported WrittenTriple := do
  let s ← written format subjectChars? t.subject
  let p ← written format predicateChars? t.predicate
  let o ← written format objectChars? t.object
  return ⟨s, p, o⟩

/-- The three terms with spaces between them. -/
def WrittenTriple.chars (t : WrittenTriple) : List Char :=
  t.subject ++ ' ' :: t.predicate ++ ' ' :: t.object

def nTriplesChars (ts : List WrittenTriple) : List Char :=
  ts.flatMap fun t => t.chars ++ [' ', '.', '\n']

/-- What follows the triple `last` up to the end of the text. -/
def turtleRest (last : WrittenTriple) : List WrittenTriple → List Char
  | [] => [' ', '.', '\n']
  | t :: rest =>
    (if t.subject = last.subject then
      if t.predicate = last.predicate then ' ' :: ',' :: ' ' :: t.object
      else ' ' :: ';' :: '\n' :: '\t' :: t.predicate ++ ' ' :: t.object
    else ' ' :: '.' :: '\n' :: t.chars) ++ turtleRest t rest

def turtleChars : List WrittenTriple → List Char
  | [] => []
  | t :: rest => t.chars ++ turtleRest t rest

/-- The text of a graph. -/
def exportGraph (format : Format) (g : Graph) : Except Unsupported String := do
  let ts ← g.triples.mapM (WrittenTriple.of format)
  match format with
  | .nTriples => return String.ofList (nTriplesChars ts)
  | .turtle => return String.ofList (turtleChars ts)

end AtomLines.Rdf.Exchange
