import AtomLines.Rdf.Exchange.Statement
import AtomLines.Text.Line
/-!
# N-Triples

One statement per line, of absolute IRIs, blank nodes and strings with double
quotation marks. A line may be blank or a comment. A carriage return ends what is
read of its line.
-/

namespace AtomLines.Rdf.Exchange.NTriples

/-- Quoted triples nest at most this deep. -/
def maxDepth : Nat := 128

/-- An absolute IRI after its opening bracket. -/
def iri (cs : List Char) : Lexed String :=
  (iriBody cs).bind fun (text, rest) =>
    match iriProblem? text with
    | none => some (String.ofList text, rest)
    | some _ => none

def predicate : List Char → Lexed String
  | '<' :: rest => iri rest
  | _ => none

/-- A string after its opening mark, with a tag or a datatype. -/
def literal (cs : List Char) : Lexed Node :=
  (stringBody '"' false cs).bind fun (text, rest) =>
    let text := String.ofList text
    match skipBlanks rest with
    | '@' :: rest => (languageTag rest).map fun (tag, rest) => (.tagged text tag, rest)
    | '^' :: '^' :: rest => (predicate (skipBlanks rest)).map fun (d, rest) => (.typed text d, rest)
    | '^' :: _ => none
    | rest => some (.plain text, rest)

mutual

def resource : (depth : Nat) → List Char → Lexed Node
  | 0, '<' :: '<' :: _ => none
  | depth + 1, '<' :: '<' :: rest => (quotation depth rest).map fun rest => (.quotation, rest)
  | _, '<' :: rest => (iri rest).map fun (text, rest) => (.iri text, rest)
  | _, '_' :: ':' :: rest => (blankLabel rest).map fun (label, rest) => (.blank (String.ofList label), rest)
  | _, _ => none

/-- The text after a quoted triple whose opening brackets are read. -/
def quotation (depth : Nat) (cs : List Char) : Option (List Char) := do
  let (_, rest) ← resource depth (skipBlanks cs)
  let (_, rest) ← predicate (skipBlanks rest)
  let rest := skipBlanks rest
  let rest ← match rest with
    | '"' :: rest => (literal rest).map Prod.snd
    | _ => (resource depth rest).map Prod.snd
  match skipBlanks rest with
  | '>' :: '>' :: rest => some rest
  | _ => none

end

def object : List Char → Lexed Node
  | '"' :: rest => literal rest
  | cs => resource maxDepth cs

def statement (cs : List Char) : Option (Statement × List Char) := do
  let (s, rest) ← resource maxDepth cs
  let (p, rest) ← predicate (skipBlanks rest)
  let (o, rest) ← object (skipBlanks rest)
  return (⟨s, p, o⟩, rest)

/-- Nothing but a comment is left of a line. -/
def endsLine : List Char → Bool
  | [] => true
  | c :: _ => c = '#' || c = '\r'

/-- The statement of a line, if it has one; nothing where the line is wrong. -/
def line (cs : List Char) : Option (Option Statement) :=
  let cs := skipBlanks cs
  if endsLine cs then some none
  else
    match statement cs with
    | none => none
    | some (s, rest) =>
      match skipBlanks rest with
      | '.' :: rest => if endsLine (skipBlanks rest) then some (some s) else none
      | _ => none

/-- The statements of lines, up to the first line that is wrong. -/
def readLines : List (List Char) → Reading
  | [] => ⟨[], true, []⟩
  | cs :: rest =>
    match line cs with
    | none => ⟨[], false, []⟩
    | some none => readLines rest
    | some (some s) =>
      let r := readLines rest
      { r with statements := s :: r.statements }

def read (cs : List Char) : Reading :=
  let (first, more) := Text.pieces cs
  readLines (first :: more)

end AtomLines.Rdf.Exchange.NTriples
