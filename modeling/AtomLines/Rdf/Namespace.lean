import AtomLines.Keyed
/-!
# Namespaces

A table of prefixes in the order of their declaration, and the local namespace
of a document: its name, and the base that its local names extend unless the
document has no address.
-/

namespace AtomLines.Rdf

structure LocalNamespace where
  name : String
  base : Option String
deriving DecidableEq, Repr

/-- The text without the marks `#` at its end. -/
def trimMarks (cs : List Char) : List Char :=
  (cs.reverse.dropWhile (· = '#')).reverse

/-- The text after the last slash. -/
def lastSegment (cs : List Char) : List Char :=
  (cs.reverse.takeWhile (· ≠ '/')).reverse

/-- The local namespace of the document at an address: named by the last segment,
with a fragment mark for its base. -/
def LocalNamespace.ofDocument (address : String) : LocalNamespace :=
  let trimmed := trimMarks address.toList
  { name := String.ofList (lastSegment trimmed)
    base := some (String.ofList (trimmed ++ ['#'])) }

structure Namespaces where
  prefixes : List (String × String)
  own : Option LocalNamespace
deriving DecidableEq, Repr

/-- The text after a given beginning. -/
def after? : (start cs : List Char) → Option (List Char)
  | [], cs => some cs
  | _, [] => none
  | a :: start, c :: rest => if a = c then after? start rest else none

inductive NameError where
  | unknownPrefix (label : String)
  /-- A compact name without a colon. -/
  | noColon (name : String)
deriving DecidableEq, Repr

def NameError.message : NameError → String
  | unknownPrefix label => "Unknown prefix: " ++ label
  | noColon name => "Invalid IRI: " ++ name

namespace Namespaces

def empty : Namespaces := ⟨[], none⟩

/-- A table of widely used vocabularies. -/
def common : Namespaces where
  prefixes := [
    ("rdf", "http://www.w3.org/1999/02/22-rdf-syntax-ns#"),
    ("rdfs", "http://www.w3.org/2000/01/rdf-schema#"),
    ("xsd", "http://www.w3.org/2001/XMLSchema#"),
    ("owl", "http://www.w3.org/2002/07/owl#"),
    ("log", "http://www.w3.org/2000/10/swap/log#")]
  own := none

def isEmpty (ns : Namespaces) : Bool :=
  ns.prefixes.isEmpty && ns.own.isNone

def add (ns : Namespaces) (label iri : String) : Namespaces :=
  { ns with prefixes := Keyed.put label iri ns.prefixes }

def setOwn (ns : Namespaces) (own : LocalNamespace) : Namespaces :=
  { ns with own := some own }

def withDocument (ns : Namespaces) (address : String) : Namespaces :=
  ns.setOwn (.ofDocument address)

def get (ns : Namespaces) (label : String) : Except NameError String :=
  match Keyed.get? label ns.prefixes with
  | some iri => .ok iri
  | none => .error (.unknownPrefix label)

/-- The full form of a name whose first colon ends its prefix label. -/
def expand (ns : Namespaces) (name : String) : Except NameError String :=
  let cs := name.toList
  match cs.dropWhile (· ≠ ':') with
  | [] => .error (.noColon name)
  | _ :: rest =>
    (ns.get (String.ofList (cs.takeWhile (· ≠ ':')))).map (· ++ String.ofList rest)

/-! ## Local names -/

/-- The name of the local namespace and the rest of an IRI that extends its base
by at least one character. -/
def splitLocal (ns : Namespaces) (iri : String) : Option (String × String) := do
  let own ← ns.own
  let base ← own.base
  match ← after? base.toList iri.toList with
  | [] => none
  | fragment => some (own.name, String.ofList fragment)

def isLocalName (ns : Namespaces) (name : String) : Bool :=
  match ns.own with
  | some own => own.name = name
  | none => false

/-- The base of the local namespace, if it has that name and a base. -/
def localBase (ns : Namespaces) (name : String) : Option String :=
  match ns.own with
  | some own => if own.name = name then own.base else none
  | none => none

/-- Equality up to the order of prefixes. -/
def same (a b : Namespaces) : Bool :=
  a.own = b.own && a.prefixes.length = b.prefixes.length &&
    a.prefixes.all fun (label, iri) => Keyed.get? label b.prefixes = some iri

end Namespaces

end AtomLines.Rdf
