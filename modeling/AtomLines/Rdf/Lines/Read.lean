import AtomLines.Rdf.Lines.Write
/-!
# Reading documents

Bindings hold for all statements, wherever they stand, and a reference may come
before the graph it refers to. So every line is first told apart by its form, and
only then are the terms read.
-/

namespace AtomLines.Rdf

/-! ## Kinds of lines -/

inductive GraphLine where
  | binding (label iri : String)
  /-- A graph that has no statement on this line. -/
  | definition (graph : GraphId)
  | statement (graph : GraphId) (subject predicate object : SExpr)
deriving DecidableEq

namespace GraphLine

def binding? : SExpr → Option GraphLine
  | .list [_, .list [label, iri]] =>
    match label.name?, iri.name? with
    | some label, some iri => some (binding label iri)
    | _, _ => none
  | _ => none

def quoted? : SExpr → Option GraphLine
  | .list [label] => (GraphId.ofAtom? label).map definition
  | .list [label, .list [s, p, o]] => (GraphId.ofAtom? label).map fun graph => statement graph s p o
  | _ => none

def flat? : SExpr → Option GraphLine
  | .list [s, p, o] => some (statement .top s p o)
  | _ => none

/-- The kind of a line; the fault where it has none. -/
def ofExpr (encoding : GraphEncoding) (e : SExpr) : Except LineFault GraphLine :=
  let (found?, fault) :=
    if e.hasHead "Namespace" then (binding? e, LineFault.binding e)
    else match encoding with
      | .quoted => (quoted? e, LineFault.quoted e)
      | .flat => (flat? e, LineFault.flat e)
  match found? with
  | some l => .ok l
  | none => .error fault

def ofLines (encoding : GraphEncoding) (lines : List SExpr) : Except GraphError (List GraphLine) :=
  (lines.zipIdx 1).mapM fun (e, line) => (ofExpr encoding e).mapError (.malformed line)

/-! ## What all lines say together -/

/-- The prefixes in the order of their first binding, with their last value. -/
def prefixes (lines : List GraphLine) : List (String × String) :=
  lines.foldl (fun bound l =>
    match l with
    | binding label iri => if label = localLabel then bound else Keyed.put label iri bound
    | _ => bound) []

/-- The last name that is bound to the local namespace. -/
def localName? (lines : List GraphLine) : Option String :=
  lines.foldl (fun found l =>
    match l with
    | binding label iri => if label = localLabel then some iri else found
    | _ => found) none

/-- The local namespace: its name may be bound, its base comes from the address. -/
def own (lines : List GraphLine) (address : Option String) : Option LocalNamespace :=
  let derived := address.map LocalNamespace.ofDocument
  match localName? lines with
  | some name => some ⟨name, derived.bind LocalNamespace.base⟩
  | none => derived

def namespaces (lines : List GraphLine) (address : Option String) : Namespaces :=
  ⟨prefixes lines, own lines address⟩

def graph? : GraphLine → Option GraphId
  | binding _ _ => none
  | definition graph => some graph
  | statement graph _ _ _ => some graph

/-- A document with every graph that a line names, all of them empty. -/
def skeleton (lines : List GraphLine) (address : Option String) : Document :=
  (lines.filterMap graph?).foldl Document.touch (.new (namespaces lines address))

/-! ## Statements -/

/-- A term of a statement in `graph`; what it refers to has to be defined. -/
def readTerm (encoding : GraphEncoding) (frame : Document) (graph : GraphId) (e : SExpr) :
    Except GraphError Term := do
  let term ← (Term.ofAtom frame.namespaces e).mapError (.term graph)
  match term.graph?, encoding with
  | none, _ => return term
  | some id, .flat => .error (.quotedInFlat id)
  | some id, .quoted =>
    if id = .top then .error (.cyclic id)
    else if (frame.graph? id).isNone then .error (.dangling id graph)
    else return term

def readTriple (encoding : GraphEncoding) (frame : Document) (graph : GraphId) (s p o : SExpr) :
    Except GraphError Triple := do
  let s ← readTerm encoding frame graph s
  let p ← readTerm encoding frame graph p
  let o ← readTerm encoding frame graph o
  return ⟨s, p, o⟩

/-- Adds the triple of a statement to the document. -/
def add (encoding : GraphEncoding) (frame d : Document) : GraphLine → Except GraphError Document
  | statement graph s p o => do return d.insert graph (← readTriple encoding frame graph s p o)
  | _ => .ok d

end GraphLine

/-- The document of lines, written at an address if it has one. -/
def Document.decode (encoding : GraphEncoding) (address : Option String) (lines : List SExpr) :
    Except GraphError Document := do
  let lines ← GraphLine.ofLines encoding lines
  let frame := GraphLine.skeleton lines address
  let d ← lines.foldlM (GraphLine.add encoding frame) frame
  let _ ← d.checkReferences
  return d

end AtomLines.Rdf
