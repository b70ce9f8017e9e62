import AtomLines.Rdf.Flatten
/-!
# Writing documents

Statements come first: with graph labels, or flat where no quoted graph occurs.
Lines that bind prefixes follow, and last the one that names the local namespace.
-/

namespace AtomLines.Rdf

inductive GraphEncoding where
  | quoted
  | flat
deriving DecidableEq, Repr

/-- How a document is written and read. -/
structure GraphFormat where
  encoding : GraphEncoding
  namespaceLines : Bool
deriving DecidableEq, Repr

def GraphFormat.standard : GraphFormat := ⟨.quoted, true⟩

/-! ## Flat statements -/

def Term.flatAtom (ns : Namespaces) : Term → Except GraphError SExpr
  | graph id => .error (.quotedInFlat id)
  | t => .ok (t.atom ns)

def Triple.flatAtom (ns : Namespaces) (t : Triple) : Except GraphError SExpr := do
  let s ← t.subject.flatAtom ns
  let p ← t.predicate.flatAtom ns
  let o ← t.object.flatAtom ns
  return .list [s, p, o]

def Document.encodeFlat (d : Document) : Except GraphError (List SExpr) :=
  d.asserted.triples.mapM (Triple.flatAtom d.namespaces)

/-! ## Bindings -/

/-- The label under which the local namespace is bound. -/
def localLabel : String := "local"

def bindingLine (label iri : String) : SExpr :=
  .list [.symbol "Namespace", .list [.string label, .string iri]]

def Namespaces.lines (ns : Namespaces) : List SExpr :=
  (ns.prefixes.filter (·.1 ≠ localLabel)).map (fun (label, iri) => bindingLine label iri) ++
    (ns.own.map fun own => bindingLine localLabel own.name).toList

/-! ## Documents -/

def Document.encode (format : GraphFormat) (d : Document) : Except GraphError (List SExpr) := do
  let statements ← match format.encoding with
    | .quoted => d.flatten.map Prod.fst
    | .flat => d.encodeFlat
  return statements ++ if format.namespaceLines then d.namespaces.lines else []

end AtomLines.Rdf
