import AtomLines.Rdf.TermAtom
/-!
# What can be wrong with a document

A document cannot be written if a quoted graph is missing or refers to itself,
and lines cannot be read if one of them is no statement.
-/

namespace AtomLines.Rdf

/-- What a line was expected to be. -/
inductive LineFault where
  | binding (found : SExpr)
  | quoted (found : SExpr)
  | flat (found : SExpr)
deriving DecidableEq, Repr

def LineFault.message : LineFault → String
  | binding found => "expected `(Namespace (label uri))`, found " ++ found.text
  | quoted found => "expected `((Graph id) (s p o))`, found " ++ found.text
  | flat found => "expected `(s p o)`, found " ++ found.text

inductive GraphError where
  | dangling (graph referrer : GraphId)
  | cyclic (graph : GraphId)
  | quotedInFlat (graph : GraphId)
  /-- Lines are counted from one. -/
  | malformed (line : Nat) (fault : LineFault)
  | term (graph : GraphId) (cause : TermError)
deriving DecidableEq, Repr

def GraphError.message : GraphError → String
  | dangling graph referrer =>
    "Graph " ++ graph.text ++ " is referenced from graph " ++ referrer.text ++ " but never defined"
  | cyclic graph => "Graph " ++ graph.text ++ " is part of a reference cycle"
  | quotedInFlat graph => "Quoted graph " ++ graph.text ++ " cannot be written in the flat encoding"
  | malformed line fault => "Malformed statement on line " ++ toString line ++ ": " ++ fault.message
  | term graph cause => "Term error in graph " ++ graph.text ++ ": " ++ cause.message

end AtomLines.Rdf
