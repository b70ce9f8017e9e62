import AtomLines.Json.Error
import AtomLines.Json.Value
/-!
# Leaves as atoms

A scalar is written as one atom and an empty container as the symbol of its
brackets. A string that is the text of a representable number is written bare,
so it reads back as that number; every other leaf reads back as itself.
-/

namespace AtomLines.Json

def emptyMapping : String := "\x7b\x7d"

def emptySequence : String := "[]"

namespace Scalar

def toAtom : Scalar → SExpr
  | string s => if (Number.read? s).isSome then .number s else .string s
  | number n => .number n.text
  | boolean b => .symbol (if b then "true" else "false")
  | null => .symbol "null"

def ofAtom : SExpr → Except Malformation Scalar
  | .string s => .ok (string s)
  | .number s =>
    match Number.read? s with
    | some n => .ok (number n)
    | none => .error (.unrepresentable s)
  | .symbol s =>
    if s = "true" then .ok (boolean true)
    else if s = "false" then .ok (boolean false)
    else if s = "null" then .ok null
    else .error (.notScalar s)
  | .list _ => .error .listAsScalar

end Scalar

namespace Value

/-- The atom of a leaf; of a container it says only that it is one. -/
def toAtom : Value → SExpr
  | scalar s => s.toAtom
  | sequence _ => .symbol emptySequence
  | mapping _ => .symbol emptyMapping

def ofAtom (e : SExpr) : Except Malformation Value :=
  if e = .symbol emptyMapping then .ok (mapping [])
  else if e = .symbol emptySequence then .ok (sequence [])
  else (Scalar.ofAtom e).map scalar

end Value

end AtomLines.Json
