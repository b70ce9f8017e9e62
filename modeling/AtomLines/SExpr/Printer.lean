import AtomLines.SExpr.Basic
import AtomLines.SExpr.Quoted
import AtomLines.Text.Blank
/-!
# Writing expressions

Items of a list are separated by one space and every expression of a document
stands on a line of its own. A symbol that could not be read as a bare token is
written as a string.
-/

namespace AtomLines.SExpr

/-- A symbol that needs quotation marks to be read as one token. -/
def needsQuotes (cs : List Char) : Bool :=
  cs = [] || cs.head? = some ';' ||
    cs.any fun c => Text.isBlank c || c = '(' || c = ')' || c = '"'

mutual

def chars : SExpr → List Char
  | symbol s => if needsQuotes s.toList then quote s.toList else s.toList
  | string s => quote s.toList
  | number s => s.toList
  | list items => '(' :: (itemChars items ++ [')'])

/-- Expressions with a space between neighbours. -/
def itemChars : List SExpr → List Char
  | [] => []
  | [e] => chars e
  | e :: rest => chars e ++ ' ' :: itemChars rest

end

/-- The written form of one expression. -/
def text (e : SExpr) : String :=
  String.ofList e.chars

/-- Each expression on a line that ends in a line feed. -/
def lineChars : List SExpr → List Char
  | [] => []
  | e :: rest => chars e ++ '\n' :: lineChars rest

/-- The text of a document of expressions. -/
def write (es : List SExpr) : String :=
  String.ofList (lineChars es)

end AtomLines.SExpr
