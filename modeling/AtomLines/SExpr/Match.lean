import AtomLines.SExpr.Reader
/-!
# Expressions from matches

A text that follows the grammar is a tree of matches, each with its rule, its text and
the matches inside it. A list is built from the matches inside, a string from the text
between its quotation marks, a number or a symbol from the text of a bare token. A match
of another rule stands for no expression.
-/

namespace AtomLines.SExpr

/-- The rules of the grammar; the last one matches where a text ends. -/
inductive Rule where
  | whitespace
  | comment
  | document
  | expr
  | list
  | string
  | inner
  | atom
  | endOfText
deriving DecidableEq, Repr

def Rule.name : Rule → String
  | whitespace => "WHITESPACE"
  | comment => "COMMENT"
  | document => "document"
  | expr => "expr"
  | list => "list"
  | string => "string"
  | inner => "inner"
  | atom => "atom"
  | endOfText => "EOI"

inductive Match where
  | of (rule : Rule) (text : List Char) (inside : List Match)

namespace Match

def rule : Match → Rule
  | of r _ _ => r

def text : Match → List Char
  | of _ t _ => t

def inside : Match → List Match
  | of _ _ ms => ms

end Match

/-- Why a match stands for no expression. -/
inductive BuildError where
  | inString (e : ReadError)
  | unexpected (rule : Rule)
deriving DecidableEq, Repr

def BuildError.message : BuildError → String
  | inString e => e.message
  | unexpected rule => "Parse error: unexpected token " ++ rule.name

mutual

def build : Match → Except BuildError SExpr
  | .of .list _ inside => (buildAll inside).map list
  | .of .string _ inside =>
    let raw := (inside.head?.map Match.text).getD []
    ((unescape (String.ofList raw)).map string).mapError .inString
  | .of .atom text _ => .ok (ofBare text)
  | .of rule _ _ => .error (.unexpected rule)

/-- Expressions up to the first match that stands for none. -/
def buildAll : List Match → Except BuildError (List SExpr)
  | [] => .ok []
  | m :: ms => do
    let e ← build m
    let es ← buildAll ms
    return e :: es

end

/-- The expressions of a whole text. -/
def buildDocument (document : Match) : Except BuildError (List SExpr) :=
  buildAll (document.inside.filter (·.rule ≠ .endOfText))

end AtomLines.SExpr
