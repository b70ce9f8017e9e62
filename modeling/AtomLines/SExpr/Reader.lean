import AtomLines.SExpr.Basic
import AtomLines.SExpr.Quoted
import AtomLines.SExpr.Token
import AtomLines.Text.Line
import AtomLines.Text.Visible
/-!
# Reading expressions

Tokens are folded into expressions with a stack of open lists. Reading fails at
a closing parenthesis without partner, at a quote that is never closed and at
the end of a text with an open list.
-/

namespace AtomLines.SExpr

/-! ## What a failing read says -/

/-- What could have stood where reading failed. -/
inductive Expected where
  /-- Nothing of the text was read. -/
  | document
  | topLevel
  | listItem
deriving DecidableEq, Repr

def Expected.phrase : Expected → String
  | document => "document"
  | topLevel => "EOI, list, string, or atom"
  | listItem => "list, string, or atom"

inductive ReadError where
  | unreadable (place : Text.Place) (expected : Expected)
  | danglingEscape (text : String)
deriving DecidableEq, Repr

def ReadError.message : ReadError → String
  | unreadable place expected => "Parse error: " ++ place.excerpt expected.phrase
  | danglingEscape text => "Dangling escape at end of string: " ++ Text.visible text

/-- The error of reading `cs` that stopped before its end `stop`. -/
def ReadError.stopped (cs stop : List Char) (expected : Expected) : ReadError :=
  let offset := cs.length - stop.length
  unreadable (Text.Place.after cs offset) (if offset = 0 then .document else expected)

/-! ## Strings and bare tokens -/

/-- The string whose escaped text is `text`. -/
def unescape (text : String) : Except ReadError String :=
  match unescape? text.toList with
  | some cs => .ok (String.ofList cs)
  | none => .error (.danglingEscape text)

/-- A bare token is a number exactly if it is a numeral. -/
def ofBare (text : List Char) : SExpr :=
  if Text.isNumeral text then number (String.ofList text) else symbol (String.ofList text)

/-! ## Lists -/

/-- The items read so far of the innermost open list and of those around it, the
last item first. -/
structure Nest where
  items : List SExpr
  outer : List (List SExpr)

namespace Nest

def empty : Nest := ⟨[], []⟩

def push (n : Nest) (e : SExpr) : Nest :=
  { n with items := e :: n.items }

def open_ (n : Nest) : Nest :=
  ⟨[], n.items :: n.outer⟩

/-- Nothing is returned where no list is open. -/
def close? (n : Nest) : Option Nest :=
  match n.outer with
  | [] => none
  | around :: outer => some ⟨list n.items.reverse :: around, outer⟩

def expected (n : Nest) : Expected :=
  if n.outer = [] then .topLevel else .listItem

end Nest

/-- Expressions from tokens; the error keeps the text at which reading stopped. -/
def assemble (stop : List Char) : List (Token × List Char) → Nest →
    Except (List Char × Expected ⊕ ReadError) (List SExpr)
  | [], n =>
    if n.outer = [] ∧ stop = [] then .ok n.items.reverse else .error (.inl (stop, n.expected))
  | (.opening, _) :: ts, n => assemble stop ts n.open_
  | (.closing, here) :: ts, n =>
    match n.close? with
    | some m => assemble stop ts m
    | none => .error (.inl (here, n.expected))
  | (.quoted body, _) :: ts, n =>
    match unescape (String.ofList body) with
    | .ok s => assemble stop ts (n.push (string s))
    | .error e => .error (.inr e)
  | (.bare text, _) :: ts, n => assemble stop ts (n.push (ofBare text))

/-- The expressions of a text. -/
def readChars (cs : List Char) : Except ReadError (List SExpr) :=
  let ts := tokens cs
  match assemble ts.stop ts.placed .empty with
  | .ok es => .ok es
  | .error (.inl (stop, expected)) => .error (.stopped cs stop expected)
  | .error (.inr e) => .error e

def read (text : String) : Except ReadError (List SExpr) :=
  readChars text.toList

end AtomLines.SExpr
