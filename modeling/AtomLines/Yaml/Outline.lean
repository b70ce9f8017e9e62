import AtomLines.Yaml.Source
import AtomLines.Yaml.Token
/-!
# Indentation and keys

Two things about a text show only later than they begin: a block ends where a
line is indented less, and a key is known by the colon after it. So the state of
reading holds the margins of the open blocks, and the places where a key may have
begun; the tokens for a block and a key are put in there once a colon comes.
-/

namespace AtomLines.Yaml

/-- A place where a key may have begun. -/
structure KeyStart where
  /-- Only a key can stand here. -/
  required : Bool
  /-- How many tokens come before. -/
  before : Nat
  spot : Spot
deriving DecidableEq, Repr

structure Outline where
  rest : Source
  /-- The last token first. -/
  tokens : List Token
  /-- The columns of the open blocks, the innermost first. -/
  margins : List Nat
  /-- A key may begin at the next token. -/
  keyAllowed : Bool
  keyStart : Option KeyStart
  /-- The same outside of each open bracket, the innermost first. -/
  outerStarts : List (Option KeyStart)

namespace Outline

def ofSource (src : Source) : Outline := ⟨src, [], [], true, none, []⟩

def inBrackets (o : Outline) : Bool := !o.outerStarts.isEmpty

/-- The least column of what is inside the innermost block. -/
def least (o : Outline) : Nat := (o.margins.head?.map (· + 1)).getD 0

def emit (t : Token) (o : Outline) : Outline := { o with tokens := t :: o.tokens }

def moveTo (rest : Source) (o : Outline) : Outline := { o with rest }

def allowKey (keyAllowed : Bool) (o : Outline) : Outline := { o with keyAllowed }

/-! ## Blocks -/

/-- Puts a token in behind the first `before` tokens. -/
def insertAt (before : Nat) (t : Token) (o : Outline) : Outline :=
  let later := o.tokens.length - before
  { o with tokens := o.tokens.take later ++ t :: o.tokens.drop later }

/-- Opens a block at a column that lies deeper than all open blocks. -/
def openBlock (column before : Nat) (t : Token) (o : Outline) : Outline :=
  if o.inBrackets || column < o.least then o
  else insertAt before t { o with margins := column :: o.margins }

/-- Closes the blocks whose margins lie deeper than a column. -/
def closeBlocks (column : Nat) (o : Outline) : Outline :=
  if o.inBrackets then o
  else
    let deeper := o.margins.takeWhile (column < ·)
    { o with
      margins := o.margins.drop deeper.length
      tokens := deeper.map (fun _ => Token.closeBlock) ++ o.tokens }

def closeAllBlocks (o : Outline) : Outline :=
  if o.inBrackets then o
  else { o with margins := [], tokens := o.margins.map (fun _ => Token.closeBlock) ++ o.tokens }

/-! ## Keys -/

/-- No key begins at the place that was held; nothing if one had to. -/
def dropKeyStart (o : Outline) : Option Outline :=
  if o.keyStart.any KeyStart.required then none else some { o with keyStart := none }

/-- Holds the place where a token begins, if a key may begin there. -/
def holdKeyStart (o : Outline) : Option Outline :=
  match o.keyAllowed, o.rest with
  | true, s :: _ => do
    let o ← o.dropKeyStart
    let required := !o.inBrackets && o.margins.head? = some s.column
    return { o with keyStart := some ⟨required, o.tokens.length, s⟩ }
  | _, _ => some o

/-- A key fits on one line and is not longer than this. -/
def maxKeyLength : Nat := 1024

def KeyStart.reaches (k : KeyStart) (s : Spot) : Bool :=
  k.spot.line = s.line && s.index ≤ k.spot.index + maxKeyLength

/-- The place, if a key that began there may still end at the spot; nothing if
one had to. -/
def stillHeld (s : Spot) : Option KeyStart → Option (Option KeyStart)
  | none => some none
  | some k => if KeyStart.reaches k s then some (some k) else if k.required then none else some none

/-- Forgets the places from which no key reaches the next token. -/
def forgetKeyStarts (o : Outline) : Option Outline :=
  match o.rest with
  | [] => some o
  | s :: _ => do
    let keyStart ← stillHeld s o.keyStart
    let outerStarts ← o.outerStarts.mapM (stillHeld s)
    return { o with keyStart, outerStarts }

/-! ## Brackets -/

def openBrackets (o : Outline) : Outline :=
  { o with keyStart := none, outerStarts := o.keyStart :: o.outerStarts }

def closeBrackets (o : Outline) : Outline :=
  match o.outerStarts with
  | [] => o
  | k :: outer => { o with keyStart := k, outerStarts := outer }

end Outline

end AtomLines.Yaml
