import AtomLines.Yaml.BlockScalar
import AtomLines.Yaml.Outline
import AtomLines.Yaml.Scalar
import AtomLines.Yaml.Tag
/-!
# Tokens of a text

Each step skips the space before a token, closes the blocks that end there, and
reads the token. Nothing comes out of a text that is wrong somewhere.
-/

namespace AtomLines.Yaml

/-- Skips space and comments, and the byte order mark that may begin a line. A
new line may begin with a key, outside of brackets; a tab is not skipped where a
key could begin. -/
def skipSpace (inBrackets : Bool) : (keyAllowed inComment : Bool) → Source → Bool × Source
  | keyAllowed, _, [] => (keyAllowed, [])
  | keyAllowed, inComment, s :: rest =>
    if s.isBreak then skipSpace inBrackets (keyAllowed || !inBrackets) false rest
    else if s.isEnd then (keyAllowed, s :: rest)
    else if inComment || s.isLineMark || s.char = ' ' || (s.char = '\t' && (inBrackets || !keyAllowed)) then
      skipSpace inBrackets keyAllowed inComment rest
    else if s.char = '#' then skipSpace inBrackets keyAllowed true rest
    else (keyAllowed, s :: rest)

namespace Outline

/-! ## Tokens without text -/

/-- A token of so many characters. -/
def take (length : Nat) (t : Token) (o : Outline) : Outline :=
  (o.moveTo (o.rest.drop length)).emit t

def marker (t : Token) (o : Outline) : Option Outline := do
  let o ← o.closeAllBlocks.dropKeyStart
  return (o.allowKey false).take 3 t

def opening (t : Token) (o : Outline) : Option Outline := do
  let o ← o.holdKeyStart
  return (o.openBrackets.allowKey true).take 1 t

def closing (t : Token) (o : Outline) : Option Outline := do
  let o ← o.dropKeyStart
  return (o.closeBrackets.allowKey false).take 1 t

def comma (o : Outline) : Option Outline := do
  let o ← o.dropKeyStart
  return (o.allowKey true).take 1 .comma

/-- Opens a block of its own for a token outside of brackets, where one may begin. -/
def beginBlock (column : Nat) (t : Token) (o : Outline) : Option Outline :=
  if o.inBrackets then some o
  else if o.keyAllowed then some (o.openBlock column o.tokens.length t)
  else none

def dash (column : Nat) (o : Outline) : Option Outline := do
  let o ← o.beginBlock column .openSequence
  let o ← o.dropKeyStart
  return (o.allowKey true).take 1 .dash

def questionMark (column : Nat) (o : Outline) : Option Outline := do
  let o ← o.beginBlock column .openMapping
  let o ← o.dropKeyStart
  return (o.allowKey (!o.inBrackets)).take 1 .key

/-- A colon makes a key of what began at the place that is held. -/
def colon (column : Nat) (o : Outline) : Option Outline :=
  match o.keyStart with
  | some k =>
    let o := (o.insertAt k.before .key).openBlock k.spot.column k.before .openMapping
    some ((({ o with keyStart := none }).allowKey false).take 1 .value)
  | none => do
    let o ← o.beginBlock column .openMapping
    return (o.allowKey (!o.inBrackets)).take 1 .value

/-! ## Tokens with text -/

def directive (rest : Source) (o : Outline) : Option Outline := do
  let o ← o.closeAllBlocks.dropKeyStart
  let (t, rest) ← readDirective rest
  return ((o.allowKey false).moveTo rest).emit t

/-- A token that a key may begin with. -/
def content (f : Option (Token × Source)) (o : Outline) : Option Outline := do
  let o ← o.holdKeyStart
  let (t, rest) ← f
  return ((o.allowKey false).moveTo rest).emit t

def name (make : String → Token) (rest : Source) (o : Outline) : Option Outline :=
  o.content ((readName rest).map fun (s, after) => (make s, after))

def quoted (style : Style) (scanned : Scanned) (o : Outline) : Option Outline :=
  o.content (scanned.map fun (text, after) => (.scalar style (String.ofList text), after))

/-- A line that ends after a plain scalar lets a key begin. -/
def plain (o : Outline) : Option Outline := do
  let o ← o.holdKeyStart
  let (text, newLine, rest) ← readPlain o.inBrackets o.least .none o.rest
  return ((o.allowKey newLine).moveTo rest).emit (.scalar .plain (String.ofList text))

def block (style : Style) (rest : Source) (o : Outline) : Option Outline := do
  let o ← o.dropKeyStart
  let (text, rest) ← readBlockScalar (style = .folded) o.least rest
  return ((o.allowKey true).moveTo rest).emit (.scalar style (String.ofList text))

/-! ## All tokens -/

/-- Reads the token that begins at a spot. -/
def token (s : Spot) (rest : Source) (o : Outline) : Option Outline :=
  let alone := startsBlank rest
  if s.column = 0 && s.char = '%' then o.directive rest
  else if atMarker '-' (s :: rest) then o.marker .documentStart
  else if atMarker '.' (s :: rest) then o.marker .documentEnd
  else if s.char = '[' then o.opening .openBracket
  else if s.char = '\x7b' then o.opening .openBrace
  else if s.char = ']' then o.closing .closeBracket
  else if s.char = '\x7d' then o.closing .closeBrace
  else if s.char = ',' then o.comma
  else if s.char = '-' && alone then o.dash s.column
  else if s.char = '?' && (o.inBrackets || alone) then o.questionMark s.column
  else if s.char = ':' && (o.inBrackets || alone) then o.colon s.column
  else if s.char = '*' then o.name .reference rest
  else if s.char = '&' then o.name .anchor rest
  else if s.char = '!' then o.content (readTag o.inBrackets (s :: rest))
  else if s.char = '|' && !o.inBrackets then o.block .literal rest
  else if s.char = '>' && !o.inBrackets then o.block .folded rest
  else if s.char = '\'' then o.quoted .single (readSingle .none rest)
  else if s.char = '"' then o.quoted .double (readDouble .none rest)
  else if startsPlain o.inBrackets (s :: rest) then o.plain
  else none

/-- The state before the next token: space skipped and blocks closed. -/
def advance (o : Outline) : Option Outline :=
  let (keyAllowed, rest) := skipSpace o.inBrackets o.keyAllowed false o.rest
  ((o.allowKey keyAllowed).moveTo rest).forgetKeyStarts

/-- Reads all tokens, at most as many as the fuel. -/
def run : (fuel : Nat) → Outline → Option (List Token)
  | 0, _ => none
  | fuel + 1, o => do
    let o ← o.advance
    match o.rest with
    | [] => return (← o.closeAllBlocks.dropKeyStart).tokens.reverse
    | s :: rest =>
      if s.isEnd then return (← o.closeAllBlocks.dropKeyStart).tokens.reverse
      else run fuel (← (o.closeBlocks s.column).token s rest)

end Outline

/-- The tokens of a text, unless it is wrong. -/
def tokens? (cs : List Char) : Option (List Token) :=
  if cs.all isAllowed then Outline.run (cs.length + 2) (.ofSource (.ofChars cs)) else none

end AtomLines.Yaml
