import AtomLines.Yaml.Scalar
import AtomLines.Yaml.Word
/-!
# Writing YAML scalars

A text is written plain where a plain scalar stands for that text and for nothing
else, and otherwise in apostrophes. A text with line feeds is a literal scalar.
Quotation marks are left for texts that cannot stand in a document as they are.
-/

namespace AtomLines.Yaml

/-! ## Texts -/

/-- Has to be escaped. -/
def isSpecial (c : Char) : Bool :=
  !isAllowed c || c = '\t' || c = '\r' || c = '\x85' || c = byteOrderMark

def isKeptBreak (c : Char) : Bool := c = '\n' || isSeparator c

/-- One character that the first test allows, and then one for the second. -/
def hasPair (first second : Char → Bool) : List Char → Bool
  | a :: b :: rest => (first a && second b) || hasPair first second (b :: rest)
  | _ => false

def isSpaceChar (c : Char) : Bool := c = ' '

/-- A space before a line end, which no scalar on several lines shows. -/
def hidesSpace (cs : List Char) : Bool := hasPair isSpaceChar isKeptBreak cs

/-- A colon before a space or at the end, or a number sign after a space. -/
def hasStructure (cs : List Char) : Bool :=
  hasPair (· = ':') isSpaceChar cs || cs.getLast? = some ':' || hasPair isSpaceChar (· = '#') cs

def startsAsMarker (cs : List Char) : Bool :=
  cs.take 3 = ['-', '-', '-'] || cs.take 3 = ['.', '.', '.']

/-- Outside of brackets, the text is one plain scalar to its last character. -/
def isPlainText (cs : List Char) : Bool :=
  startsPlain false (placeFrom 0 0 0 cs) && !startsAsMarker cs && !hasStructure cs &&
    !cs.any isKeptBreak && cs.head? ≠ some ' ' && cs.getLast? ≠ some ' '

/-! ## Quoted scalars -/

/-- The letter of a single escape. -/
def escapeLetter? : Char → Option Char
  | '\x00' => some '0'
  | '\x07' => some 'a'
  | '\x08' => some 'b'
  | '\t' => some 't'
  | '\n' => some 'n'
  | '\x0b' => some 'v'
  | '\x0c' => some 'f'
  | '\r' => some 'r'
  | '\x1b' => some 'e'
  | '"' => some '"'
  | '\\' => some '\\'
  | '\x85' => some 'N'
  | '\u2028' => some 'L'
  | '\u2029' => some 'P'
  | _ => none

/-- An escape by the code point, as short as it can be. -/
def numericEscape (n : Nat) : List Char :=
  let (letter, width) := if n ≤ 0xFF then ('x', 2) else if n ≤ 0xFFFF then ('u', 4) else ('U', 8)
  '\\' :: letter :: (Text.hexPadded width n).map Char.toUpper

def doubleChar (c : Char) : List Char :=
  match escapeLetter? c with
  | some letter => ['\\', letter]
  | none => if isSpecial c then numericEscape c.toNat else [c]

def doubleText (cs : List Char) : List Char :=
  '"' :: (cs.flatMap doubleChar ++ ['"'])

/-- The lines of a text with an indentation for each that is not empty, but not
for the first if it goes on from something else. -/
def indented (margin : List Char) : (lineStart : Bool) → List Char → List Char
  | _, [] => []
  | lineStart, c :: rest =>
    if isKeptBreak c then c :: indented margin true rest
    else (if lineStart then margin else []) ++ c :: indented margin false rest

def singleText (margin cs : List Char) : List Char :=
  '\'' :: indented margin false ((cs.flatMap fun c => if c = '\'' then [c, c] else [c]) ++ ['\''])

/-! ## Literal scalars -/

/-- The step of indentation. -/
def indentStep : Nat := 2

/-- What a reader has to know about the first and the last line. -/
def literalHints (cs : List Char) : List Char :=
  let startsUnclear := cs.head?.any fun c => c = ' ' || isKeptBreak c
  let chomping := match cs.reverse with
    | [] => ['-']
    | [c] => if isKeptBreak c then ['+'] else ['-']
    | c :: d :: _ => if !isKeptBreak c then ['-'] else if isKeptBreak d then ['+'] else []
  (if startsUnclear then Text.naturalDigits indentStep else []) ++ chomping

/-- A line ends after the text in any case. -/
def literalText (margin cs : List Char) : List Char :=
  let lineEnd := if cs.getLast?.any isKeptBreak then [] else ['\n']
  '|' :: (literalHints cs ++ '\n' :: (indented margin true cs ++ lineEnd))

/-! ## Any scalar -/

/-- A scalar that stands for the text, to the end of its line; its further lines
are indented by a margin. -/
def scalarLine (margin : Nat) (s : String) : String :=
  let cs := s.toList
  let margin := List.replicate margin ' '
  let special := cs.any isSpecial
  if cs.contains '\n' && !special && !hidesSpace cs && cs.getLast? ≠ some ' ' then
    String.ofList (literalText margin cs)
  else if special || cs.contains '\n' || hidesSpace cs || hasPair isKeptBreak isSpaceChar cs then
    String.ofList (doubleText cs ++ ['\n'])
  else if isWord s || !isPlainText cs then String.ofList (singleText margin cs ++ ['\n'])
  else s ++ "\n"

end AtomLines.Yaml
