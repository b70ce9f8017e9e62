/-!
# Source texts with places

Indentation decides what belongs together, and a key has to fit on one line, so
each character carries its place. A source ends with a spot of its own, because
the end of a text has a place too.
-/

namespace AtomLines.Yaml

structure Spot where
  char : Char
  /-- How many characters stand before. -/
  index : Nat
  line : Nat
  column : Nat
deriving DecidableEq, Repr

abbrev Source := List Spot

/-! ## Characters -/

/-- Texts hold no control characters but tabs and line ends. -/
def isAllowed (c : Char) : Bool :=
  let n := c.toNat
  n = 0x9 || n = 0xA || n = 0xD || (0x20 ≤ n && n ≤ 0x7E) || n = 0x85 || (0xA0 ≤ n && n ≤ 0xD7FF) ||
  (0xE000 ≤ n && n ≤ 0xFFFD) || 0x10000 ≤ n

/-- Line ends that a scalar keeps as they are; all others become line feeds. -/
def isSeparator (c : Char) : Bool := c = '\u2028' || c = '\u2029'

def isLineEnd (c : Char) : Bool := c = '\n' || c = '\r' || c = '\x85' || isSeparator c

/-- Stands for the end of a text, in which it is not allowed. -/
def endMark : Char := '\x00'

def byteOrderMark : Char := '\ufeff'

/-- Letters, digits, the hyphen and the underscore. -/
def isWordChar (c : Char) : Bool := c.isAlphanum || c = '-' || c = '_'

namespace Spot

/-- A space or a tab. -/
def isBlank (s : Spot) : Bool := s.char = ' ' || s.char = '\t'

def isBreak (s : Spot) : Bool := s.char = '\n' || isSeparator s.char

def isSpace (s : Spot) : Bool := s.isBlank || s.isBreak

def isEnd (s : Spot) : Bool := s.char = endMark

/-- The end of the text or of a line. -/
def endsLine (s : Spot) : Bool := s.isBreak || s.isEnd

/-- A byte order mark that begins a line. -/
def isLineMark (s : Spot) : Bool := s.column = 0 && s.char = byteOrderMark

end Spot

/-! ## Places -/

def placeFrom (index line column : Nat) : List Char → Source
  | [] => [⟨endMark, index, line, column⟩]
  | '\r' :: '\n' :: rest => ⟨'\n', index, line, column⟩ :: placeFrom (index + 2) (line + 1) 0 rest
  | c :: rest =>
    if isLineEnd c then
      ⟨if isSeparator c then c else '\n', index, line, column⟩ :: placeFrom (index + 1) (line + 1) 0 rest
    else ⟨c, index, line, column⟩ :: placeFrom (index + 1) line (column + 1) rest

def Source.ofChars (cs : List Char) : Source := placeFrom 0 0 0 cs

/-! ## What comes next -/

/-- A blank, a line end or the end of the text. -/
def startsBlank : Source → Bool
  | [] => true
  | s :: _ => s.isSpace || s.isEnd

def startsWith (c : Char) : Source → Bool
  | [] => false
  | s :: _ => s.char = c

/-- Three marks at the start of a line, on their own. -/
def atMarker (mark : Char) : Source → Bool
  | a :: b :: c :: rest =>
    a.column = 0 && a.char = mark && b.char = mark && c.char = mark && startsBlank rest
  | _ => false

/-- The marker of the start or of the end of a document. -/
def atDocumentMarker (src : Source) : Bool :=
  atMarker '-' src || atMarker '.' src

/-- The characters up to the first spot that stops, and the source from there. -/
def span (stops : Spot → Bool) (src : Source) : List Char × Source :=
  ((src.takeWhile (!stops ·)).map Spot.char, src.dropWhile (!stops ·))

def skipBlanks (src : Source) : Source := src.dropWhile Spot.isBlank

/-- What follows blanks and a comment at the end of a line, behind the line end;
nothing where anything else stands. -/
def afterLine? (src : Source) : Option Source :=
  let rest := skipBlanks src
  let rest := if startsWith '#' rest then (span Spot.endsLine rest).2 else rest
  match rest with
  | s :: after => if s.isBreak then some after else if s.isEnd then some rest else none
  | [] => some []

end AtomLines.Yaml
