import AtomLines.Text.Hex
import AtomLines.Yaml.Source
/-!
# Plain and quoted scalars

Plain scalars end where the structure around them goes on; quoted ones end at
their mark. A scalar may run over several lines: one line end between words is a
space, and of more of them the first is dropped.
-/

namespace AtomLines.Yaml

/-! ## Space inside a scalar -/

/-- Space that belongs to a scalar if the scalar goes on. -/
inductive Pending where
  | blanks (cs : List Char)
  | lines (first : Char) (more : List Char)
  /-- Line ends after one that was escaped. -/
  | joined (more : List Char)
deriving DecidableEq, Repr

namespace Pending

def none : Pending := .blanks []

def chars : Pending → List Char
  | blanks cs => cs
  | lines '\n' [] => [' ']
  | lines '\n' more => more
  | lines first more => first :: more
  | joined more => more

/-- A line has ended. -/
def brokeLine : Pending → Bool
  | blanks _ => false
  | _ => true

/-- Blanks at the start of a line do not count. -/
def next (p : Pending) (s : Spot) : Pending :=
  match p with
  | blanks cs => if s.isBreak then .lines s.char [] else .blanks (cs ++ [s.char])
  | lines first more => if s.isBreak then .lines first (more ++ [s.char]) else p
  | joined more => if s.isBreak then .joined (more ++ [s.char]) else p

end Pending

/-! ## Plain scalars -/

def isFlowIndicator (c : Char) : Bool :=
  c = ',' || c = '[' || c = ']' || c = '\x7b' || c = '\x7d'

/-- The characters that start no plain scalar. -/
def isIndicator (c : Char) : Bool :=
  isFlowIndicator c || "-?:#&*!|>'\"%@`\t".toList.contains c

def startsPlain (inBrackets : Bool) : Source → Bool
  | [] => false
  | s :: rest =>
    (!isIndicator s.char && !s.isSpace && !s.isEnd) || (s.char = '-' && !startsBlank rest) ||
      (!inBrackets && (s.char = '?' || s.char = ':') && !startsBlank rest)

/-- A character of a plain scalar that ends it, in brackets or not. -/
def endsPlain (inBrackets : Bool) (s : Spot) (rest : Source) : Bool :=
  s.isEnd || (s.char = ':' && startsBlank rest) || (inBrackets && isFlowIndicator s.char)

/-- After space no word of a plain scalar starts here. Outside of brackets it has
to stand at column `least` or later. -/
def startsNoWord (inBrackets : Bool) (least : Nat) (s : Spot) (rest : Source) : Bool :=
  atDocumentMarker (s :: rest) || s.char = '#' || (!inBrackets && s.column < least)

/-- In brackets a colon has to be told apart from what follows it. -/
def isCrowded (inBrackets : Bool) (s : Spot) (rest : Source) : Bool :=
  inBrackets && s.char = ':' && rest.head?.any fun t => t.char = '?' || isFlowIndicator t.char

/-- A plain scalar with the space after it: its text, whether a line ended in
that space, and what follows. A tab is no indentation. -/
def readPlain (inBrackets : Bool) (least : Nat) (p : Pending) :
    Source → Option (List Char × Bool × Source)
  | [] => some ([], p.brokeLine, [])
  | s :: rest =>
    if s.isSpace then
      if p.brokeLine && s.char = '\t' && s.column < least then none
      else readPlain inBrackets least (p.next s) rest
    else if p ≠ .none && startsNoWord inBrackets least s rest then some ([], p.brokeLine, s :: rest)
    else if isCrowded inBrackets s rest then none
    else if endsPlain inBrackets s rest then some ([], p.brokeLine, s :: rest)
    else
      (readPlain inBrackets least .none rest).map fun (text, after) => (p.chars ++ s.char :: text, after)

/-! ## Quoted scalars -/

/-- A scalar's text and what follows it. -/
abbrev Scanned := Option (List Char × Source)

def Scanned.before (cs : List Char) (s : Scanned) : Scanned :=
  s.map fun (text, rest) => (cs ++ text, rest)

/-- A quoted scalar may not run to the end of the text, or of the document. -/
def breaksOff (src : Source) : Bool :=
  atDocumentMarker src || src.head?.all Spot.isEnd

/-- The rest of a scalar in apostrophes; two of them stand for one. -/
def readSingle (p : Pending) : Source → Scanned
  | [] => none
  | ⟨'\'', _, _, _⟩ :: ⟨'\'', _, _, _⟩ :: rest => (readSingle .none rest).before (p.chars ++ ['\''])
  | s :: rest =>
    if breaksOff (s :: rest) then none
    else if s.char = '\'' then some (p.chars, rest)
    else if s.isSpace then readSingle (p.next s) rest
    else (readSingle .none rest).before (p.chars ++ [s.char])

/-- The character of a single escape letter. -/
def plainEscape? : Char → Option Char
  | '0' => some '\x00'
  | 'a' => some '\x07'
  | 'b' => some '\x08'
  | 't' | '\t' => some '\t'
  | 'n' => some '\n'
  | 'v' => some '\x0b'
  | 'f' => some '\x0c'
  | 'r' => some '\r'
  | 'e' => some '\x1b'
  | ' ' => some ' '
  | '"' => some '"'
  | '/' => some '/'
  | '\\' => some '\\'
  | 'N' => some '\x85'
  | '_' => some '\xa0'
  | 'L' => some '\u2028'
  | 'P' => some '\u2029'
  | _ => none

/-- The rest of a scalar in quotation marks. A backslash at the end of a line
joins the lines. -/
def readDouble (p : Pending) : Source → Scanned
  | [] => none
  | ⟨'\\', _, _, _⟩ :: ⟨'x', _, _, _⟩ :: a :: b :: rest => do
    let c ← Text.hexChar? ([a, b].map Spot.char)
    (readDouble .none rest).before (p.chars ++ [c])
  | ⟨'\\', _, _, _⟩ :: ⟨'u', _, _, _⟩ :: a :: b :: c :: d :: rest => do
    let c ← Text.hexChar? ([a, b, c, d].map Spot.char)
    (readDouble .none rest).before (p.chars ++ [c])
  | ⟨'\\', _, _, _⟩ :: ⟨'U', _, _, _⟩ :: a :: b :: c :: d :: e :: f :: g :: h :: rest => do
    let c ← Text.hexChar? ([a, b, c, d, e, f, g, h].map Spot.char)
    (readDouble .none rest).before (p.chars ++ [c])
  | ⟨'\\', _, _, _⟩ :: e :: rest =>
    if e.isBreak then (readDouble (.joined []) rest).before p.chars
    else do
      let c ← plainEscape? e.char
      (readDouble .none rest).before (p.chars ++ [c])
  | s :: rest =>
    if breaksOff (s :: rest) then none
    else if s.char = '"' then some (p.chars, rest)
    else if s.isSpace then readDouble (p.next s) rest
    else (readDouble .none rest).before (p.chars ++ [s.char])

end AtomLines.Yaml
