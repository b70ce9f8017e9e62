/-!
# Lines of a text

A line ends at a line feed. `pieces` cuts there and loses nothing but the line
feeds; `lines` forgets an empty rest and the carriage return before a line feed.
`Place` is where a reader stopped, in the words of a message.
-/

namespace AtomLines.Text

/-- The text before the first line feed, and the texts after each line feed. -/
def pieces : List Char → List Char × List (List Char)
  | [] => ([], [])
  | c :: rest =>
    let (first, more) := pieces rest
    if c = '\n' then ([], first :: more) else (c :: first, more)

def dropReturn (line : List Char) : List Char :=
  if line.getLast? = some '\r' then line.dropLast else line

/-- Ended lines lose one carriage return; a rest without line feed is kept as it
is unless it is empty. -/
def endedLines (first : List Char) : List (List Char) → List (List Char)
  | [] => if first = [] then [] else [first]
  | second :: more => dropReturn first :: endedLines second more

def lines (cs : List Char) : List (List Char) :=
  let (first, more) := pieces cs
  endedLines first more

/-! ## Places -/

/-- A position counted from one, with the line that holds it. -/
structure Place where
  line : Nat
  column : Nat
  source : List Char
deriving DecidableEq, Repr

/-- The place after the first `offset` characters of a text. -/
def Place.after (cs : List Char) (offset : Nat) : Place :=
  let before := cs.take offset
  let start := (before.reverse.takeWhile (· ≠ '\n')).reverse
  let finish := (cs.drop offset).takeWhile (· ≠ '\n')
  { line := before.count '\n' + 1
    column := start.length + 1
    source := (start ++ finish).filter (· ≠ '\r') }

/-- The line under a margin of its number, a marker below the column, and what
was expected there. -/
def Place.excerpt (p : Place) (expected : String) : String :=
  let number := toString p.line
  let margin := String.ofList (List.replicate number.length ' ')
  let pad := (p.source.take (p.column - 1)).map fun c => if c = '\t' then '\t' else ' '
  margin ++ "--> " ++ number ++ ":" ++ toString p.column ++ "\n" ++
    margin ++ " |\n" ++
    number ++ " | " ++ String.ofList p.source ++ "\n" ++
    margin ++ " | " ++ String.ofList pad ++ "^---\n" ++
    margin ++ " |\n" ++
    margin ++ " = expected " ++ expected

end AtomLines.Text
