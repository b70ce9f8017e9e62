import AtomLines.Yaml.Source
/-!
# Block scalars

A block scalar takes its lines as they stand, without their indentation. A folded
one joins lines of text by spaces; a literal one keeps all line ends. What becomes
of the line ends after the last line is up to the header.
-/

namespace AtomLines.Yaml

/-- What is kept of the line ends after the last line. -/
inductive Chomping where
  | strip
  /-- The end of the last line. -/
  | clip
  | keep
deriving DecidableEq, Repr

/-- What stands on the line of the indicator. -/
structure BlockHeader where
  chomping : Chomping
  /-- The indentation, counted from that around the scalar, if it is given. -/
  increment : Option Nat
deriving DecidableEq, Repr

def chompingMark? : Source → Option (Chomping × Source)
  | ⟨'+', _, _, _⟩ :: rest => some (.keep, rest)
  | ⟨'-', _, _, _⟩ :: rest => some (.strip, rest)
  | _ => none

/-- A digit of indentation, which is not zero; nothing where it is zero. -/
def incrementDigit? (src : Source) : Option (Option Nat × Source) :=
  match src with
  | s :: rest =>
    if s.char = '0' then none
    else if s.char.isDigit then some (some (s.char.toNat - '0'.toNat), rest)
    else some (none, src)
  | [] => some (none, [])

/-- A header in either order of its parts, and the lines after it. -/
def readHeader (src : Source) : Option (BlockHeader × Source) := do
  match chompingMark? src with
  | some (chomping, rest) =>
    let (increment, rest) ← incrementDigit? rest
    return (⟨chomping, increment⟩, ← afterLine? rest)
  | none =>
    let (increment, rest) ← incrementDigit? src
    let (chomping, rest) :=
      if increment.isNone then (Chomping.clip, rest) else (chompingMark? rest).getD (.clip, rest)
    return (⟨chomping, increment⟩, ← afterLine? rest)

/-- Skips indentation and takes the ends of empty lines; returns these, the
deepest column that was reached, and what follows. A tab is no indentation.
Without an indentation all spaces are skipped. -/
def emptyLines (indent : Option Nat) (deepest : Nat) : Source → Option (List Char × Nat × Source)
  | [] => some ([], deepest, [])
  | s :: rest =>
    let isIndentation := indent.all fun n => s.column < n
    if s.char = ' ' && isIndentation then emptyLines indent deepest rest
    else
      let deepest := max deepest s.column
      if s.char = '\t' && isIndentation then none
      else if s.isBreak then
        (emptyLines indent deepest rest).map fun (breaks, after) => (s.char :: breaks, after)
      else some ([], deepest, s :: rest)

/-- The text between two lines: the end of the first, and of the empty lines
after it. A folded scalar puts a space where two lines of text meet. -/
def joint (folded : Bool) (lineEnd breaks : List Char) (blankBefore blankAfter : Bool) : List Char :=
  if folded && lineEnd = ['\n'] && !blankBefore && !blankAfter then
    if breaks = [] then [' '] else breaks
  else lineEnd ++ breaks

/-- The lines at an indentation, at most as many as the fuel; `lineEnd` and
`breaks` come before them. -/
def readLines (folded : Bool) (chomping : Chomping) (indent : Nat) :
    (fuel : Nat) → (lineEnd breaks : List Char) → (blankBefore : Bool) → Source →
    Option (List Char × Source)
  | 0, _, _, _, _ => none
  | fuel + 1, lineEnd, breaks, blankBefore, src =>
    let tail := match chomping with
      | .strip => []
      | .clip => lineEnd
      | .keep => lineEnd ++ breaks
    match src with
    | [] => some (tail, [])
    | s :: _ =>
      if s.column ≠ indent || s.isEnd then some (tail, src)
      else do
        let (line, after) := span Spot.endsLine src
        let (lineEnd', after) := match after with
          | e :: after' => if e.isBreak then ([e.char], after') else ([], after)
          | [] => ([], [])
        let (breaks', _, after) ← emptyLines (some indent) 0 after
        let (text, rest) ← readLines folded chomping indent fuel lineEnd' breaks' s.isBlank after
        return (joint folded lineEnd breaks blankBefore s.isBlank ++ line ++ text, rest)

/-- A block scalar after its indicator; what stands around it is indented less
than column `least`. -/
def readBlockScalar (folded : Bool) (least : Nat) (src : Source) : Option (List Char × Source) := do
  let (header, rest) ← readHeader src
  let given := header.increment.map fun n => least - 1 + n
  let (breaks, deepest, rest) ← emptyLines given 0 rest
  readLines folded header.chomping (given.getD (max 1 (max least deepest))) (rest.length + 1) [] breaks
    false rest

end AtomLines.Yaml
