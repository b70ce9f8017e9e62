import AtomLines.Text.Hex
/-!
# Addresses in brackets

A host in square brackets is an IPv6 address, or an address of a later version:
`v`, a hexadecimal version, a point and the address itself.
-/

namespace AtomLines.Rdf

/-- Letters, digits and `- . _ ~`. -/
def isUnreserved (c : Char) : Bool :=
  c.isAlphanum || c = '-' || c = '.' || c = '_' || c = '~'

def isSubDelimiter (c : Char) : Bool :=
  "!$&'()*+,;=".toList.contains c

namespace Address

/-- One to four hexadecimal digits, all of a run; returns what follows. -/
def group? (cs : List Char) : Option (List Char) :=
  let run := cs.takeWhile Text.isHex
  if run = [] ∨ 4 < run.length then none else some (cs.dropWhile Text.isHex)

/-- A decimal number up to 255 without leading zeros; returns what follows. -/
def byte? (cs : List Char) : Option (List Char) :=
  let run := cs.takeWhile Char.isDigit
  let value := run.foldl (fun n c => n * 10 + (c.toNat - '0'.toNat)) 0
  if run = [] ∨ 3 < run.length ∨ 255 < value ∨ (run.head? = some '0' ∧ run.length ≠ 1) then none
  else some (cs.dropWhile Char.isDigit)

def after? (c : Char) : List Char → Option (List Char)
  | [] => none
  | d :: rest => if d = c then some rest else none

/-- Four bytes separated by points; returns what follows. -/
def version4? (cs : List Char) : Option (List Char) := do
  let cs ← after? '.' (← byte? cs)
  let cs ← after? '.' (← byte? cs)
  let cs ← after? '.' (← byte? cs)
  byte? cs

/-- How many 16-bit groups stand at the front of a text, at most `room`; whether
the last two are written as four bytes; and what follows. -/
def groups (first : Bool) : (room : Nat) → List Char → Nat × Bool × List Char
  | 0, cs => (0, false, cs)
  | room + 1, cs =>
    let start := if first then some cs else after? ':' cs
    match if room = 0 then none else start.bind version4? with
    | some rest => (2, true, rest)
    | none =>
      match start.bind group? with
      | some rest =>
        let (n, bytes, rest) := groups false room rest
        (n + 1, bytes, rest)
      | none => (0, false, cs)

/-- Eight groups, of which `::` stands for a run of one or more. -/
def isVersion6 (cs : List Char) : Bool :=
  let (front, bytes, rest) := groups true 8 cs
  if front = 8 then rest = []
  else if bytes then false
  else
    match rest with
    | ':' :: ':' :: rest =>
      let (_, _, rest) := groups true (7 - front) rest
      rest = []
    | _ => false

/-- The character at which an address of a later version goes wrong, the closing
bracket where something is missing. -/
def futureProblem? (cs : List Char) : Option Char :=
  let version := cs.takeWhile (· ≠ '.')
  match version.find? (!Text.isHex ·) with
  | some c => some c
  | none =>
    match (cs.dropWhile (· ≠ '.')).drop 1 with
    | [] => some ']'
    | c :: rest =>
      if version = [] then some c
      else (c :: rest).find? fun c => !(isUnreserved c || isSubDelimiter c || c = ':')

end Address

end AtomLines.Rdf
