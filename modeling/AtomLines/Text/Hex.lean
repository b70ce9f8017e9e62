/-!
# Hexadecimal numbers

Digits are written in lower case and read in either.
-/

namespace AtomLines.Text

def hexDigits (n : Nat) : List Char :=
  Nat.toDigits 16 n

/-- The digits after as many zeros as it takes to fill the width. -/
def hexPadded (width n : Nat) : List Char :=
  let ds := hexDigits n
  List.replicate (width - ds.length) '0' ++ ds

def isHex (c : Char) : Bool :=
  c.isDigit || ('a' ≤ c && c ≤ 'f') || ('A' ≤ c && c ≤ 'F')

def hexValue? (c : Char) : Option Nat :=
  if c.isDigit then some (c.toNat - '0'.toNat)
  else if 'a' ≤ c ∧ c ≤ 'f' then some (c.toNat - 'a'.toNat + 10)
  else if 'A' ≤ c ∧ c ≤ 'F' then some (c.toNat - 'A'.toNat + 10)
  else none

/-- The value of a run of digits. -/
def hexRun? (cs : List Char) : Option Nat :=
  cs.foldl (fun n c => n.bind fun n => (hexValue? c).map fun d => n * 16 + d) (some 0)

/-- The character of a run of digits, if the code point has one. -/
def hexChar? (digits : List Char) : Option Char := do
  let n ← hexRun? digits
  if n.isValidChar then some (Char.ofNat n) else none

end AtomLines.Text
