/-!
# Numerals

A numeral is the text of a JSON number: an optional minus sign, an integer
without leading zeros, an optional fraction and an optional exponent.
`naturalDigits` and `naturalValue` write and read plain decimal integers, and
reading undoes writing.
-/

namespace AtomLines.Text

/-! ## The grammar of numerals -/

/-- One digit or more and nothing else. -/
def isDigits : List Char → Bool
  | [] => false
  | c :: rest => c.isDigit && rest.all Char.isDigit

/-- Nothing, or an exponent mark with an optional sign and digits. -/
def isExponent : List Char → Bool
  | [] => true
  | e :: rest =>
    (e = 'e' || e = 'E') &&
      match rest with
      | '+' :: ds => isDigits ds
      | '-' :: ds => isDigits ds
      | ds => isDigits ds

/-- What may follow the integer of a numeral. -/
def isFraction : List Char → Bool
  | '.' :: d :: rest => d.isDigit && isExponent (rest.dropWhile Char.isDigit)
  | rest => isExponent rest

def isUnsignedNumeral : List Char → Bool
  | [] => false
  | '0' :: rest => isFraction rest
  | c :: rest => c.isDigit && isFraction (rest.dropWhile Char.isDigit)

def isNumeral : List Char → Bool
  | '-' :: rest => isUnsignedNumeral rest
  | cs => isUnsignedNumeral cs

/-! ## Decimal integers -/

def naturalDigits (n : Nat) : List Char :=
  Nat.toDigits 10 n

def naturalValue (cs : List Char) : Nat :=
  cs.foldl (fun n c => n * 10 + (c.toNat - '0'.toNat)) 0

/-- Indices, record numbers and graph ids are below this bound. -/
def indexBound : Nat := 1 <<< 64

/-- The index that a run of digits denotes, if it is below the bound. A plus sign may
stand before the digits. -/
def indexOf? (cs : List Char) : Option Nat :=
  let ds := if cs.head? = some '+' then cs.tail else cs
  if isDigits ds && naturalValue ds < indexBound then some (naturalValue ds) else none

/-- The text of an integer, with a minus sign where it is negative. -/
def integerDigits : Int → List Char
  | .ofNat n => naturalDigits n
  | .negSucc n => '-' :: naturalDigits (n + 1)

end AtomLines.Text
