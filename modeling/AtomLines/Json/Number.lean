import AtomLines.Number.Shortest
/-!
# JSON numbers

An integer that fits 64 bits is kept as it is; every other numeral becomes a
double. Reading a double is one operation on two doubles: the leading digits as
an integer, and a power of ten. Writing takes the shortest decimal that reads
back, in positional notation for exponents from -5 to 15.
-/

namespace AtomLines.Json

open AtomLines.Number (Binary64 Decimal)

inductive Number where
  | integer (value : Int)
  | double (value : Binary64)
deriving DecidableEq, Repr

namespace Number

/-- Equality of values; an integer is no double. -/
def same : Number → Number → Bool
  | integer a, integer b => a = b
  | double a, double b => a.same b
  | _, _ => false

/-! ## Reading -/

/-- Significands stay below this bound; digits that would leave it are dropped. -/
def significandBound : Nat := 1 <<< 64

/-- Appends digits to a significand up to the first that would leave the bound;
returns how many were appended. -/
def absorb (significand taken : Nat) : List Char → Nat × Nat
  | [] => (significand, taken)
  | d :: rest =>
    let next := significand * 10 + (d.toNat - '0'.toNat)
    if next < significandBound then absorb next (taken + 1) rest else (significand, taken)

/-- The largest power of ten that is a double. -/
def maxPower : Nat := 308

def exponentBound : Nat := 1 <<< 31

/-- `f * 10 ^ e`, or nothing where the result exceeds all doubles. A power below
the doubles is divided out in steps. -/
def scaleByPower (f : Binary64) (e : Int) : Option Binary64 :=
  if e.natAbs ≤ maxPower then
    (Binary64.ofNat? (Nat.pow 10 e.natAbs)).bind fun p => if 0 ≤ e then f.mul? p else f.div? p
  else if f.isZero then some f
  else if 0 ≤ e then none
  else
    (Binary64.ofNat? (Nat.pow 10 maxPower)).bind fun p =>
      (f.div? p).bind fun g => scaleByPower g (e + maxPower)
termination_by e.natAbs
decreasing_by simp only [maxPower] at *; omega

/-- The parts of a numeral without sign: integer digits, fraction digits, and the
exponent with its sign, where one is written. -/
structure Parts where
  whole : List Char
  fraction : Option (List Char)
  exponent : Option (Bool × List Char)

def Parts.ofNumeral (cs : List Char) : Parts :=
  let whole := cs.takeWhile Char.isDigit
  let (fraction, rest) :=
    match cs.dropWhile Char.isDigit with
    | '.' :: ds => (some (ds.takeWhile Char.isDigit), ds.dropWhile Char.isDigit)
    | rest => (none, rest)
  let exponent :=
    match rest with
    | [] => none
    | _ :: '-' :: ds => some (true, ds)
    | _ :: '+' :: ds => some (false, ds)
    | _ :: ds => some (false, ds)
  ⟨whole, fraction, exponent⟩

/-- The magnitude of a numeral, or nothing where it exceeds all doubles. -/
def Parts.magnitude? (p : Parts) : Option Binary64 :=
  let (whole, wholeTaken) := absorb 0 0 p.whole
  let (significand, taken) := absorb whole 0 (p.fraction.getD [])
  let shift : Int := (p.whole.length - wholeTaken : Nat) - taken
  let scaled (e : Int) : Option Binary64 :=
    (Binary64.ofNat? significand).bind fun f => scaleByPower f e
  match p.exponent with
  | none => scaled shift
  | some (negative, ds) =>
    let e := Text.naturalValue ds
    if e < exponentBound then scaled (if negative then shift - e else shift + e)
    else if significand = 0 || negative then some (.zero false)
    else none

/-- The number of a numeral, or nothing where it exceeds all doubles. -/
def ofNumeral? (cs : List Char) : Option Number :=
  let (negative, unsigned) := match cs with
    | '-' :: rest => (true, rest)
    | _ => (false, cs)
  let p := Parts.ofNumeral unsigned
  let value := Text.naturalValue p.whole
  let isWhole := p.fraction.isNone && p.exponent.isNone
  if isWhole && !negative && value < 1 <<< 64 then some (integer value)
  else if isWhole && negative && 0 < value && value ≤ 1 <<< 63 then some (integer (-value))
  else p.magnitude?.map fun x => double { x with negative }

/-- The number that a text denotes, if it is a numeral and representable. -/
def read? (text : String) : Option Number :=
  if Text.isNumeral text.toList then ofNumeral? text.toList else none

/-! ## Writing -/

/-- Which exponents are written in positional notation. -/
def isPositional (exponent : Int) : Bool :=
  -5 ≤ exponent && exponent < 16

def zeros (n : Nat) : List Char := List.replicate n '0'

/-- Positional notation with at least one digit after the point. -/
def positional (d : Decimal) : List Char :=
  if 0 ≤ d.exponent then
    let whole := d.exponent.toNat + 1
    if d.digits.length ≤ whole then d.digits ++ zeros (whole - d.digits.length) ++ ['.', '0']
    else d.digits.take whole ++ '.' :: d.digits.drop whole
  else '0' :: '.' :: (zeros (d.exponent.natAbs - 1) ++ d.digits)

/-- One digit before the point, and an exponent with its sign. -/
def scientific (d : Decimal) : List Char :=
  let mark := if 0 ≤ d.exponent then '+' else '-'
  let point := if d.digits.length ≤ 1 then [] else '.' :: d.digits.drop 1
  d.digits.take 1 ++ point ++ 'e' :: mark :: Text.naturalDigits d.exponent.natAbs

def doubleChars (x : Binary64) : List Char :=
  let magnitude :=
    if x.isZero then ['0', '.', '0']
    else
      let d := x.shortest
      if isPositional d.exponent then positional d else scientific d
  if x.negative then '-' :: magnitude else magnitude

def chars : Number → List Char
  | integer i => Text.integerDigits i
  | double x => doubleChars x

/-- The written form of a number. -/
def text (n : Number) : String :=
  String.ofList n.chars

end Number

end AtomLines.Json
