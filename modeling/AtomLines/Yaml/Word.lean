import AtomLines.Text.Hex
import AtomLines.Text.Numeral
import AtomLines.Yaml.Node
/-!
# Plain scalars with another meaning

Some texts, written plain, are taken for more than a text: for nothing, a truth
value or a number. Integers have at most 128 bits, and other numbers are doubles;
a larger one is only a text.
-/

namespace AtomLines.Yaml

/-! ## Integers -/

/-- Zeros before other digits: no number for some readers, and one for others. -/
def hasLeadingZero : List Char → Bool
  | '0' :: rest => Text.isDigits rest
  | _ => false

/-- Digits of a base. -/
def isInBase (base : Nat) (cs : List Char) : Bool :=
  cs ≠ [] && cs.all fun c => (Text.hexValue? c).any (· < base)

def valueInBase (base : Nat) (cs : List Char) : Nat :=
  cs.foldl (fun n c => n * base + (Text.hexValue? c).getD 0) 0

/-- An integer with the letter of its base, and below a bound. -/
def isBasedInteger (bound : Nat) : List Char → Bool
  | '0' :: 'x' :: rest => isInBase 16 rest && valueInBase 16 rest < bound
  | '0' :: 'o' :: rest => isInBase 8 rest && valueInBase 8 rest < bound
  | '0' :: 'b' :: rest => isInBase 2 rest && valueInBase 2 rest < bound
  | _ => false

/-! ## Decimal numbers -/

structure DecimalText where
  digits : List Char
  /-- The power of ten of the last digit. -/
  scale : Int

/-- The exponent after its mark, or none. -/
def exponentOf? : List Char → Option Int
  | [] => some 0
  | e :: rest =>
    if !Text.isExponent (e :: rest) then none
    else
      match rest with
      | '-' :: ds => some (-(Text.naturalValue ds))
      | '+' :: ds => some (Text.naturalValue ds)
      | ds => some (Text.naturalValue ds)

/-- Digits with a point before, among or after them, and maybe an exponent. -/
def DecimalText.ofChars? (cs : List Char) : Option DecimalText := do
  let whole := cs.takeWhile Char.isDigit
  let rest := cs.dropWhile Char.isDigit
  let (fraction, rest) := match rest with
    | '.' :: more => (more.takeWhile Char.isDigit, more.dropWhile Char.isDigit)
    | _ => ([], rest)
  let e ← exponentOf? rest
  if whole = [] && fraction = [] then none else some ⟨whole ++ fraction, e - fraction.length⟩

/-- Numbers from here on are rounded to infinity. -/
def infinityBound : Nat := 1 <<< 1024 - 1 <<< 970

/-- The number of digits of the bound. -/
def boundLength : Nat := 309

/-- The number is a double and no infinity. Its size is told by its length, except
where that is the length of the bound. -/
def DecimalText.isFinite (d : DecimalText) : Bool :=
  let significant := d.digits.dropWhile (· = '0')
  let length : Int := significant.length + d.scale
  if significant = [] || length < boundLength then true
  else if boundLength < length then false
  else
    let value := Text.naturalValue significant
    if 0 ≤ d.scale then value * Nat.pow 10 d.scale.toNat < infinityBound
    else value < infinityBound * Nat.pow 10 (-d.scale).toNat

/-! ## All words -/

def isInfinityWord (cs : List Char) : Bool :=
  cs = ".inf".toList || cs = ".Inf".toList || cs = ".INF".toList

def isNotANumberWord (s : String) : Bool := s = ".nan" || s = ".NaN" || s = ".NAN"

def isNumberWord (s : String) : Bool :=
  let cs := s.toList
  let (negative, unsigned) := match cs with
    | '+' :: rest => (false, rest)
    | '-' :: rest => (true, rest)
    | _ => (false, cs)
  hasLeadingZero unsigned || isBasedInteger (if negative then 1 <<< 127 + 1 else 1 <<< 128) unsigned ||
    (DecimalText.ofChars? unsigned).any DecimalText.isFinite || isInfinityWord unsigned || isNotANumberWord s

/-- A plain scalar of this text is more than a text, or nothing at all. -/
def isWord (s : String) : Bool :=
  s = "" || isNullWord s || (truthOfWord? s).isSome || isNumberWord s

end AtomLines.Yaml
