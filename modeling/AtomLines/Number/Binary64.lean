/-!
# Binary floating point

A finite double is a sign and a whole number of units of 2^-1074, of which at
most 53 leading bits are kept. Sums aside, an operation computes its exact result
as a quotient of naturals and rounds once, to the nearest double and to the even
one of two.
-/

namespace AtomLines.Number

/-- The magnitude is `significand * 2 ^ scale` units of 2^-1074; the significand
has 53 bits unless the scale is zero. -/
structure Binary64 where
  negative : Bool
  significand : Nat
  scale : Nat
deriving DecidableEq, Repr, Inhabited

namespace Binary64

def unitBits : Nat := 1074

def precision : Nat := 53

/-- The scale of the largest doubles. -/
def maxScale : Nat := 2045

def zero (negative : Bool) : Binary64 := ⟨negative, 0, 0⟩

def isZero (x : Binary64) : Bool := x.significand = 0

/-- The magnitude as a number of units. -/
def units (x : Binary64) : Nat := x.significand <<< x.scale

/-- Equality of values: the two zeros are the same. -/
def same (x y : Binary64) : Bool :=
  (x.isZero && y.isZero) || x = y

/-! ## Rounding -/

/-- The whole number nearest to a quotient, the even one of two. -/
def roundQuotient (num den : Nat) : Nat :=
  let q := num / den
  let r := num % den
  if 2 * r < den then q
  else if den < 2 * r then q + 1
  else if q % 2 = 0 then q else q + 1

/-- The magnitude of `num / den` units, or nothing where it exceeds all doubles. -/
def ofUnits? (num den : Nat) : Option Binary64 :=
  let scale := (num / den).log2 + 1 - precision
  let m := roundQuotient num (den <<< scale)
  let (m, scale) := if m = 1 <<< precision then (1 <<< (precision - 1), scale + 1) else (m, scale)
  if scale ≤ maxScale then some ⟨false, m, scale⟩ else none

def ofNat? (n : Nat) : Option Binary64 :=
  ofUnits? (n <<< unitBits) 1

/-- The product of two magnitudes. -/
def mul? (x y : Binary64) : Option Binary64 :=
  ofUnits? (x.units * y.units) (1 <<< unitBits)

/-- The quotient of two magnitudes, the second one not zero. -/
def div? (x y : Binary64) : Option Binary64 :=
  ofUnits? (x.units <<< unitBits) y.units

end Binary64

end AtomLines.Number
