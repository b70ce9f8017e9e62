import AtomLines.Number.Binary64
import AtomLines.Text.Numeral
/-!
# Shortest decimals

Of the decimals that round to a double, the one with the fewest digits is
written, and of several such the nearest to the double. The search tries one digit
after the other; on the grid of decimals with a given number of digits only the
two neighbours of the double can be nearest.
-/

namespace AtomLines.Number

/-- The decimal `0.d₁d₂… * 10 ^ (exponent + 1)`, its digits without zeros at the
end. -/
structure Decimal where
  digits : List Char
  exponent : Int
deriving DecidableEq, Repr

namespace Binary64

/-- The interval of reals that round to a double other than zero, and the double
itself, in quarters of a unit. -/
structure Interval where
  low : Nat
  value : Nat
  high : Nat
  /-- The ends round to the double too. -/
  closed : Bool

def interval (x : Binary64) : Interval :=
  let step := 1 <<< x.scale
  let below := if x.significand = 1 <<< (precision - 1) ∧ x.scale ≠ 0 then 1 else 2
  { low := (4 * x.significand - below) * step
    value := 4 * x.significand * step
    high := (4 * x.significand + 2) * step
    closed := x.significand % 2 = 0 }

/-- No double other than zero is below 10 to the power of minus this. -/
def decimalShift : Nat := 350

def quarterBits : Nat := unitBits + 2

/-- The distance of two naturals. -/
def distance (a b : Nat) : Nat := (a - b) + (b - a)

/-- The multiple of the grid `10 ^ (step - decimalShift)` that rounds to the
double and is nearest to it, if one does. -/
def onGrid? (i : Interval) (step : Nat) : Option Nat :=
  let scale := Nat.pow 10 decimalShift
  let grid := Nat.pow 10 step <<< quarterBits
  let c := i.value * scale / grid
  let hit (n : Nat) : Bool :=
    if i.closed then i.low * scale ≤ n * grid && n * grid ≤ i.high * scale
    else i.low * scale < n * grid && n * grid < i.high * scale
  let off (n : Nat) : Nat := distance (n * grid) (i.value * scale)
  match hit c, hit (c + 1) with
  | false, false => none
  | true, false => some c
  | false, true => some (c + 1)
  | true, true =>
    if off c < off (c + 1) then some c
    else if off (c + 1) < off c then some (c + 1)
    else if c % 2 = 0 then some c else some (c + 1)

/-- Tries grids from `step` downwards, at most `tries` of them. -/
def search (i : Interval) : (tries step : Nat) → Nat × Nat
  | 0, step => (i.value * Nat.pow 10 decimalShift / (Nat.pow 10 step <<< quarterBits), step)
  | tries + 1, step =>
    match onGrid? i step with
    | some c => (c, step)
    | none => search i tries (step - 1)

/-- The digits of the shortest decimal of a double other than zero. -/
def shortest (x : Binary64) : Decimal :=
  let i := x.interval
  let places := (Text.naturalDigits (i.value * Nat.pow 10 decimalShift / (1 <<< quarterBits))).length
  let (c, step) := search i 17 (places - 1)
  let digits := Text.naturalDigits c
  { digits := (digits.reverse.dropWhile (· = '0')).reverse
    exponent := (step + digits.length : Int) - 1 - decimalShift }

end Binary64

end AtomLines.Number
