import LocalScope.Number.Binary64

namespace LocalScope

/- Of all decimals that read back as a given number, the ones with fewest digits, and of those
the nearest. All comparisons are exact: values are whole numbers of `unit`s, a unit being a
quarter of the smallest positive magnitude divided by `10 ^ 340`. The power of ten keeps every
decimal grid that matters whole. -/

/-- The number `d₀.d₁d₂… * 10 ^ exponent`; digits are most significant first. -/
structure Decimal where
  digits : List Char
  exponent : Int
deriving DecidableEq, Repr

/-- Where two decimals of the fewest digits are equally near. -/
inductive Tie where
  | even
  | up
deriving DecidableEq, Repr

namespace Decimal

def gridShift : Nat := 340

/-- How many units make one. -/
def one : Nat := 4 * Nat.pow 2 1074

def digitsOf (n : Nat) : List Char := Nat.toDigits 10 n

def dropZeros (digits : List Char) : List Char :=
  (digits.reverse.dropWhile (· == '0')).reverse

/-- The reals that round to a number, in units of `1 / one`. -/
structure Interval where
  low : Nat
  middle : Nat
  high : Nat
  closed : Bool

/- Below a power of two the neighbour is half as far as above it. -/
def Interval.of (m : Binary64.Magnitude) : Interval :=
  let width := Nat.pow 2 m.scale
  let below := if m.mantissa = Nat.pow 2 52 ∧ m.scale ≠ 0 then 1 else 2
  { low := (4 * m.mantissa - below) * width
    middle := 4 * m.mantissa * width
    high := (4 * m.mantissa + 2) * width
    closed := m.mantissa % 2 = 0 }

def Interval.holds (i : Interval) (x : Nat) : Bool :=
  let low := i.low * Nat.pow 10 gridShift
  let high := i.high * Nat.pow 10 gridShift
  if i.closed then low ≤ x && x ≤ high else low < x && x < high

/-- The best grid point with steps of `10 ^ step / 10 ^ gridShift`, when one reads back. -/
def Interval.point? (i : Interval) (tie : Tie) (step : Nat) : Option Nat :=
  let grid := Nat.pow 10 step * one
  let value := i.middle * Nat.pow 10 gridShift
  let under := value / grid
  let above := under + 1
  match i.holds (under * grid), i.holds (above * grid) with
  | false, false => none
  | true, false => some under
  | false, true => some above
  | true, true =>
    let toUnder := value - under * grid
    let toAbove := above * grid - value
    if toUnder < toAbove then some under
    else if toAbove < toUnder then some above
    else match tie with
      | .up => some above
      | .even => some (under + under % 2)

def mostDigits : Nat := 17

/-- The shortest decimal of a positive magnitude. -/
def shortest (tie : Tie) (m : Binary64.Magnitude) : Decimal :=
  let i := Interval.of m
  let whole := (digitsOf (i.middle * Nat.pow 10 gridShift / one)).length
  let grids := (List.range mostDigits).map fun k => whole - (k + 1)
  let point := (grids.findSome? fun step => (i.point? tie step).map fun g => (g, step)).getD (0, 0)
  let digits := digitsOf point.1
  { digits := dropZeros digits
    exponent := (digits.length - 1 + point.2 : Nat) - (gridShift : Int) }

end Decimal

end LocalScope
