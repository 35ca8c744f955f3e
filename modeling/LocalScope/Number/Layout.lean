import LocalScope.Number.Shortest

namespace LocalScope

/-- How a number is written out: which powers of ten still get positional notation, whether a
positive exponent shows its sign, and which of two equally good decimals is taken. -/
structure Layout where
  leastPlain : Int
  greatestPlain : Int
  plusSign : Bool
  tie : Tie

namespace Layout

/- Positional notation always has a point and a digit on either side of it. -/
def plain (d : Decimal) : String :=
  if d.exponent < 0 then
    String.ofList ('0' :: '.' :: List.replicate (d.exponent.natAbs - 1) '0' ++ d.digits)
  else
    let whole := d.exponent.toNat + 1
    let front := d.digits.take whole ++ List.replicate (whole - d.digits.length) '0'
    let back := d.digits.drop whole
    String.ofList (front ++ '.' :: (if back.isEmpty then ['0'] else back))

def scientific (plusSign : Bool) (d : Decimal) : String :=
  let mantissa := match d.digits with
    | [] => []
    | [c] => [c]
    | c :: cs => c :: '.' :: cs
  let sign := if d.exponent < 0 then "-" else if plusSign then "+" else ""
  String.ofList mantissa ++ "e" ++ sign ++ toString d.exponent.natAbs

def magnitude (l : Layout) (x : Binary64) : String :=
  if x.magnitudeBits = 0 then "0.0"
  else
    let d := Decimal.shortest l.tie x.magnitude
    if l.leastPlain ≤ d.exponent ∧ d.exponent ≤ l.greatestPlain then plain d
    else scientific l.plusSign d

/-- The text of a finite number. -/
def render (l : Layout) (x : Binary64) : String :=
  if x.negative then "-" ++ l.magnitude x else l.magnitude x

end Layout

end LocalScope
