namespace LocalScope

/-- A double-precision number, given by its 64 bits. The two zeros are different numbers here. -/
structure Binary64 where
  bits : UInt64
deriving DecidableEq, Repr

namespace Binary64

/- Every finite magnitude is `mantissa * 2 ^ scale / 2 ^ 1074`. The bits below the sign are
`scale * 2 ^ 52 + mantissa`, also where the mantissa has no leading one. -/
structure Magnitude where
  mantissa : Nat
  scale : Nat
deriving DecidableEq, Repr

def Magnitude.ofBits (bits : Nat) : Magnitude :=
  let field := bits / Nat.pow 2 52
  if field = 0 then ⟨bits % Nat.pow 2 52, 0⟩
  else ⟨bits % Nat.pow 2 52 + Nat.pow 2 52, field - 1⟩

/-- The magnitude in units of the smallest positive one. -/
def Magnitude.units (m : Magnitude) : Nat := m.mantissa * Nat.pow 2 m.scale

def negative (x : Binary64) : Bool := x.bits.toNat ≥ Nat.pow 2 63

def magnitudeBits (x : Binary64) : Nat := x.bits.toNat % Nat.pow 2 63

def magnitude (x : Binary64) : Magnitude := .ofBits x.magnitudeBits

/-- The bits of the infinite magnitude; every finite one has smaller bits. -/
def infinite : Nat := 0x7ff * Nat.pow 2 52

def isFinite (x : Binary64) : Bool := x.magnitudeBits < infinite

def ofMagnitudeBits (negative : Bool) (bits : Nat) : Binary64 :=
  ⟨UInt64.ofNat (if negative then Nat.pow 2 63 + bits else bits)⟩

/-- A quotient to the nearest whole number, halves to the even one. -/
def roundDiv (num den : Nat) : Nat :=
  let q := num / den
  let r := num % den
  if 2 * r < den then q else if den < 2 * r then q + 1 else q + q % 2

/-- The bits of the magnitude nearest to `num / den`. -/
def nearestBits (num den : Nat) : Nat :=
  let units := num * Nat.pow 2 1074
  let scale := (units / den).log2 - 52
  min infinite (scale * Nat.pow 2 52 + roundDiv units (den * Nat.pow 2 scale))

def ofInt (n : Int) : Binary64 :=
  ofMagnitudeBits (n < 0) (nearestBits n.natAbs 1)

/- A decimal significand is first rounded by itself, then scaled by a rounded power of ten: two
roundings, and a third when the exponent is below -308. -/
def tenTo (k : Nat) : Nat := (Magnitude.ofBits (nearestBits (Nat.pow 10 k) 1)).units

/-- The bits of `significand * 10 ^ exponent`, or nothing when that is out of range. -/
def scaleBits (significand : Nat) (exponent : Int) : Option Nat :=
  let units := (Magnitude.ofBits significand).units
  if significand = 0 then some 0
  else if 308 < exponent then none
  else if 0 ≤ exponent then
    let bits := nearestBits (units * tenTo exponent.toNat) (Nat.pow 2 1074 * Nat.pow 2 1074)
    if bits < infinite then some bits else none
  else if -308 ≤ exponent then
    some (nearestBits units (tenTo exponent.natAbs))
  else
    scaleBits (nearestBits units (tenTo 308)) (exponent + 308)
termination_by exponent.natAbs

def ofDecimal? (negative : Bool) (significand : Nat) (exponent : Int) : Option Binary64 :=
  (scaleBits (nearestBits significand 1) exponent).map (ofMagnitudeBits negative)

end Binary64

end LocalScope
