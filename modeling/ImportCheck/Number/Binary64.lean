/-!
Numbers with 53 significant bits, as they stand in a 64-bit word: what they are worth as a ratio, and
the one nearest to a given ratio.
-/
namespace ImportCheck

/-- A word read as a binary floating-point number. -/
structure Binary64 where
  bits : UInt64
deriving DecidableEq

namespace Binary64

def isNegative (x : Binary64) : Bool := Nat.pow 2 63 ≤ x.bits.toNat

/-- The eleven bits of the exponent. -/
def exponentBits (x : Binary64) : Nat := x.bits.toNat / Nat.pow 2 52 % Nat.pow 2 11

def fractionBits (x : Binary64) : Nat := x.bits.toNat % Nat.pow 2 52

def isFinite (x : Binary64) : Bool := x.exponentBits != 2047

def isNaN (x : Binary64) : Bool := x.exponentBits == 2047 && x.fractionBits != 0

/-- The significand of a finite number; the leading one is not stored unless the exponent is least. -/
def significand (x : Binary64) : Nat :=
  if x.exponentBits = 0 then x.fractionBits else Nat.pow 2 52 + x.fractionBits

/-- The power of two that the significand counts, plus 1074. -/
def scale (x : Binary64) : Nat := x.exponentBits - 1

/-- The size of a finite number as numerator and denominator. -/
def ratio (x : Binary64) : Nat × Nat := (x.significand * Nat.pow 2 x.scale, Nat.pow 2 1074)

def ofMagnitude (negative : Bool) (magnitude : Nat) : Binary64 where
  bits := UInt64.ofNat (magnitude + if negative then Nat.pow 2 63 else 0)

def infinity (negative : Bool) : Binary64 := ofMagnitude negative (2047 * Nat.pow 2 52)

def nan : Binary64 := ofMagnitude false (2047 * Nat.pow 2 52 + Nat.pow 2 51)

/-- The quotient rounded to the nearest integer, and to the even one of two. -/
def roundDiv (n d : Nat) : Nat :=
  let q := n / d
  let r := n % d
  if 2 * r < d ∨ (2 * r = d ∧ q % 2 = 0) then q else q + 1

/-- The least scale at which the quotient has at most 53 bits. -/
def scaleFor (n d : Nat) : Nat :=
  let guess := n.log2 + 1074 - (d.log2 + 53)
  if n * Nat.pow 2 1074 / (d * Nat.pow 2 guess) < Nat.pow 2 53 then guess else guess + 1

/-- The number nearest to a ratio; of two equally near the one with the even significand. What lies
past the largest number is infinite. -/
def ofRatio (negative : Bool) (n d : Nat) : Binary64 :=
  let s := scaleFor n d
  let m := roundDiv (n * Nat.pow 2 1074) (d * Nat.pow 2 s)
  let magnitude := if m < Nat.pow 2 52 then m else s * Nat.pow 2 52 + m
  if magnitude < 2047 * Nat.pow 2 52 then ofMagnitude negative magnitude else infinity negative

/-- The number nearest to `digits · 10 ^ exponent`. -/
def ofDecimal (negative : Bool) (digits : Nat) (exponent : Int) : Binary64 :=
  if digits = 0 then ofMagnitude negative 0
  else if 400 < exponent then infinity negative
  else if exponent + (digits.log2 : Int) < -1200 then ofMagnitude negative 0
  else if exponent < 0 then ofRatio negative digits (Nat.pow 10 exponent.natAbs)
  else ofRatio negative (digits * Nat.pow 10 exponent.natAbs) 1

def powerOfTen (k : Nat) : Binary64 := ofDecimal false 1 k

/-- The product of the sizes of two numbers, rounded. -/
def mulSize (x y : Binary64) : Binary64 :=
  if x.isFinite && y.isFinite then ofRatio false (x.ratio.1 * y.ratio.1) (x.ratio.2 * y.ratio.2)
  else infinity false

/-- The quotient of the sizes of two finite numbers, rounded. -/
def divSize (x y : Binary64) : Binary64 :=
  ofRatio false (x.ratio.1 * y.ratio.2) (x.ratio.2 * y.ratio.1)

def withSign (negative : Bool) (x : Binary64) : Binary64 :=
  ofMagnitude negative (x.bits.toNat % Nat.pow 2 63)

end Binary64

end ImportCheck
