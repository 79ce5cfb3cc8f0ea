import ImportCheck.Number.Binary64

/-!
Decimal text of binary numbers: the fewest digits that read back as the number.
-/
namespace ImportCheck

/-- The decimal number `digits · 10 ^ exponent`. -/
structure Decimal where
  digits : Nat
  exponent : Int
deriving DecidableEq

/-- Which of two decimals is taken that are equally near to a number. -/
inductive Tie
  | even
  | upper
deriving DecidableEq

/-- Whether the lower of the two decimals is taken. -/
def Tie.staysBelow : Tie → Nat → Bool
  | even, below => below % 2 == 0
  | upper, _ => false

namespace Binary64

/-- The ratios that round to a finite number lie between the first two, over four times the
denominator of `ratio`; whether the ends do is the third. -/
def interval (x : Binary64) : Nat × Nat × Bool :=
  let unit := Nat.pow 2 x.scale
  let lowest := x.fractionBits = 0 ∧ 1 < x.exponentBits
  (4 * x.ratio.1 - (if lowest then unit else 2 * unit), 4 * x.ratio.1 + 2 * unit,
    x.significand % 2 == 0)

/-- The multiple of `10 ^ exponent` nearest to the number, if a neighbour on that grid reads back. -/
def onGrid? (tie : Tie) (x : Binary64) (exponent : Int) : Option Decimal :=
  let (low, high, closed) := x.interval
  let up := if exponent < 0 then Nat.pow 10 exponent.natAbs else 1
  let down := 4 * x.ratio.2 * if exponent < 0 then 1 else Nat.pow 10 exponent.natAbs
  let value := 4 * x.ratio.1 * up
  let inside (d : Nat) : Bool :=
    if closed then low * up ≤ d * down && d * down ≤ high * up
    else low * up < d * down && d * down < high * up
  let below := value / down
  let above := below + 1
  let distanceBelow := value - below * down
  let distanceAbove := above * down - value
  match below != 0 && inside below, inside above with
  | true, true =>
    some ⟨if distanceBelow < distanceAbove ∨ (distanceBelow = distanceAbove ∧ tie.staysBelow below)
      then below else above, exponent⟩
  | true, false => some ⟨below, exponent⟩
  | false, true => some ⟨above, exponent⟩
  | false, false => none

/-- Looks on ever finer grids. -/
def searchGrid (tie : Tie) (x : Binary64) : Nat → Int → Decimal
  | 0, _ => ⟨0, 0⟩
  | n + 1, exponent => (x.onGrid? tie exponent).getD (x.searchGrid tie n (exponent - 1))

/-- The shortest decimal that reads back as the size of a finite number. No number needs a grid
coarser than `10 ^ 308` or finer than `10 ^ -324`. -/
def shortest (tie : Tie) (x : Binary64) : Decimal :=
  if x.significand = 0 then ⟨0, 0⟩ else x.searchGrid tie 640 309

end Binary64

namespace Decimal

def zeros (n : Nat) : List Char := List.replicate n '0'

def digitChars (d : Decimal) : List Char := Nat.toDigits 10 d.digits

/-- All digits written out, with a point only before a fraction. -/
def positional (d : Decimal) : List Char :=
  let ds := d.digitChars
  if 0 ≤ d.exponent then ds ++ zeros d.exponent.toNat
  else
    let places := d.exponent.natAbs
    if places < ds.length then ds.take (ds.length - places) ++ '.' :: ds.drop (ds.length - places)
    else '0' :: '.' :: zeros (places - ds.length) ++ ds

/-- Positional from `10 ^ -5` up to `10 ^ 16`, with a point in every case, and otherwise one digit
before the point and an exponent. -/
def scientific (d : Decimal) : List Char :=
  let ds := d.digitChars
  let magnitude := d.exponent + ds.length
  if d.digits = 0 then ['0', '.', '0']
  else if -5 < magnitude ∧ magnitude ≤ 16 then
    if 0 ≤ d.exponent then d.positional ++ ['.', '0'] else d.positional
  else
    let fraction := ds.drop 1
    let exponent := magnitude - 1
    ds.take 1 ++ (if fraction = [] then [] else '.' :: fraction) ++ ['e'] ++
      (if exponent < 0 then ['-'] else []) ++ Nat.toDigits 10 exponent.natAbs

end Decimal

namespace Binary64

def sign (x : Binary64) : List Char := if x.isNegative then ['-'] else []

/-- The number in a data format: a finite number always has a point or an exponent. -/
def dataText (x : Binary64) : List Char := x.sign ++ (x.shortest .even).scientific

/-- The number in a message: all its digits, and no point in a whole number. Of two decimals that are
equally near it is the larger. -/
def messageText (x : Binary64) : List Char :=
  if x.isNaN then "NaN".toList
  else if x.isFinite then x.sign ++ (x.shortest .upper).positional
  else x.sign ++ "inf".toList

end Binary64

end ImportCheck
