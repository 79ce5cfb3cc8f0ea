import ImportCheck.Value.Basic

/-!
JSON text as a tree that keeps its literals unread: a number may be too large for any use, and the
escapes of a string may not pair up to characters, without the text being broken.
-/
namespace ImportCheck

/-- A number as it is written, digit by digit. The exponent comes with its sign. -/
structure NumberLiteral where
  negative : Bool
  whole : List Nat
  fraction : Option (List Nat)
  exponent : Option (Bool × List Nat)
deriving DecidableEq

/-- A character of a string, or the sixteen bits that an escape stands for. -/
inductive StringPiece
  | char (c : Char)
  | unit (n : Nat)
deriving DecidableEq

abbrev StringLiteral := List StringPiece

inductive Json
  | null
  | bool (b : Bool)
  | number (literal : NumberLiteral)
  | string (literal : StringLiteral)
  | array (items : List Json)
  | object (fields : List (StringLiteral × Json))

instance : Inhabited Json := ⟨.null⟩

namespace StringLiteral

/-- Two surrogate escapes in a row stand for one character. A lone one stands for nothing. -/
def decode? : StringLiteral → Option (List Char)
  | [] => some []
  | .char c :: rest => (decode? rest).map (c :: ·)
  | .unit n :: rest =>
    if n < 0xD800 ∨ 0xDFFF < n then (decode? rest).map (Char.ofNat n :: ·)
    else
      match rest with
      | .unit m :: rest' =>
        if n < 0xDC00 ∧ 0xDC00 ≤ m ∧ m ≤ 0xDFFF then
          (decode? rest').map (Char.ofNat (0x10000 + (n - 0xD800) * 0x400 + (m - 0xDC00)) :: ·)
        else none
      | _ => none

def text? (l : StringLiteral) : Option String := (decode? l).map String.ofList

end StringLiteral

namespace NumberLiteral

def limit : Nat := Nat.pow 2 64

/-- Takes digits into a significand of 64 bits as long as they fit; the rest is counted. -/
def takeDigits : Nat → List Nat → Nat × List Nat
  | n, [] => (n, [])
  | n, d :: ds => if n * 10 + d < limit then takeDigits (n * 10 + d) ds else (n, d :: ds)

def ofDigits (ds : List Nat) : Nat := ds.foldl (fun n d => n * 10 + d) 0

/-- A significand times a power of ten: the significand is rounded first, and the product or quotient
with the rounded power is rounded again. None if the number is too large. -/
def scaled? (negative : Bool) (significand : Nat) (exponent : Int) : Option Binary64 :=
  let f := Binary64.ofRatio false significand 1
  let result :=
    if significand = 0 then f
    else if 308 < exponent then Binary64.infinity false
    else if 0 ≤ exponent then f.mulSize (.powerOfTen exponent.natAbs)
    else if -308 ≤ exponent then f.divSize (.powerOfTen exponent.natAbs)
    else
      let g := f.divSize (.powerOfTen 308)
      let rest := exponent.natAbs - 308
      if rest ≤ 308 then g.divSize (.powerOfTen rest) else .ofMagnitude false 0
  if result.isFinite then some (result.withSign negative) else none

/-- The number written: an integer that fits in 64 bits, or else a floating-point number. None if it is
too large. -/
def number? (l : NumberLiteral) : Option Number :=
  let (n, restWhole) := takeDigits 0 l.whole
  if restWhole = [] ∧ l.fraction = none ∧ l.exponent = none then
    if !l.negative then some (.unsigned n)
    else if n = 0 ∨ Nat.pow 2 63 < n then
      some (.float ((Binary64.ofRatio false n 1).withSign true))
    else some (.signed (-(n : Int)))
  else
    let fraction := l.fraction.getD []
    let (m, restFraction) := takeDigits n fraction
    let start : Int := (restWhole.length : Int) - ((fraction.length - restFraction.length : Nat) : Int)
    let exponent : Int := match l.exponent with
      | none => start
      | some (false, ds) => start + ofDigits ds
      | some (true, ds) => start - ofDigits ds
    (scaled? l.negative m exponent).map .float

end NumberLiteral

namespace Json

mutual
/-- The value that the text describes; none if a number is too large or a string is no text. Of several
fields with one key the last one stands. -/
def value? : Json → Option Value
  | .null => some .null
  | .bool b => some (.bool b)
  | .number l => l.number?.map .number
  | .string l => l.text?.map .string
  | .array items => (itemValues? items).map .array
  | .object fields => (fieldValues? fields).map Value.ofFields

def itemValues? : List Json → Option (List Value)
  | [] => some []
  | j :: rest =>
    match value? j, itemValues? rest with
    | some v, some vs => some (v :: vs)
    | _, _ => none

def fieldValues? : List (StringLiteral × Json) → Option (List (String × Value))
  | [] => some []
  | (key, j) :: rest =>
    match StringLiteral.text? key, value? j, fieldValues? rest with
    | some k, some v, some vs => some ((k, v) :: vs)
    | _, _, _ => none
end

end Json

end ImportCheck
