import ImportCheck.Value.Basic

/-!
Numbers of a settings file: integers of 64 bits in four bases, and decimal numbers. Underscores may stand
between digits.
-/
namespace ImportCheck.Toml

def digitValue (c : Char) : Nat :=
  if c.isDigit then c.toNat - 48
  else if 'a' ≤ c ∧ c ≤ 'f' then c.toNat - 87
  else c.toNat - 55

def isHexDigit (c : Char) : Bool :=
  c.isDigit || ('a' ≤ c && c ≤ 'f') || ('A' ≤ c && c ≤ 'F')

def ofDigits (base : Nat) (cs : List Char) : Nat := cs.foldl (fun n c => n * base + digitValue c) 0

/-- Digits with single underscores between them, after a first digit. -/
def moreDigits (p : Char → Bool) : List Char → List Char × List Char
  | '_' :: c :: cs =>
    if p c then
      let (ds, rest) := moreDigits p cs
      (c :: ds, rest)
    else ([], '_' :: c :: cs)
  | c :: cs =>
    if p c then
      let (ds, rest) := moreDigits p cs
      (c :: ds, rest)
    else ([], c :: cs)
  | [] => ([], [])

def numeral? (p : Char → Bool) : List Char → Option (List Char × List Char)
  | c :: cs =>
    if p c then
      let (ds, rest) := moreDigits p cs
      some (c :: ds, rest)
    else none
  | [] => none

def fraction? : List Char → Option (Option (List Char) × List Char)
  | '.' :: cs => (numeral? Char.isDigit cs).map fun (ds, rest) => (some ds, rest)
  | cs => some (none, cs)

def sign : List Char → Bool × List Char
  | '-' :: cs => (true, cs)
  | '+' :: cs => (false, cs)
  | cs => (false, cs)

def exponent? : List Char → Option (Option Int × List Char)
  | c :: cs =>
    if c = 'e' ∨ c = 'E' then
      let (negative, cs) := sign cs
      (numeral? Char.isDigit cs).map fun (ds, rest) =>
        (some (if negative then -(ofDigits 10 ds : Int) else ofDigits 10 ds), rest)
    else some (none, c :: cs)
  | [] => some (none, [])

/-- An integer of 64 bits with its sign. -/
def integer? (i : Int) : Option Value :=
  if -0x8000000000000000 ≤ i ∧ i < 0x8000000000000000 then some (.number (.signed i)) else none

def based? (base : Nat) (p : Char → Bool) (cs : List Char) : Option (Value × List Char) := do
  let (ds, rest) ← numeral? p cs
  let v ← integer? (ofDigits base ds)
  return (v, rest)

/-- A number in decimal notation. One that is too large is refused; one that is too far below zero is
infinite. -/
def decimal? (negative : Bool) (cs : List Char) : Option (Value × List Char) := do
  let (whole, cs) ← numeral? Char.isDigit cs
  if whole.head? = some '0' ∧ whole.length ≠ 1 then none
  let (fraction, cs) ← fraction? cs
  let (exponent, cs) ← exponent? cs
  match fraction, exponent with
  | none, none =>
    let n : Int := ofDigits 10 whole
    let v ← integer? (if negative then -n else n)
    return (v, cs)
  | _, _ =>
    let places := fraction.getD []
    let x := Binary64.ofDecimal negative (ofDigits 10 (whole ++ places))
      (exponent.getD 0 - places.length)
    if x = .infinity false then none else return (.number (.float x), cs)

def number? (cs : List Char) : Option (Value × List Char) :=
  match cs with
  | '0' :: 'x' :: cs => based? 16 isHexDigit cs
  | '0' :: 'o' :: cs => based? 8 (fun c => '0' ≤ c && c ≤ '7') cs
  | '0' :: 'b' :: cs => based? 2 (fun c => c == '0' || c == '1') cs
  | cs =>
    match sign cs with
    | (negative, 'i' :: 'n' :: 'f' :: cs) => some (.number (.float (.infinity negative)), cs)
    | (negative, 'n' :: 'a' :: 'n' :: cs) =>
      some (.number (.float (Binary64.nan.withSign negative)), cs)
    | (negative, cs) => decimal? negative cs

end ImportCheck.Toml
