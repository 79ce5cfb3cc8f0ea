import ImportCheck.Text.Search
import ImportCheck.Text.Snapshot
import ImportCheck.Value.Basic

/-!
Settings in environment variables. The name of a variable is a path of keys; its text is read as a value,
and stands for itself where it cannot be read as a whole.
-/
namespace ImportCheck.Variable

/-- The names of the variables that hold settings start with this, in any case. -/
def marker : List Char := "TSLOADER__".toList

/-- Two underscores divide keys just as a point does. -/
def divide : List Char → List Char
  | '_' :: '_' :: cs => '.' :: divide cs
  | c :: cs => c :: divide cs
  | [] => []

/-- The keys that a variable sets; none for a variable that holds no setting. -/
def keys? (name : String) : Option (List String) := do
  let cs := Text.trim name.toList
  let rest ← Text.after? (marker.map Char.toLower) (cs.map Char.toLower)
  let path := Text.trim (divide (cs.drop (cs.length - rest.length)))
  let parts := Text.splitOn '.' (path.map Char.toLower)
  if parts.contains [] then none else some (parts.map String.ofList)

def isSpace (c : Char) : Bool :=
  c == ' ' || c == '\t' || c == '\n' || c == '\r' || c == '\x0c'

def skipSpace (cs : List Char) : List Char := cs.dropWhile isSpace

def isSeparator (c : Char) : Bool :=
  c == ',' || c == '[' || c == ']' || c == '\x7b' || c == '\x7d'

def digitValue (c : Char) : Nat := c.toNat - 48

def ofDigits (cs : List Char) : Nat := cs.foldl (fun n c => n * 10 + digitValue c) 0

def isNumeral (cs : List Char) : Bool := cs != [] && cs.all Char.isDigit

/-- The sign of a number and what follows it. -/
def signed : List Char → Bool × List Char
  | '-' :: cs => (true, cs)
  | '+' :: cs => (false, cs)
  | cs => (false, cs)

def exponent? (cs : List Char) : Option Int :=
  match signed cs with
  | (negative, ds) =>
    if isNumeral ds then some (if negative then -(ofDigits ds : Int) else ofDigits ds) else none

/-- A decimal number with or without point and exponent; there is a digit before or after the point. -/
def float? (cs : List Char) : Option Binary64 := do
  let (negative, cs) := signed cs
  let whole := cs.takeWhile Char.isDigit
  let cs := cs.dropWhile Char.isDigit
  let (fraction, cs) := match cs with
    | '.' :: cs => (cs.takeWhile Char.isDigit, cs.dropWhile Char.isDigit)
    | cs => ([], cs)
  let exponent ← match cs with
    | [] => some 0
    | c :: cs => if c = 'e' ∨ c = 'E' then exponent? cs else none
  if whole = [] ∧ fraction = [] then none
  else some (.ofDecimal negative (ofDigits (whole ++ fraction)) (exponent - fraction.length))

/-- An integer that fits in 64 bits. -/
def integer? (cs : List Char) : Option Number :=
  match cs with
  | '-' :: ds =>
    if isNumeral ds ∧ ofDigits ds ≤ Nat.pow 2 63 then some (.signed (-(ofDigits ds : Int))) else none
  | cs =>
    let ds := (signed cs).2
    let n := ofDigits ds
    if !isNumeral ds ∨ Nat.pow 2 64 ≤ n then none
    else some (if n < Nat.pow 2 32 then .place n.toUInt32 else .unsigned n)

/-- A text that is neither quoted nor in brackets: a number if it is one. -/
def bare (cs : List Char) : Value :=
  match (if cs.contains '.' then float? cs else none), integer? cs with
  | some x, _ => .number (.float x)
  | none, some n => .number n
  | none, none => .string (String.ofList cs)

def hexValue? (cs : List Char) : Option Nat :=
  cs.foldl (fun n c => n.bind fun n =>
    if c.isDigit then some (n * 16 + digitValue c)
    else if 'a' ≤ c ∧ c ≤ 'f' then some (n * 16 + c.toNat - 87)
    else if 'A' ≤ c ∧ c ≤ 'F' then some (n * 16 + c.toNat - 55)
    else none) (some 0)

/-- The character with a code point written in hexadecimal digits; surrogates are no characters. -/
def codePoint? (cs : List Char) : Option Char := do
  let n ← hexValue? cs
  if n.isValidChar then some (Char.ofNat n) else none

def escape? : Char → Option Char
  | '"' => some '"'
  | '\\' => some '\\'
  | 'b' => some '\x08'
  | 'f' => some '\x0c'
  | 'n' => some '\n'
  | 'r' => some '\r'
  | 't' => some '\t'
  | _ => none

/-- The rest of a quoted text after its opening mark. -/
def quotedBody? : List Char → Option (List Char × List Char)
  | [] => none
  | '"' :: cs => some ([], cs)
  | '\\' :: 'u' :: a :: b :: c :: d :: cs => do
    let x ← codePoint? [a, b, c, d]
    let (text, rest) ← quotedBody? cs
    return (x :: text, rest)
  | '\\' :: 'U' :: a :: b :: c :: d :: e :: f :: g :: h :: cs => do
    let x ← codePoint? [a, b, c, d, e, f, g, h]
    let (text, rest) ← quotedBody? cs
    return (x :: text, rest)
  | '\\' :: e :: cs => do
    let x ← escape? e
    let (text, rest) ← quotedBody? cs
    return (x :: text, rest)
  | c :: cs =>
    if (c.toNat < 32 ∧ c ≠ '\t') ∨ c.toNat = 127 ∨ c = '\\' then none
    else do
      let (text, rest) ← quotedBody? cs
      return (c :: text, rest)

/-- A quoted text after its opening mark, and what follows it. Where there is an escape, the part before
the first one keeps as many bytes as it has characters; a text that this would cut inside a character
cannot be read. -/
def quotedText? (cs : List Char) : Option (List Char × List Char) := do
  let (text, rest) ← quotedBody? cs
  let plain := cs.takeWhile fun c => c != '"' && c != '\\'
  match cs.drop plain.length with
  | '\\' :: _ =>
    let kept ← Text.takeBytes? plain.length plain
    return (kept ++ text.drop plain.length, rest)
  | _ => return (text, rest)

def isWordChar (c : Char) : Bool := c.isAlphanum || c == '-' || c == '_'

def key? (cs : List Char) : Option (List Char × List Char) :=
  match cs with
  | '"' :: cs => quotedText? cs
  | cs =>
    let word := cs.takeWhile isWordChar
    if word = [] then none else some (word, cs.dropWhile isWordChar)

mutual
/-- A value at the start of a text and what follows it and the blanks behind it. The bound counts nested
calls, of which each has less text. -/
def read? : Nat → List Char → Option (Value × List Char)
  | 0, _ => none
  | n + 1, cs =>
    let cs := skipSpace cs
    let found : Option (Value × List Char) :=
      match Text.after? "true".toList cs, Text.after? "false".toList cs with
      | some rest, _ => some (.bool true, rest)
      | _, some rest => some (.bool false, rest)
      | none, none =>
        match cs with
        | '\x7b' :: '\x7d' :: rest => some (.object [], rest)
        | '\x7b' :: rest => (readFields? n rest).map fun (fields, rest) => (.ofFields fields, rest)
        | '[' :: ']' :: rest => some (.array [], rest)
        | '[' :: rest => (readItems? n rest).map fun (items, rest) => (.array items, rest)
        | '"' :: rest => (quotedText? rest).map fun (text, rest) => (.string (String.ofList text), rest)
        | '\'' :: c :: '\'' :: rest => some (.letter c, rest)
        | '\'' :: _ => none
        | cs =>
          some (bare (Text.trim (cs.takeWhile (!isSeparator ·))), cs.dropWhile (!isSeparator ·))
    found.map fun (v, rest) => (v, skipSpace rest)

def readItems? : Nat → List Char → Option (List Value × List Char)
  | 0, _ => none
  | n + 1, cs => do
    let (v, rest) ← read? n cs
    match rest with
    | ',' :: ']' :: rest => return ([v], rest)
    | ',' :: rest =>
      let (vs, rest) ← readItems? n rest
      return (v :: vs, rest)
    | ']' :: rest => return ([v], rest)
    | _ => none

def readFields? : Nat → List Char → Option (List (String × Value) × List Char)
  | 0, _ => none
  | n + 1, cs => do
    let (key, rest) ← key? (skipSpace cs)
    match skipSpace rest with
    | '=' :: rest =>
      let (v, rest) ← read? n rest
      let field := (String.ofList key, v)
      match rest with
      | ',' :: '\x7d' :: rest => return ([field], rest)
      | ',' :: rest =>
        let (fields, rest) ← readFields? n rest
        return (field :: fields, rest)
      | '\x7d' :: rest => return ([field], rest)
      | _ => none
    | _ => none
end

/-- The value of a variable's text. -/
def value (text : String) : Value :=
  match read? (2 * text.length + 2) text.toList with
  | some (v, []) => v
  | _ => .string text

/-- A value under a path of keys. -/
def nest : List String → Value → Value
  | [], v => v
  | key :: keys, v => .object [(key, nest keys v)]

/-- The settings of all variables together. They are applied in the order of their names. -/
def settings (environment : List (String × String)) : Fields :=
  (environment.mergeSort fun a b => decide (a.1 ≤ b.1)).foldl (fun fields v =>
    match keys? v.1 with
    | some (key :: keys) => Value.mergeFields fields [(key, nest keys (value v.2))]
    | _ => fields) []

end ImportCheck.Variable
