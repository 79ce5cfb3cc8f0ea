import ImportCheck.Json.Tree

/-!
Reading JSON text. The whole text has to be one value between blanks.
-/
namespace ImportCheck.Json

def isSpace (c : Char) : Bool := c == ' ' || c == '\n' || c == '\t' || c == '\r'

def skipSpace (cs : List Char) : List Char := cs.dropWhile isSpace

def digit? (c : Char) : Option Nat := if c.isDigit then some (c.toNat - 48) else none

def hexDigit? (c : Char) : Option Nat :=
  if c.isDigit then some (c.toNat - 48)
  else if 'a' ≤ c ∧ c ≤ 'f' then some (c.toNat - 87)
  else if 'A' ≤ c ∧ c ≤ 'F' then some (c.toNat - 55)
  else none

/-- The digits at the start of a text, and what follows them. -/
def digits (cs : List Char) : List Nat × List Char :=
  ((cs.takeWhile Char.isDigit).filterMap digit?, cs.dropWhile Char.isDigit)

def digits1? (cs : List Char) : Option (List Nat × List Char) :=
  match digits cs with
  | ([], _) => none
  | r => some r

/-- A whole part has no leading zero. -/
def whole? (cs : List Char) : Option (List Nat × List Char) :=
  (digits1? cs).bind fun (ds, rest) =>
    if ds.length ≠ 1 ∧ ds.head? = some 0 then none else some (ds, rest)

def fraction? : List Char → Option (Option (List Nat) × List Char)
  | '.' :: cs => (digits1? cs).map fun (ds, rest) => (some ds, rest)
  | cs => some (none, cs)

def exponentDigits? (negative : Bool) (cs : List Char) :
    Option (Option (Bool × List Nat) × List Char) :=
  (digits1? cs).map fun (ds, rest) => (some (negative, ds), rest)

def exponent? : List Char → Option (Option (Bool × List Nat) × List Char)
  | c :: cs =>
    if c = 'e' ∨ c = 'E' then
      match cs with
      | '+' :: cs => exponentDigits? false cs
      | '-' :: cs => exponentDigits? true cs
      | cs => exponentDigits? false cs
    else some (none, c :: cs)
  | [] => some (none, [])

def readNumber? (negative : Bool) (cs : List Char) : Option (Json × List Char) := do
  let (whole, cs) ← whole? cs
  let (fraction, cs) ← fraction? cs
  let (exponent, cs) ← exponent? cs
  return (.number { negative, whole, fraction, exponent }, cs)

def escape? : Char → Option Char
  | '"' => some '"'
  | '\\' => some '\\'
  | '/' => some '/'
  | 'b' => some '\x08'
  | 'f' => some '\x0c'
  | 'n' => some '\n'
  | 'r' => some '\r'
  | 't' => some '\t'
  | _ => none

/-- The rest of a string after its opening quotation mark. -/
def stringBody? : List Char → Option (StringLiteral × List Char)
  | [] => none
  | '"' :: cs => some ([], cs)
  | '\\' :: 'u' :: a :: b :: c :: d :: cs =>
    match hexDigit? a, hexDigit? b, hexDigit? c, hexDigit? d with
    | some a, some b, some c, some d =>
      (stringBody? cs).map fun (l, rest) => (.unit (((a * 16 + b) * 16 + c) * 16 + d) :: l, rest)
    | _, _, _, _ => none
  | '\\' :: e :: cs =>
    match escape? e with
    | some c => (stringBody? cs).map fun (l, rest) => (.char c :: l, rest)
    | none => none
  | c :: cs =>
    if c.toNat < 32 ∨ c = '\\' then none
    else (stringBody? cs).map fun (l, rest) => (.char c :: l, rest)

/-- A word after its first letter. -/
def word? (tail : String) (j : Json) (cs : List Char) : Option (Json × List Char) :=
  if tail.toList.isPrefixOf cs then some (j, cs.drop tail.length) else none

mutual
/-- A value at the start of a text. Every call in a call has a shorter text, so the length of the text
bounds the calls. -/
def readValue? : Nat → List Char → Option (Json × List Char)
  | 0, _ => none
  | n + 1, cs =>
    match skipSpace cs with
    | '\x7b' :: cs =>
      match skipSpace cs with
      | '\x7d' :: cs => some (.object [], cs)
      | cs => (readFields? n cs).map fun (fields, rest) => (.object fields, rest)
    | '[' :: cs =>
      match skipSpace cs with
      | ']' :: cs => some (.array [], cs)
      | cs => (readItems? n cs).map fun (items, rest) => (.array items, rest)
    | '"' :: cs => (stringBody? cs).map fun (l, rest) => (.string l, rest)
    | 't' :: cs => word? "rue" (.bool true) cs
    | 'f' :: cs => word? "alse" (.bool false) cs
    | 'n' :: cs => word? "ull" .null cs
    | '-' :: cs => readNumber? true cs
    | cs => readNumber? false cs

def readItems? : Nat → List Char → Option (List Json × List Char)
  | 0, _ => none
  | n + 1, cs =>
    match readValue? n cs with
    | none => none
    | some (j, cs) =>
      match skipSpace cs with
      | ',' :: cs => (readItems? n cs).map fun (items, rest) => (j :: items, rest)
      | ']' :: cs => some ([j], cs)
      | _ => none

def readFields? : Nat → List Char → Option (List (StringLiteral × Json) × List Char)
  | 0, _ => none
  | n + 1, cs =>
    match skipSpace cs with
    | '"' :: cs =>
      match stringBody? cs with
      | none => none
      | some (key, cs) =>
        match skipSpace cs with
        | ':' :: cs =>
          match readValue? n cs with
          | none => none
          | some (j, cs) =>
            match skipSpace cs with
            | ',' :: cs => (readFields? n cs).map fun (fields, rest) => ((key, j) :: fields, rest)
            | '\x7d' :: cs => some ([(key, j)], cs)
            | _ => none
        | _ => none
    | _ => none
end

/-- The tree of a text that is one JSON value. -/
def read? (text : String) : Option Json :=
  let cs := text.toList
  match readValue? (2 * cs.length + 1) cs with
  | some (j, rest) => if skipSpace rest = [] then some j else none
  | none => none

end ImportCheck.Json
