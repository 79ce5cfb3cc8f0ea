import ImportCheck.Json.Reader

/-!
Writing values as JSON text without blanks. A floating-point number always has a point or an exponent,
so that it never reads back as an integer.
-/
namespace ImportCheck

namespace Json

def hexChars (n : Nat) : List Char := Nat.toDigits 16 n

/-- A character inside a string. -/
def escaped (c : Char) : List Char :=
  if c = '"' then ['\\', '"']
  else if c = '\\' then ['\\', '\\']
  else if c = '\n' then ['\\', 'n']
  else if c = '\r' then ['\\', 'r']
  else if c = '\t' then ['\\', 't']
  else if c.toNat < 16 then "\\u000".toList ++ hexChars c.toNat
  else if c.toNat < 32 then "\\u00".toList ++ hexChars c.toNat
  else [c]

def stringBefore (s : String) (rest : List Char) : List Char :=
  '"' :: s.toList.foldr (fun c rest => escaped c ++ rest) ('"' :: rest)

end Json

namespace Value

mutual
/-- The text of a value in front of a text. -/
def jsonBefore : Value → List Char → List Char
  | .null, rest => 'n' :: 'u' :: 'l' :: 'l' :: rest
  | .bool true, rest => 't' :: 'r' :: 'u' :: 'e' :: rest
  | .bool false, rest => 'f' :: 'a' :: 'l' :: 's' :: 'e' :: rest
  | .number n, rest => n.text ++ rest
  | .letter c, rest => Json.stringBefore (String.singleton c) rest
  | .string s, rest => Json.stringBefore s rest
  | .array [], rest => '[' :: ']' :: rest
  | .array (v :: vs), rest => '[' :: jsonBefore v (itemsBefore vs rest)
  | .object [], rest => '\x7b' :: '\x7d' :: rest
  | .object ((key, v) :: fields), rest =>
    '\x7b' :: Json.stringBefore key (':' :: jsonBefore v (fieldsBefore fields rest))

def itemsBefore : List Value → List Char → List Char
  | [], rest => ']' :: rest
  | v :: vs, rest => ',' :: jsonBefore v (itemsBefore vs rest)

def fieldsBefore : List (String × Value) → List Char → List Char
  | [], rest => '\x7d' :: rest
  | (key, v) :: fields, rest =>
    ',' :: Json.stringBefore key (':' :: jsonBefore v (fieldsBefore fields rest))
end

def json (v : Value) : String := String.ofList (v.jsonBefore [])

/-- The value of a JSON text. -/
def ofJson? (text : String) : Option Value := (Json.read? text).bind (·.value?)

end Value

end ImportCheck
