import ImportCheck.Number.Shortest

/-!
Settings values: what data files, settings files and variables hold. An object is a list of fields in
key order with one field for a key; `Fields.set` keeps it so.
-/
namespace ImportCheck

/-- A number remembers which notation it was read from. Two integers of different kinds differ only in
messages, and in that one of 32 bits that comes from a variable can stand for a choice by its place. -/
inductive Number
  | unsigned (n : Nat)
  | signed (i : Int)
  | place (n : UInt32)
  | float (x : Binary64)
deriving DecidableEq

namespace Number

def text : Number → List Char
  | .unsigned n => Nat.toDigits 10 n
  | .signed i => (if i < 0 then ['-'] else []) ++ Nat.toDigits 10 i.natAbs
  | .place n => Nat.toDigits 10 n.toNat
  | .float x => x.dataText

end Number

/-- A value. A letter is a text that a variable holds as one character in single quotation marks; it serves
as a text, but names no choice. -/
inductive Value
  | null
  | bool (b : Bool)
  | number (n : Number)
  | letter (c : Char)
  | string (s : String)
  | array (items : List Value)
  | object (fields : List (String × Value))

instance : Inhabited Value := ⟨.null⟩

/-- The fields of an object. -/
abbrev Fields := List (String × Value)

namespace Fields

def get? (fields : Fields) (key : String) : Option Value :=
  (fields.find? fun f => f.1 == key).map (·.2)

/-- Puts a field in its place in key order; a field of the same key gives way. -/
def set : Fields → String → Value → Fields
  | [], key, v => [(key, v)]
  | (k, w) :: rest, key, v =>
    if key = k then (key, v) :: rest
    else if key < k then (key, v) :: (k, w) :: rest
    else (k, w) :: set rest key v

def erase (fields : Fields) (key : String) : Fields := fields.filter fun f => f.1 != key

/-- Of several fields with one key the last one stands. -/
def ofList (fields : List (String × Value)) : Fields :=
  fields.foldl (fun acc f => Fields.set acc f.1 f.2) []

end Fields

namespace Value

def ofNat (n : Nat) : Value := .number (.unsigned n)

def ofFields (fields : List (String × Value)) : Value := .object (Fields.ofList fields)

def isNull : Value → Bool
  | .null => true
  | _ => false

mutual
/-- The second value laid over the first: objects are united field by field, and anything else
replaces what was there. -/
def merge : Value → Value → Value
  | .object base, .object upper => .object (mergeFields base upper)
  | _, upper => upper

def mergeFields (base : List (String × Value)) : List (String × Value) → List (String × Value)
  | [] => base
  | (key, v) :: rest =>
    mergeFields (Fields.set base key (match Fields.get? base key with
      | some old => merge old v
      | none => v)) rest
end

end Value

end ImportCheck
