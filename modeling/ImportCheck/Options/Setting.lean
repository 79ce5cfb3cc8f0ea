import ImportCheck.Value.Basic
import ImportCheck.Text.Quoted

/-!
Typed settings read from values, and what is said when a value does not fit.
-/
namespace ImportCheck

namespace Value

/-- What a message calls a value of the wrong type. -/
def described : Value → String
  | .null => "unit"
  | .bool true => "bool true"
  | .bool false => "bool false"
  | .number (.float x) => "float `" ++ String.ofList x.messageText ++ "`"
  | .number (.signed i) => "signed int `" ++ String.ofList (Number.text (.signed i)) ++ "`"
  | .number n => "unsigned int `" ++ String.ofList n.text ++ "`"
  | .letter c => "string " ++ Text.quote (String.singleton c)
  | .string s => "string " ++ Text.quote s
  | .array _ => "sequence"
  | .object _ => "map"

end Value

inductive SettingFault
  | wrongType (found : Value) (expected : String)
  | unknownName (found : String) (known : List String)
  | outOfRange (found count : Nat)
  | wrongLength (found : Nat) (expected : String)
  | missing (key : String)

/-- A fault and the keys that lead to the value at fault. -/
structure SettingError where
  fault : SettingFault
  keys : List String

namespace SettingFault

def backquoted (s : String) : String := "`" ++ s ++ "`"

/-- The names that are allowed, as a phrase. -/
def alternatives (names : List String) : String :=
  match names.map backquoted with
  | [a, b] => a ++ " or " ++ b
  | quoted => "one of " ++ String.intercalate ", " quoted

def message : SettingFault → String
  | wrongType found expected => "invalid type: found " ++ found.described ++ ", expected " ++ expected
  | unknownName found known =>
    "unknown variant: found " ++ backquoted found ++ ", expected " ++ backquoted (alternatives known)
  | outOfRange found count =>
    "invalid value unsigned int " ++ backquoted (toString found) ++
      ", expected variant index 0 <= i < " ++ toString count
  | wrongLength found expected =>
    "invalid length " ++ toString found ++ ", expected " ++ expected
  | missing key => "missing field " ++ backquoted key

end SettingFault

def SettingError.message (e : SettingError) : String :=
  e.fault.message ++
    if e.keys = [] then "" else " for key " ++ Text.quote (String.intercalate "." ("default" :: e.keys))

/-- A setting that is one of finitely many. Every choice has its place, and one name or more. -/
structure Choices (α : Type) where
  title : String
  names : List (String × α)
  inOrder : List α

namespace Value

variable {α : Type}

/-- A fault of the value that the keys lead to. -/
def fail (keys : List String) (fault : SettingFault) : Except SettingError α := .error ⟨fault, keys⟩

def asBool (keys : List String) : Value → Except SettingError Bool
  | .bool b => .ok b
  | v => fail keys (.wrongType v "a boolean")

def asString (keys : List String) : Value → Except SettingError String
  | .letter c => .ok (String.singleton c)
  | .string s => .ok s
  | v => fail keys (.wrongType v "a string")

def choose (choices : Choices α) (keys : List String) (name : String) : Except SettingError α :=
  match choices.names.find? (·.1 == name) with
  | some (_, a) => .ok a
  | none => fail keys (.unknownName name (choices.names.map (·.1)))

/-- A choice is given by a name, by an object whose first key in key order is the name, or by its place
where the number comes from a variable. The other fields of the object do not count. -/
def asChoice (choices : Choices α) (keys : List String) : Value → Except SettingError α
  | .string s => choose choices keys s
  | .object ((name, v) :: _) => do
    let a ← choose choices (keys ++ [name]) name
    match v with
    | .null => return a
    | v => fail (keys ++ [name]) (.wrongType v "unit")
  | .object [] => fail keys (.wrongType (.object []) "enum")
  | .number (.place n) =>
    match choices.inOrder[n.toNat]? with
    | some a => .ok a
    | none => fail keys (.outOfRange n.toNat choices.inOrder.length)
  | v => fail keys (.wrongType v ("enum " ++ choices.title))

/-- The choice that a data value makes: a name, or an object whose only key is the name. -/
def chosen? (choices : Choices α) : Value → Option α
  | .string s => (choices.names.find? (·.1 == s)).map (·.2)
  | .object [(name, .null)] => (choices.names.find? (·.1 == name)).map (·.2)
  | _ => none

end Value

end ImportCheck
