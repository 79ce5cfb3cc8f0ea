import ImportCheck.Options.Setting

/-!
Envelopes: objects that stand for the value in one of their fields. An envelope may carry a number that
says where its value is from, and its other fields do not count.
-/
namespace ImportCheck.Envelope

/-- The key of the field that holds the value. -/
def valueKey : String := "___figment_value_value"

/-- The key of the field that holds the number. An object without a value loses it. -/
def idKey : String := "___figment_value_id"

/-- Whether a value can be the number of an envelope. Integers with a sign cannot. -/
def isId : Value → Bool
  | .number (.unsigned _) => true
  | .number (.place _) => true
  | _ => false

/-- What stands for an object whose fields have been opened. -/
def content (fields : Fields) : Value :=
  match Fields.get? fields valueKey with
  | some v => v
  | none => .object (Fields.erase fields idKey)

/-- The keys that lead to a value under a key. Every value counts as the content of an envelope of its own,
but for the one that an envelope holds. -/
def keysUnder (keys : List String) (key : String) : List String :=
  if key = valueKey then keys ++ [valueKey] else keys ++ [key, valueKey]

mutual
/-- A value without the envelopes in it. Of several bad numbers the first in key order is reported. -/
def openValue (keys : List String) : Value → Except SettingError Value
  | .array items => (openItems keys 0 items).map .array
  | .object fields => (openFields keys fields).map content
  | v => .ok v

def openItems (keys : List String) (place : Nat) : List Value → Except SettingError (List Value)
  | [] => .ok []
  | v :: vs => do
    let v ← openValue (keysUnder keys (toString place)) v
    let vs ← openItems keys (place + 1) vs
    return v :: vs

def openFields (keys : List String) : List (String × Value) → Except SettingError Fields
  | [] => .ok []
  | (key, v) :: rest => do
    let v ←
      if key = idKey then
        if isId v then .ok v else Value.fail (keys ++ [key]) (.wrongType v "a 64-bit metadata id integer")
      else openValue (keysUnder keys key) v
    let rest ← openFields keys rest
    return (key, v) :: rest
end

/-- Opens the values of fields that are no envelope themselves. -/
def openEach : Fields → Except SettingError Fields
  | [] => .ok []
  | (key, v) :: rest => do
    let v ← openValue [key, valueKey] v
    let rest ← openEach rest
    return (key, v) :: rest

end ImportCheck.Envelope
