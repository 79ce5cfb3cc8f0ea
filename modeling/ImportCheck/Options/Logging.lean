import ImportCheck.Options.Setting

/-!
How much a session logs, and in which form.
-/
namespace ImportCheck

inductive LogFormat
  | pretty
  | json
deriving DecidableEq

namespace LogFormat

def name : LogFormat → String
  | pretty => "pretty"
  | json => "json"

def choices : Choices LogFormat where
  title := "LogFormat"
  names := [("pretty", pretty), ("json", json)]
  inOrder := [pretty, json]

end LogFormat

structure LoggingConfig where
  level : String := "info"
  format : LogFormat := .pretty
deriving DecidableEq

namespace LoggingConfig

/-- The levels, from the most talkative to the least. -/
def levels : List String := ["trace", "debug", "info", "warn", "error"]

def HasKnownLevel (c : LoggingConfig) : Prop := c.level ∈ levels

instance (c : LoggingConfig) : Decidable c.HasKnownLevel := inferInstanceAs (Decidable (_ ∈ _))

def toValue (c : LoggingConfig) : Value :=
  .object [("format", .string c.format.name), ("level", .string c.level)]

/-- Reads a field if it is there. -/
def field? {α : Type} (fields : Fields) (keys : List String) (key : String)
    (read : List String → Value → Except SettingError α) : Except SettingError (Option α) :=
  match Fields.get? fields key with
  | some v => (read (keys ++ [key]) v).map some
  | none => .ok none

/-- Reads the settings of an object with the two fields, or of a list that starts with level and
format. -/
def ofValue (keys : List String) : Value → Except SettingError LoggingConfig
  | .object fields => do
    let format ← field? fields keys "format" (Value.asChoice LogFormat.choices)
    let level ← field? fields keys "level" Value.asString
    match level, format with
    | some level, some format => return { level, format }
    | none, _ => Value.fail keys (.missing "level")
    | _, none => Value.fail keys (.missing "format")
  | .array (level :: rest) => do
    let level ← level.asString (keys ++ ["0"])
    match rest with
    | [] => Value.fail keys (.wrongLength 1 "struct LoggingConfig with 2 elements")
    | format :: _ =>
      let format ← format.asChoice LogFormat.choices (keys ++ ["1"])
      return { level, format }
  | .array [] => Value.fail keys (.wrongLength 0 "struct LoggingConfig with 2 elements")
  | v => Value.fail keys (.wrongType v "struct LoggingConfig")

/-- The settings that a data value describes: an object with both fields, or a list of just the two. -/
def decode? : Value → Option LoggingConfig
  | .object fields =>
    match Fields.get? fields "level", (Fields.get? fields "format").bind (·.chosen? LogFormat.choices) with
    | some (.string level), some format => some { level, format }
    | _, _ => none
  | .array [.string level, format] => (format.chosen? LogFormat.choices).map ({ level, format := · })
  | _ => none

end LoggingConfig

end ImportCheck
