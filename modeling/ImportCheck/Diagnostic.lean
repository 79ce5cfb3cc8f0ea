import ImportCheck.Path.Basic
import ImportCheck.Options.Setting

/-!
What the checking service reports about a program, as a value of a data format and as a line of text.
-/
namespace ImportCheck

inductive Category
  | warning
  | error
  | message
deriving DecidableEq

namespace Category

def name : Category → String
  | warning => "warning"
  | error => "error"
  | message => "message"

def choices : Choices Category where
  title := "DiagnosticCategory"
  names := [("warning", warning), ("error", error), ("message", message)]
  inOrder := [warning, error, message]

end Category

/-- A report, with a place in a file unless it is about the whole program. -/
structure Diagnostic where
  file : Option Path
  start : Option UInt32
  length : Option UInt32
  message : String
  category : Category
  code : UInt32
deriving DecidableEq

namespace Diagnostic

/-- The report with a place in a file. -/
def inFile (d : Diagnostic) (file : Path) (start : UInt32) : Diagnostic :=
  { d with file := some file, start := some start }

def place (d : Diagnostic) : String :=
  match d.file, d.start with
  | none, _ => ""
  | some file, none => file.toString ++ ": "
  | some file, some start => file.toString ++ "(" ++ toString start.toNat ++ "): "

def line (d : Diagnostic) : String :=
  d.place ++ d.category.name ++ " TS" ++ toString d.code.toNat ++ ": " ++ d.message

/-- The data value of a report; what is absent has no field. -/
def toValue (d : Diagnostic) : Value :=
  let field (key : String) (v : Option Value) : List (String × Value) := (v.map (key, ·)).toList
  .object (
    [("category", .string d.category.name), ("code", .ofNat d.code.toNat)] ++
    field "file" (d.file.map (.string ·.toString)) ++
    field "length" (d.length.map (.ofNat ·.toNat)) ++
    [("message", .string d.message)] ++
    field "start" (d.start.map (.ofNat ·.toNat)))

/-- A whole number of 32 bits. -/
def word? : Value → Option UInt32
  | .number (.unsigned n) => if n < Nat.pow 2 32 then some n.toUInt32 else none
  | _ => none

def text? : Value → Option String
  | .string s => some s
  | _ => none

/-- A field that may be left out, by its absence or as null. -/
def optional? {α : Type} (read : Value → Option α) : Value → Option (Option α)
  | .null => some none
  | v => (read v).map some

/-- The six parts in their order. -/
def ofParts? (file start length message category code : Value) : Option Diagnostic := do
  let file ← optional? text? file
  let start ← optional? word? start
  let length ← optional? word? length
  let message ← text? message
  let category ← category.chosen? Category.choices
  let code ← word? code
  return { file := file.map Path.ofString, start, length, message, category, code }

/-- Reads a report from an object, of which other fields do not matter, or from a list of its parts. -/
def ofValue? : Value → Option Diagnostic
  | .object fields => do
    let part (key : String) : Value := (Fields.get? fields key).getD .null
    ofParts? (part "file") (part "start") (part "length") (part "message") (part "category")
      (part "code")
  | .array [file, start, length, message, category, code] =>
    ofParts? file start length message category code
  | _ => none

end Diagnostic

end ImportCheck
