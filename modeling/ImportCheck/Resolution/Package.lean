import ImportCheck.Json.Reader

/-!
The manifest of a package, as far as it says where the package is entered.
-/
namespace ImportCheck

structure PackageManifest where
  typings : Option String := none
  types : Option String := none
  main : Option String := none
deriving DecidableEq

namespace PackageManifest

/-- The first entry that is declared: typings before types before the main module. -/
def entry? (m : PackageManifest) : Option String := m.typings.or (m.types.or m.main)

/-- An entry may be null, which declares nothing. -/
def entryValue? : Json → Option (Option String)
  | .null => some none
  | .string l => l.text?.map some
  | _ => none

/-- What the fields seen so far declare; a field that was not seen is not there. -/
structure Partial where
  typings : Option (Option String) := none
  types : Option (Option String) := none
  main : Option (Option String) := none

/-- Reads a field. A known one comes once and is a text or null; any other may hold anything, but its name
has to be a text. -/
def addField? (m : Partial) (field : StringLiteral × Json) : Option Partial := do
  let key ← field.1.text?
  if key = "typings" then
    if m.typings.isSome then none
    else return { m with typings := some (← entryValue? field.2) }
  else if key = "types" then
    if m.types.isSome then none
    else return { m with types := some (← entryValue? field.2) }
  else if key = "main" then
    if m.main.isSome then none
    else return { m with main := some (← entryValue? field.2) }
  else return m

/-- Reads a manifest from an object, or from the list of the three entries. -/
def ofJson? : Json → Option PackageManifest
  | .object fields => do
    let m ← fields.foldlM addField? {}
    return { typings := m.typings.join, types := m.types.join, main := m.main.join }
  | .array [typings, types, main] => do
    return { typings := ← entryValue? typings, types := ← entryValue? types,
             main := ← entryValue? main }
  | _ => none

def ofText? (text : String) : Option PackageManifest := (Json.read? text).bind ofJson?

end PackageManifest

end ImportCheck
