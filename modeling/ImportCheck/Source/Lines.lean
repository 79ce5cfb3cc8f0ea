import ImportCheck.Source.Tree
import ImportCheck.Text.Search

/-!
Files with at most one import or reference on a line, written `/// <reference path="../typings/node.d.ts" />`,
`import { x } from './b';`, `import fs = require('fs');` or `import './side-effect';`. Any other line is
passed over.
-/
namespace ImportCheck

/-- What a line says. -/
inductive SourceLine
  | reference (target : List Char)
  | assignment (target : ModuleReference)
  | declaration (specifier : List Char)
  | silent

namespace SourceLine

/-- The quoted text after the first occurrence of a name. -/
def attribute? (name cs : List Char) : Option (List Char) :=
  (Text.splitFirst? name cs).bind fun (_, rest) => Text.quoted? rest

/-- What follows `=` in an import: a required module, or the name of an entity. -/
def ofTarget (cs : List Char) : ModuleReference :=
  let target := Text.trim (Text.trimEndWhile (· == ';') cs)
  match Text.after? "require(".toList target with
  | some inner => .external (String.ofList ((Text.quoted? inner).getD []))
  | none => .entity (String.ofList target)

/-- What follows the word `import`. -/
def ofImport (cs : List Char) : SourceLine :=
  match Text.splitFirst? " = ".toList cs with
  | some (_, target) => assignment (ofTarget target)
  | none =>
    let source := ((Text.splitFirst? " from ".toList cs).map (·.2)).getD cs
    match Text.quoted? source with
    | some specifier => declaration specifier
    | none => silent

def ofChars (cs : List Char) : SourceLine :=
  let line := Text.trim cs
  match Text.after? "///".toList line, Text.after? "import ".toList line with
  | some rest, _ =>
    match attribute? "path=".toList rest with
    | some target => reference target
    | none => silent
  | none, some rest => ofImport rest
  | none, none => silent

def reference? : SourceLine → Option String
  | reference target => some (String.ofList target)
  | _ => none

/-- The node of a line that imports. -/
def tree? (file : Path) : SourceLine → Option SourceTree
  | assignment target => some (.node .importEquals file (some target) [] [])
  | declaration specifier =>
    some (.node .importDeclaration file (some (.external (String.ofList specifier))) [] [])
  | _ => none

end SourceLine

/-- The tree of a file: its references, and below it its imports. -/
def SourceTree.ofText (file : Path) (text : String) : SourceTree :=
  let lines := (Text.lines text.toList).map SourceLine.ofChars
  .node .sourceFile file none (lines.filterMap (·.reference?)) (lines.filterMap (·.tree? file))

end ImportCheck
