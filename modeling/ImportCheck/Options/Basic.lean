import ImportCheck.Options.Key
import ImportCheck.Options.Setting

/-!
Compiler options. Four of them matter to a session and are typed; the others are kept as they are.
Options given by a caller are laid over the defaults key by key.
-/
namespace ImportCheck

/-- The language version that is emitted. -/
inductive ScriptTarget
  | es3
  | es5
  | es2015
  | esNext
deriving DecidableEq

namespace ScriptTarget

def name : ScriptTarget → String
  | es3 => "es3"
  | es5 => "es5"
  | es2015 => "es2015"
  | esNext => "esnext"

def choices : Choices ScriptTarget where
  title := "ScriptTarget"
  names := [("ES3", es3), ("es3", es3), ("ES5", es5), ("es5", es5), ("ES2015", es2015),
    ("ES6", es2015), ("es2015", es2015), ("es6", es2015), ("ESNext", esNext), ("esnext", esNext)]
  inOrder := [es3, es5, es2015, esNext]

end ScriptTarget

/-- The module system of emitted code. -/
inductive ModuleKind
  | none
  | commonJs
  | amd
  | umd
  | system
  | es2015
deriving DecidableEq

namespace ModuleKind

def name : ModuleKind → String
  | none => "none"
  | commonJs => "commonjs"
  | amd => "amd"
  | umd => "umd"
  | system => "system"
  | es2015 => "es2015"

def choices : Choices ModuleKind where
  title := "ModuleKind"
  names := [("None", none), ("none", none), ("CommonJS", commonJs), ("commonjs", commonJs),
    ("AMD", amd), ("amd", amd), ("UMD", umd), ("umd", umd), ("System", system), ("system", system),
    ("ES2015", es2015), ("es2015", es2015)]
  inOrder := [none, commonJs, amd, umd, system, es2015]

end ModuleKind

structure CompilerOptions where
  target : ScriptTarget := .es3
  moduleKind : ModuleKind := .commonJs
  sourceMap : Bool := true
  verbose : Bool := false
  extra : Fields := []

namespace Value

mutual
/-- The value as a data format can hold it: a letter becomes a text, and a number that is not finite
null. -/
def plain : Value → Value
  | .number (.float x) => if x.isFinite then .number (.float x) else .null
  | .letter c => .string (String.singleton c)
  | .array items => .array (plainItems items)
  | .object fields => .object (plainFields fields)
  | v => v

def plainItems : List Value → List Value
  | [] => []
  | v :: vs => plain v :: plainItems vs

def plainFields : List (String × Value) → List (String × Value)
  | [] => []
  | (key, v) :: rest => (key, plain v) :: plainFields rest
end

end Value

namespace CompilerOptions

/-- The keys of the typed options, in key order. -/
def typedKeys : List String := ["module", "sourceMap", "target", "verbose"]

/-- Reads one typed option. A missing one has its default; the keys lead to the options. -/
def typed {α : Type} (fields : Fields) (keys : List String) (key : String) (default : α)
    (read : List String → Value → Except SettingError α) : Except SettingError α :=
  match Fields.get? fields key with
  | some v => read (keys ++ [key]) v
  | none => .ok default

/-- Reads options under canonical keys. The first fault in key order is reported. -/
def ofFields (keys : List String) (fields : Fields) : Except SettingError CompilerOptions := do
  let moduleKind ← typed fields keys "module" .commonJs (Value.asChoice ModuleKind.choices)
  let sourceMap ← typed fields keys "sourceMap" true Value.asBool
  let target ← typed fields keys "target" .es3 (Value.asChoice ScriptTarget.choices)
  let verbose ← typed fields keys "verbose" false Value.asBool
  let extra := Value.plainFields (fields.filter fun f => !typedKeys.contains f.1)
  return { target, moduleKind, sourceMap, verbose, extra }

def toFields (o : CompilerOptions) : Fields :=
  let fields := Fields.set o.extra "module" (.string o.moduleKind.name)
  let fields := Fields.set fields "sourceMap" (.bool o.sourceMap)
  let fields := Fields.set fields "target" (.string o.target.name)
  Fields.set fields "verbose" (.bool o.verbose)

def toValue (o : CompilerOptions) : Value := .object o.toFields

/-- Fields under their canonical keys. Of several keys with one canonical key the last one counts. -/
def canonicalFields (fields : Fields) : Fields :=
  Fields.ofList (fields.map fun f => (OptionKey.canonical f.1, f.2))

/-- The defaults with overrides laid over them. -/
def merged (overrides : Value) : Except SettingError CompilerOptions :=
  match overrides with
  | .null => .ok {}
  | .object fields =>
    ofFields [] (Value.mergeFields (toFields {}) (canonicalFields fields))
  | v => Value.fail [] (.wrongType v "map")

end CompilerOptions

end ImportCheck
