import ImportCheck.Options.Basic
import ImportCheck.Options.Envelope
import ImportCheck.Options.Logging
import ImportCheck.Options.Variable
import ImportCheck.Toml.Document

/-!
The configuration of a session: defaults, under a settings file, under environment variables.
-/
namespace ImportCheck

structure SessionConfig where
  compiler : CompilerOptions := {}
  logging : LoggingConfig := {}

inductive ConfigError
  | options (e : SettingError)
  | settings (e : SettingError)
  | environment (e : SettingError)
  | brokenFile
  | unknownLevel (level : String)
  | loggingStarted
  | other (message : String)

namespace ConfigError

/-- A key of a variable as the environment spells it. -/
def capitals (key : String) : String := String.ofList (key.toList.map Char.toUpper)

def message : ConfigError → String
  | options e => "Invalid compiler options: " ++ e.message
  | settings e => "Failed to load configuration: " ++ e.message
  | environment e =>
    "Failed to read environment: " ++ e.fault.message ++ " for key " ++
      Text.quote (String.intercalate "." (e.keys.map capitals))
  | brokenFile => "Failed to load configuration: TOML parse error"
  | unknownLevel level =>
    "Invalid log level '" ++ level ++ "', must be one of: " ++
      String.intercalate ", " LoggingConfig.levels
  | loggingStarted =>
    "Failed to initialize logging: a global default trace dispatcher has already been set"
  | other message => message

end ConfigError

namespace SessionConfig

/-- The name of the settings file in a project directory. -/
def fileName : String := "tsloader.toml"

def toValue (c : SessionConfig) : Value :=
  .object [("compiler", c.compiler.toValue), ("logging", c.logging.toValue)]

/-- Variables name options in lower case or with underscores; the keys right under `compiler` are brought
to the spelling that the other layers use. -/
def canonicalSettings (fields : Fields) : Fields :=
  match Fields.get? fields "compiler" with
  | some (.object options) =>
    Fields.set fields "compiler" (.object (CompilerOptions.canonicalFields options))
  | _ => fields

def readCompiler (fields : Fields) : Except SettingError CompilerOptions :=
  match Fields.get? fields "compiler" with
  | some (.object options) => CompilerOptions.ofFields ["compiler"] options
  | some v => Value.fail ["compiler"] (.wrongType v "struct CompilerOptions")
  | none => .ok {}

def readLogging (fields : Fields) : Except SettingError LoggingConfig :=
  match Fields.get? fields "logging" with
  | some v => LoggingConfig.ofValue ["logging"] v
  | none => .ok {}

/-- The settings of the variables. -/
def ofEnvironment (environment : List (String × String)) : Except ConfigError Fields := do
  let fields ← (Envelope.openEach (Variable.settings environment)).mapError .environment
  return canonicalSettings fields

/-- The settings of a settings file. Whatever is wrong with it, it counts as broken. -/
def ofFile (text : String) : Except ConfigError Fields :=
  match (Toml.document? text).map Envelope.openEach with
  | some (.ok fields) => .ok fields
  | _ => .error .brokenFile

/-- The layers laid over each other. -/
def layers (file environment : Fields) : Fields :=
  let defaults : Fields :=
    [("compiler", CompilerOptions.toValue {}), ("logging", LoggingConfig.toValue {})]
  Value.mergeFields (Value.mergeFields defaults file) environment

/-- Reads the settings that the layers make up. -/
def ofFields (fields : Fields) : Except ConfigError SessionConfig := do
  let compiler ← (readCompiler fields).mapError .settings
  let logging ← (readLogging fields).mapError .settings
  if logging.HasKnownLevel then return { compiler, logging }
  else .error (.unknownLevel logging.level)

/-- The configuration of a project from the text of its settings file, if there is one, and the variables
of the environment. What is wrong with the variables is said first. -/
def load (file : Option String) (environment : List (String × String)) :
    Except ConfigError SessionConfig := do
  let environment ← ofEnvironment environment
  let file ← match file with
    | some text => ofFile text
    | none => .ok []
  ofFields (layers file environment)

end SessionConfig

end ImportCheck
