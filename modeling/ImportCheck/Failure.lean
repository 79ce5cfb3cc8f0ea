import ImportCheck.Diagnostic
import ImportCheck.Options.Config

/-!
Everything that can go wrong in a session, with the texts that are shown for it.
-/
namespace ImportCheck

inductive IoKind
  | notFound
  | permissionDenied
  | interrupted
  | invalidData
  | invalidInput
  | timedOut
  | notADirectory
  | isADirectory
  | invalidFilename
  | other
deriving DecidableEq

namespace IoKind

def text : IoKind → String
  | notFound => "entity not found"
  | permissionDenied => "permission denied"
  | interrupted => "operation interrupted"
  | invalidData => "invalid data"
  | invalidInput => "invalid input parameter"
  | timedOut => "timed out"
  | notADirectory => "not a directory"
  | isADirectory => "is a directory"
  | invalidFilename => "invalid filename"
  | other => "other error"

end IoKind

/-- Why a file could not be read. -/
structure IoFault where
  kind : IoKind
  detail : Option String := none
deriving DecidableEq

def IoFault.message (f : IoFault) : String := f.detail.getD f.kind.text

/-- Why a specifier has no target, as its resolver says, and what made the resolver say so. -/
structure ResolverFault where
  message : String
  source : Option String := none
deriving DecidableEq

inductive ServiceError
  | noSource (file : Path)
  | other (message : String)

def ServiceError.message : ServiceError → String
  | noSource file => "No source file available for " ++ file.toString
  | other message => message

inductive Failure
  | resolution (file : Path) (cause : ResolverFault)
  | compilation (diagnostics : List Diagnostic)
  | emitSkipped
  | io (path : Path) (fault : IoFault)
  | service (cause : ServiceError)
  | configuration (cause : ConfigError)

namespace Failure

def message : Failure → String
  | resolution file cause => cause.message ++ "\n    Required in " ++ file.toString
  | compilation diagnostics =>
    "Compilation failed with " ++ toString diagnostics.length ++ " diagnostic(s)" ++
      String.join (diagnostics.map fun d => "\n" ++ d.line)
  | emitSkipped => "Emit skipped"
  | io path fault => "I/O error reading " ++ path.toString ++ ": " ++ fault.message
  | service cause => "Checking service error: " ++ cause.message
  | configuration cause => "Configuration error: " ++ cause.message

/-- The texts of what caused the failure, nearest first. -/
def causes : Failure → List String
  | resolution _ cause => cause.message :: cause.source.toList
  | io _ fault => [fault.message]
  | _ => []

def diagnostics? : Failure → Option (List Diagnostic)
  | compilation diagnostics => some diagnostics
  | _ => none

end Failure

end ImportCheck
