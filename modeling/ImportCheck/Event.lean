import ImportCheck.Failure

/-!
What a session reports while it works.
-/
namespace ImportCheck

inductive LogLevel
  | trace
  | debug
  | info
  | warn
deriving DecidableEq

/-- A report as it is logged: named texts beside a fixed message. -/
structure LogLine where
  level : LogLevel
  message : String
  fields : List (String × String)

inductive Event
  | sessionCreated (cwd runtime defaultLib : Path)
  | fileRead (file : Path) (changed : Bool)
  | fileChanged (file : Path)
  | alreadyValid (file : Path)
  | importFound (file : Path) (specifier : String)
  | checking (file : Path) (count : Nat)
  | resolved (file : Path) (specifier : String) (target : Path)
  | linked (source target : Path)
  | compiledSkipped (file target : Path)
  | checkFailed (file : Path) (failure : Failure)
  | warmingUp (runtime : Path)
  | diagnosed (file : Path) (count : Nat)
  | emitted (file : Path) (count : Nat)
  | serviceReset
  | serviceMessage (message : String)
  | probing (candidate : Path)
  | manifestIgnored (manifest : Path)
  | entryMissing (entry : Path)

namespace Event

def line : Event → LogLine
  | sessionCreated cwd runtime defaultLib => ⟨.info, "Session created",
      [("current_dir", cwd.toString), ("runtime", runtime.toString),
        ("default_lib", defaultLib.toString)]⟩
  | fileRead file changed => ⟨.debug, "Read file",
      [("file", file.toString), ("changed", toString changed)]⟩
  | fileChanged file => ⟨.info, "File changed, starting a new validity pass",
      [("file", file.toString)]⟩
  | alreadyValid file => ⟨.debug, "Already valid", [("file", file.toString)]⟩
  | importFound file specifier => ⟨.trace, "Found import",
      [("file", file.toString), ("specifier", specifier)]⟩
  | checking file count => ⟨.debug, "Checking dependencies",
      [("file", file.toString), ("count", toString count)]⟩
  | resolved file specifier target => ⟨.debug, "Resolved specifier",
      [("file", file.toString), ("specifier", specifier), ("resolved", target.toString)]⟩
  | linked source target => ⟨.debug, "Added dependency",
      [("from", source.toString), ("to", target.toString)]⟩
  | compiledSkipped file target => ⟨.debug, "Skipping compiled module",
      [("file", file.toString), ("module", target.toString)]⟩
  | checkFailed file failure => ⟨.warn, "Dependency check failed",
      [("file", file.toString), ("error", failure.message)]⟩
  | warmingUp runtime => ⟨.debug, "Warming up runtime library", [("runtime", runtime.toString)]⟩
  | diagnosed file count => ⟨.debug, "Emit produced diagnostics",
      [("file", file.toString), ("count", toString count)]⟩
  | emitted file count => ⟨.debug, "Emitted",
      [("file", file.toString), ("outputs", toString count)]⟩
  | serviceReset => ⟨.info, "Checking service reset", []⟩
  | serviceMessage message => ⟨.debug, message, []⟩
  | probing candidate => ⟨.trace, "Probing node_modules", [("candidate", candidate.toString)]⟩
  | manifestIgnored manifest => ⟨.debug, "Ignoring unreadable package manifest",
      [("path", manifest.toString)]⟩
  | entryMissing entry => ⟨.trace, "Manifest entry does not exist", [("entry", entry.toString)]⟩

end Event

/-- What happens in a session, in the order in which it happens: a report, the start of a walk through a
file's dependencies, or a question to the disk or the resolver. -/
inductive Occurrence
  | report (event : Event)
  | walk (file : Path)
  | read (path : Path)
  | call (directory : Path) (specifier : String)

end ImportCheck
