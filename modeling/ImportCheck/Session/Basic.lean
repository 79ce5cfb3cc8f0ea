import ImportCheck.Event
import ImportCheck.Graph
import ImportCheck.Session.Service
import ImportCheck.Text.Quoted
import ImportCheck.Text.Snapshot

/-!
The state of a session: tracked files, the dependency graph, the files that are valid in this pass, the
service, and a record of all that happened.
-/
namespace ImportCheck

/-- A library file that every session starts with. -/
structure LibFile where
  name : Path
  text : String

namespace LibFile

/-- The runtime library of a session that is given none. -/
def runtime : LibFile where
  name := Path.ofString "/lib/runtime.d.ts"
  text := "declare var __awaiter: any;"

/-- The standard library of a session that is given none. -/
def standard : LibFile where
  name := Path.ofString "/lib/lib.d.ts"
  text := "interface Object \x7b\x7d\ninterface Array<T> \x7b\x7d"

end LibFile

structure Session where
  options : CompilerOptions
  cwd : Path
  files : FileStore
  graph : DependencyGraph
  valid : PathSet
  service : Service
  program : Option Program
  warmed : Bool
  runtime : Path
  defaultLib : Path
  trace : Array Occurrence

namespace Session

/-- A session that tracks the two libraries. -/
def new (options : CompilerOptions) (cwd : Path) (runtime defaultLib : LibFile) : Session where
  options
  cwd
  files := ((∅ : FileStore).add runtime.name runtime.text).add defaultLib.name defaultLib.text
  graph := ∅
  valid := ∅
  service := {}
  program := none
  warmed := false
  runtime := runtime.name
  defaultLib := defaultLib.name
  trace := #[.report (.sessionCreated cwd runtime.name defaultLib.name)]

def record (s : Session) (o : Occurrence) : Session := { s with trace := s.trace.push o }

def report (s : Session) (e : Event) : Session := s.record (.report e)

def reportAll (s : Session) (es : List Event) : Session := es.foldl report s

def isValid (s : Session) (file : Path) : Bool := s.valid.contains file

def addFile (s : Session) (file : Path) (text : String) : Session :=
  { s with files := s.files.add file text }

def updateFile (s : Session) (file : Path) (text : String) (checked : Bool) : Session × Bool :=
  let (files, changed) := s.files.update file text checked
  ({ s with files }, changed)

/-- Starts a new pass, in which no file is valid yet. -/
def invalidateAll (s : Session) : Session := { s with valid := ∅ }

/-- Drops the program, so that the next emission builds one. -/
def resetProgram (s : Session) : Session := { s with program := none }

/-- Starts over with a new service; the program belonged to the old one. -/
def resetService (s : Session) : Session :=
  { s with service := s.service.renew, program := none }.report .serviceReset

def sourceTree (s : Session) (file : Path) : Session × Option SourceTree :=
  let (service, tree) := s.service.sourceTree s.files file
  ({ s with service }, tree)

/-- The dependencies that a tracked file names. -/
def findImports (s : Session) (file : Path) : Session × Except Failure (List Dependency) :=
  match s.sourceTree file with
  | (s, none) => (s, .error (.service (.noSource file)))
  | (s, some tree) =>
    let found := tree.dependencies s.cwd
    let reports := found.filterMap fun
      | .specifier file specifier => some (Event.importFound file specifier)
      | .reference _ => none
    (s.reportAll reports, .ok found)

/-- A message of the service, which is passed on only by a verbose session. -/
def logMessage (s : Session) (message : String) : Session :=
  if s.options.verbose then s.report (.serviceMessage message) else s

def fileText? (s : Session) (file : Path) : Option String := s.files.text? file

def fileVersion? (s : Session) (file : Path) : Option Nat := s.files.version? file

def isTracked (s : Session) (file : Path) : Bool := s.files.contains file

/-- A part of a tracked text, by byte offsets. -/
def slice? (s : Session) (file : Path) (start stop : Nat) : Option String :=
  (s.fileText? file).map fun text => Text.slice text start stop

/-- The session in one line. -/
def summary (s : Session) : String :=
  "Session \x7b current_dir: " ++ Text.quote s.cwd.toString ++ ", files: " ++
    toString s.files.size ++ ", runtime_file: " ++ Text.quote s.runtime.toString ++ ", .. \x7d"

end Session

end ImportCheck
