import ImportCheck.Disk.Basic
import ImportCheck.Resolution.Basic
import ImportCheck.Session.Emission

/-!
Work in progress. A task is a tree: its leaves wait for the disk, for the resolver, or to be started, and an
inner node waits for its parts. Work happens at one leaf at a time and goes on until the leaf has to wait
again; which leaf is next is left open here.

A file is marked valid before its dependencies are looked at, so that a cycle back to it ends; a check
that fails takes its own mark back.
-/
namespace ImportCheck

/-- What a session can be asked to do. -/
inductive Request
  | check (file : Path)
  | follow (file : Path) (specifier : String)
  | resolve (file : Path) (specifier : String)
  | findImports (file : Path)
  | readText (file : Path)
  | readTextNow (file : Path)
  | readAndAdd (file : Path)
  | readAndUpdate (file : Path) (checked : Bool)
  | readAndUpdateNow (file : Path) (checked : Bool)
  | fileChanged (file : Path)
  | emit (file : Path)
  | addFile (file : Path) (text : String)
  | updateFile (file : Path) (text : String) (checked : Bool)
  | invalidateAll
  | resetProgram
  | resetService
  | sourceTree (file : Path)
  | logMessage (message : String)

/-- What a request is answered with. -/
inductive Answer
  | unit
  | flag (b : Bool)
  | text (s : String)
  | path (p : Path)
  | found (dependencies : List Dependency)
  | outputs (files : List OutputFile)
  | tree (t : Option SourceTree)

abbrev Outcome := Except Failure Answer

/-- What is done with a text when it has been read. A walk that was registered as a declaration takes the
registration back when it fails. -/
inductive ReadGoal
  | deliver
  | add
  | update (checked : Bool)
  | refresh
  | walk (registered : Bool)

/-- What is done with the target of a specifier: it is given back, or checked for the file that asked. -/
inductive ResolveGoal
  | deliver
  | follow

/-- Work that is not done yet, or its outcome. What waits is due in the round of its number. -/
inductive Task
  | start (request : Request)
  | reading (file : Path) (goal : ReadGoal) (due : Nat)
  | resolving (file : Path) (specifier candidate : String) (rest : List String) (goal : ResolveGoal)
      (due : Nat)
  | walk (file : Path) (registered : Bool) (parts : List Task)
  | group (parts : List Task)
  | done (outcome : Outcome)

instance : Inhabited Task := ⟨.group []⟩

/-- What a session works on: the disk and the resolver as they are at a moment. -/
structure Surroundings where
  disk : Disk
  resolver : Resolver

namespace Task

def outcome? : Task → Option Outcome
  | done outcome => some outcome
  | _ => none

/-- The first failure of parts that are done, in their order. -/
def firstFailure? (parts : List Task) : Option Failure :=
  parts.findSome? fun
    | done (.error e) => some e
    | _ => none

/-- Ends a walk that failed: its mark goes, and so does its registration. -/
def failWalk (s : Session) (file : Path) (registered : Bool) (e : Failure) : Session × Task :=
  let s := { s with valid := s.valid.erase file }.report (.checkFailed file e)
  let s := if registered then { s with graph := s.graph.removeDeclaration file } else s
  (s, done (.error e))

/-- A walk whose parts may all be done by now. -/
def settle (s : Session) (file : Path) (registered : Bool) (parts : List Task) : Session × Task :=
  if parts.all (·.outcome?.isSome) then
    match firstFailure? parts with
    | some e => failWalk s file registered e
    | none => (s, done (.ok .unit))
  else (s, walk file registered parts)

/-- Looks at the dependencies of a tracked file, and starts on each. -/
def scan (s : Session) (file : Path) (registered : Bool) : Session × Task :=
  match s.findImports file with
  | (s, .error e) => failWalk s file registered e
  | (s, .ok found) =>
    let specifiers := found.map (·.text)
    let s := s.report (.checking file specifiers.length)
    settle s file registered (specifiers.map fun t => start (.follow file t))

def startReading (w : Surroundings) (now : Nat) (s : Session) (file : Path) (goal : ReadGoal) :
    Session × Task :=
  (s.record (.read file), reading file goal (now + w.disk.delay file))

/-- Checks a file unless it is valid. Its links are dropped and it is marked valid before anything can wait;
a file that is not tracked is read first. -/
def check (w : Surroundings) (now : Nat) (s : Session) (file : Path) (registered : Bool) :
    Session × Task :=
  if s.isValid file then (s.report (.alreadyValid file), done (.ok .unit))
  else
    let s := { s with
      graph := s.graph.clearDependencies file
      valid := s.valid.add file }.record (.walk file)
    if s.isTracked file then scan s file registered
    else startReading w now s file (.walk registered)

/-- Goes on with the target of a specifier. A declaration is checked only by the first to register it, and
a compiled module never; a source is linked and checked. -/
def reach (w : Surroundings) (now : Nat) (s : Session) (file : Path) (specifier : String)
    (goal : ResolveGoal) (target : Path) : Session × Task :=
  let s := s.report (.resolved file specifier target)
  match goal with
  | .deliver => (s, done (.ok (.path target)))
  | .follow =>
    match target.kind with
    | .declaration =>
      let (graph, new) := s.graph.addDeclaration target
      let s := { s with graph }
      if new then check w now s target true else (s, done (.ok .unit))
    | .compiled => (s.report (.compiledSkipped file target), done (.ok .unit))
    | .source =>
      let s := { s with graph := s.graph.addDependency file target }.report (.linked file target)
      check w now s target false

/-- Puts a candidate for a specifier to the resolver. -/
def call (w : Surroundings) (now : Nat) (s : Session) (file : Path) (specifier candidate : String)
    (rest : List String) (goal : ResolveGoal) : Session × Task :=
  let directory := file.directory
  (s.record (.call directory candidate),
    resolving file specifier candidate rest goal
      (now + (w.resolver.answer directory candidate).delay))

def startResolving (w : Surroundings) (now : Nat) (s : Session) (file : Path) (specifier : String)
    (goal : ResolveGoal) : Session × Task :=
  match Specifier.direct? specifier with
  | some target => reach w now s file specifier goal target
  | none =>
    let (candidate, rest) := Specifier.candidates specifier
    call w now s file specifier candidate rest goal

/-- Takes the resolver's answer. After a failure the next candidate has its turn, and the last failure is
the one that counts. -/
def finishCall (w : Surroundings) (now : Nat) (s : Session) (file : Path) (specifier candidate : String)
    (rest : List String) (goal : ResolveGoal) : Session × Task :=
  let resolution := w.resolver.answer file.directory candidate
  let s := s.reportAll resolution.reports
  match resolution.result, rest with
  | .ok target, _ => reach w now s file specifier goal target
  | .error _, next :: rest => call w now s file specifier next rest goal
  | .error cause, [] => (s, done (.error (.resolution file cause)))

/-- Stores a text that was read. -/
def storeRead (s : Session) (file : Path) (text : String) (checked : Bool) : Session × Bool :=
  let (s, changed) := s.updateFile file text checked
  (s.report (.fileRead file changed), changed)

/-- Takes what is on the disk now. -/
def finishReading (w : Surroundings) (s : Session) (file : Path) (goal : ReadGoal) : Session × Task :=
  match w.disk.read file, goal with
  | .error fault, .walk registered => failWalk s file registered (.io file fault)
  | .error fault, _ => (s, done (.error (.io file fault)))
  | .ok text, .deliver => (s, done (.ok (.text text)))
  | .ok text, .add => (s.addFile file text, done (.ok .unit))
  | .ok text, .update checked =>
    let (s, changed) := storeRead s file text checked
    (s, done (.ok (.flag changed)))
  | .ok text, .refresh =>
    let (s, changed) := storeRead s file text true
    let s := if changed then s.invalidateAll.resetProgram.report (.fileChanged file) else s
    (s, done (.ok (.flag changed)))
  | .ok text, .walk registered => scan (storeRead s file text false).1 file registered

/-- Starts what was asked for. What has nothing to wait for is done at once. -/
def begin (w : Surroundings) (now : Nat) (s : Session) : Request → Session × Task
  | .check file => check w now s file false
  | .follow file specifier => startResolving w now s file specifier .follow
  | .resolve file specifier => startResolving w now s file specifier .deliver
  | .findImports file =>
    let (s, found) := s.findImports file
    (s, done (found.map .found))
  | .readText file => startReading w now s file .deliver
  | .readTextNow file => finishReading w (s.record (.read file)) file .deliver
  | .readAndAdd file => startReading w now s file .add
  | .readAndUpdate file checked => startReading w now s file (.update checked)
  | .readAndUpdateNow file checked =>
    let s := s.record (.read file)
    match w.disk.read file with
    | .error fault => (s, done (.error (.io file fault)))
    | .ok text =>
      let (s, changed) := s.updateFile file text checked
      (s, done (.ok (.flag changed)))
  | .fileChanged file => startReading w now s file .refresh
  | .emit file =>
    let (s, outputs) := s.emit file
    (s, done (outputs.map .outputs))
  | .addFile file text => (s.addFile file text, done (.ok .unit))
  | .updateFile file text checked =>
    let (s, changed) := s.updateFile file text checked
    (s, done (.ok (.flag changed)))
  | .invalidateAll => (s.invalidateAll, done (.ok .unit))
  | .resetProgram => (s.resetProgram, done (.ok .unit))
  | .resetService => (s.resetService, done (.ok .unit))
  | .sourceTree file =>
    let (s, tree) := s.sourceTree file
    (s, done (.ok (.tree tree)))
  | .logMessage message => (s.logMessage message, done (.ok .unit))

/-- Works at the leaf that a list of positions leads to, until it has to wait again. -/
def advance (w : Surroundings) (now : Nat) : List Nat → Session → Task → Session × Task
  | i :: rest, s, walk file registered parts =>
    match parts[i]? with
    | some part =>
      let (s, part) := advance w now rest s part
      settle s file registered (parts.set i part)
    | none => (s, walk file registered parts)
  | i :: rest, s, group parts =>
    match parts[i]? with
    | some part =>
      let (s, part) := advance w now rest s part
      (s, group (parts.set i part))
    | none => (s, group parts)
  | _, s, start request => begin w now s request
  | _, s, reading file goal _ => finishReading w s file goal
  | _, s, resolving file specifier candidate rest goal _ =>
    finishCall w now s file specifier candidate rest goal
  | _, s, t => (s, t)

end Task

end ImportCheck
