import ImportCheck.Session.Basic

/-!
Emission. The program is built when it is first needed and kept until it is dropped; its diagnostics come
before everything else that it answers.
-/
namespace ImportCheck.Session

/-- Warms up the runtime library, once in the life of a session. -/
def warmUp (s : Session) : Session :=
  if s.warmed then s
  else { s with warmed := true, service := s.service.warmUp s.runtime }.report (.warmingUp s.runtime)

/-- The program that is there, or a new one of the files as they are now. -/
def currentProgram (s : Session) : Session × Program :=
  match s.program with
  | some program => (s, program)
  | none =>
    let (service, program) := s.service.buildProgram s.files s.options
    ({ s with service, program := some program }, program)

def emit (s : Session) (file : Path) : Session × Except Failure (List OutputFile) :=
  let (s, program) := s.warmUp.currentProgram
  if program.diagnostics ≠ [] then
    (s.report (.diagnosed file program.diagnostics.length),
      .error (.compilation program.diagnostics))
  else if program.skipsEmit then (s, .error .emitSkipped)
  else
    let outputs := program.outputs file
    (s.report (.emitted file outputs.length), .ok outputs)

end ImportCheck.Session
