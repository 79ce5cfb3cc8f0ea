import ImportCheck.Proofs.Check.Emitted

/-!
# What an emission depends on

An emission answers from the program that is there, or from the one that is built for it. Besides the texts it depends
on little of the session, and checks leave that alone.
-/

namespace ImportCheck

/-! ## Answers of a snapshot -/

namespace Program

/-- The compiled module of a text and, when it is wanted, the map that leads back to the text. -/
def compiled (sourceMap : Bool) (file : Path) (text : String) : List OutputFile :=
  let name := file.withExtension jsExtension
  let map := file.withExtension mapExtension
  if sourceMap then
    [⟨name, false, text ++ "\n//# sourceMappingURL=" ++ fileName map⟩,
     ⟨map, false, "\x7b\"version\":3,\"file\":\"" ++ fileName name ++ "\"\x7d"⟩]
  else [⟨name, false, text⟩]

theorem outputs_eq_compiled {program : Program} (h : program.skipsEmit = false) (file : Path) :
    program.outputs file = compiled program.sourceMap file ((program.sources.get? file).getD "") := by
  simp [outputs, compiled, h]

end Program

/-- What can be seen of a session when a program is built. -/
structure Snapshot where
  text? : Path → Option String
  diagnostics : List Diagnostic
  skipsEmit : Bool

/-- The answer to an emission: the diagnostics come first, then the refusal, and a file without a text is taken for
empty. -/
def Snapshot.answer (options : CompilerOptions) (k : Snapshot) (f : Path) : Except Failure (List OutputFile) :=
  if k.diagnostics ≠ [] then .error (.compilation k.diagnostics)
  else if k.skipsEmit then .error .emitSkipped
  else .ok (Program.compiled options.sourceMap f ((k.text? f).getD ""))

namespace Session

variable (s : Session) (x f : Path)

def snapshot : Snapshot := ⟨s.fileText?, s.service.diagnostics, s.service.skipsEmit⟩

/-- The program that the session would build. -/
def draft : Program := (s.service.buildProgram s.files s.options).2

theorem warmUp_warmUp : s.warmUp.warmUp = s.warmUp := by
  cases h : s.warmed <;> simp [warmUp, h, report, record]

theorem draft_warmUp : s.warmUp.draft = s.draft := by
  unfold warmUp
  split <;> rfl

/-! ## What an emission depends on, besides the texts -/

/-- What the session has built and warmed up, and what it was told. -/
structure EmitState where
  options : CompilerOptions
  runtime : Path
  program : Option Program
  warmed : Bool
  programs : Nat
  warmups : List Path
  diagnostics : List Diagnostic
  skipsEmit : Bool

def emitState : EmitState :=
  ⟨s.options, s.runtime, s.program, s.warmed, s.service.programs, s.service.warmups, s.service.diagnostics,
    s.service.skipsEmit⟩

/-- A look at a file changes nothing of the service but its memory. -/
theorem sourceTree_remembers (service : Service) (files : FileStore) :
    ∃ parsed parses, (service.sourceTree files x).1 = { service with parsed, parses } := by
  unfold Service.sourceTree
  split
  · exact ⟨_, _, rfl⟩
  · split
    · split <;> exact ⟨_, _, rfl⟩
    · exact ⟨_, _, rfl⟩

theorem emitState_parsed : (s.parsed x).emitState = s.emitState := by
  obtain ⟨_, _, hservice⟩ := sourceTree_remembers x s.service s.files
  simp only [emitState, parsed, sourceTree, hservice]

end Session

namespace Task

variable {w : Surroundings} {s s' : Session} {x : Path} {leaf t' : Task}

theorem Entered.emitState {registered : Bool} (h : Entered x registered s s' t') : s'.emitState = s.emitState := by
  cases h with
  | trusted _ => rfl
  | scanned _ _ _ => exact (s.enter x).emitState_parsed x
  | begun _ _ => rfl

theorem LeafStep.emitState (h : LeafStep w s leaf s' t') (hc : leaf.Checks) : s'.emitState = s.emitState := by
  cases h with
  | check he => exact he.emitState
  | register _ _ _ _ he => exact he.emitState
  | link _ _ _ he => exact he.emitState
  | @store x _ _ text _ _ _ => exact (s.updateFile x text false).1.emitState_parsed x
  | notice => cases hc
  | keep _ => cases hc
  | refresh _ _ => cases hc
  | _ => rfl

theorem Falls.emitState {c c' : Session × Multiset Path} {E : List (Path × Outcome)} (h : Falls c E c') :
    c'.1.emitState = c.1.emitState := by
  induction h with
  | rest => rfl
  | pass _ ih => exact ih
  | fail _ ih => exact ih

end Task

/-- A check leaves all as it was that has to do with programs. -/
theorem Runs.emitState_check {s : Session} {f : Path} {h : History} {c : Session × Task}
    (hr : Runs (s, .start (.check f)) h c) : c.1.emitState = s.emitState := by
  induction hr with
  | rest => rfl
  | @step h m hr hp ih =>
      have hchecks := (hr.watched (asks_check f)).checking
      obtain ⟨leaf, s', t', R, E, -, hmem, hd, -, -, -, hfalls⟩ := m.leafStep hp fun l hl => .inl (hchecks l hl)
      have hstep : s'.emitState = m.session.bare.emitState := hd.emitState (hchecks leaf hmem)
      have hafter : m.after.1.bare.emitState = s'.emitState := hfalls.emitState
      exact hafter.trans (hstep.trans ih)

/-! ## Emissions -/

namespace Session

variable (s : Session) (f : Path)

theorem emitState_warmUp : s.warmUp.emitState = { s.emitState with
    warmed := true
    warmups := if s.warmed then s.service.warmups else s.service.warmups ++ [s.runtime] } := by
  cases h : s.warmed <;> simp [warmUp, h, emitState, report, record, Service.warmUp]

theorem emitState_currentProgram : s.currentProgram.1.emitState = { s.emitState with
    program := s.program.or (some s.draft)
    programs := if s.program.isNone then s.service.programs + 1 else s.service.programs } := by
  cases h : s.program <;> simp [currentProgram, h, emitState, draft, Service.buildProgram]

theorem emitState_emit : (s.emit f).1.emitState = { s.emitState with
    program := s.program.or (some s.draft)
    programs := if s.program.isNone then s.service.programs + 1 else s.service.programs
    warmed := true
    warmups := if s.warmed then s.service.warmups else s.service.warmups ++ [s.runtime] } := by
  have hemit : (s.emit f).1.emitState = s.warmUp.currentProgram.1.emitState := by
    unfold emit
    simp only
    split
    · rfl
    · split <;> rfl
  have hprograms : s.warmUp.service.programs = s.service.programs := congrArg EmitState.programs s.emitState_warmUp
  rw [hemit, emitState_currentProgram, emitState_warmUp, draft_warmUp, s.warmUp_same.1, hprograms]

theorem currentProgram_snd : some s.currentProgram.2 = s.program.or (some s.draft) := by
  cases h : s.program <;> simp [currentProgram, h, draft]

/-- What a program answers to an emission. -/
theorem answer_snapshot : s.snapshot.answer s.options f =
    if s.draft.diagnostics ≠ [] then .error (.compilation s.draft.diagnostics)
    else if s.draft.skipsEmit then .error .emitSkipped
    else .ok (s.draft.outputs f) := by
  have htext : s.snapshot.text? f = s.draft.sources.get? f := (PathMap.get?_mapValues _ s.files.records f).symm
  have hdiagnostics : s.snapshot.diagnostics = s.draft.diagnostics := rfl
  have hskips : s.snapshot.skipsEmit = s.draft.skipsEmit := rfl
  rw [Snapshot.answer, htext, hdiagnostics, hskips]
  cases hs : s.draft.skipsEmit with
  | true => rfl
  | false => rw [Program.outputs_eq_compiled hs, draft, Service.buildProgram]

/-- An emission answers from the program that is there, or else from the one that is built for it. -/
theorem emit_snd {b : Session} (hb : s.program.or (some s.draft) = some b.draft) :
    (s.emit f).2 = b.snapshot.answer b.options f := by
  have hprogram : s.warmUp.currentProgram.2 = b.draft := by
    apply Option.some.inj
    rw [currentProgram_snd, draft_warmUp, s.warmUp_same.1, hb]
  rw [answer_snapshot, ← hprogram]
  unfold emit
  simp only
  split
  · rfl
  · split <;> rfl

end Session

end ImportCheck
