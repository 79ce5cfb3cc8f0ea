import ImportCheck.Proofs.Check.Outcome
import ImportCheck.Proofs.Walk.Confined
import ImportCheck.Proofs.Walk.Prompt

/-!
# What an emission is made from

A program holds the texts of the moment at which it was built, and it is kept until a change is noticed or it is
dropped. As long as only checks and notices of changes touch the store, the texts that it holds are the present ones.
But a file that a check has brought in since is missing, and is emitted as if it were empty.
-/

namespace ImportCheck

/-! ## Programs -/

namespace Program

variable {program : Program} {file : Path} {text text' : String}

/-- What the program would put out for the file if that was its text. -/
def outputsFrom (program : Program) (file : Path) (text : String) : List OutputFile :=
  { program with sources := program.sources.insert file text }.outputs file

theorem outputs_eq (program : Program) (file : Path) :
    program.outputs file = program.outputsFrom file ((program.sources.get? file).getD "") := by
  simp [outputsFrom, outputs, PathMap.get?_insert, Path.Same.refl]

/-- Outputs tell the text that they are made from. -/
theorem outputsFrom_inj (hs : program.skipsEmit = false) :
    program.outputsFrom file text = program.outputsFrom file text' ↔ text = text' := by
  refine ⟨fun h => ?_, fun h => h ▸ rfl⟩
  cases hm : program.sourceMap <;> simpa [outputsFrom, outputs, hs, hm, PathMap.get?_insert, Path.Same.refl] using h

end Program

/-! ## Requests one after another -/

/-- A request that was answered, and the session to which it was made. -/
structure Operation where
  before : Session
  request : Request
  outcome : Outcome

/-- Each request is worked on to its end before the next one is made. -/
inductive Conducted (s₀ : Session) : List Operation → Session → Prop
  | rest : Conducted s₀ [] s₀
  | step {ops : List Operation} {s s' : Session} {request : Request} {h : History} {o : Outcome}
      (hc : Conducted s₀ ops s) (hr : Runs (s, .start request) h (s', .done o)) :
      Conducted s₀ (ops ++ [⟨s, request, o⟩]) s'

/-- Requests that check and emit, that notice changes, and that drop what can be built again. -/
inductive Request.Routine : Request → Prop
  | check (file : Path) : Routine (.check file)
  | fileChanged (file : Path) : Routine (.fileChanged file)
  | emit (file : Path) : Routine (.emit file)
  | resetProgram : Routine .resetProgram
  | resetService : Routine .resetService

namespace Operation

/-- Whether the program is dropped. -/
def drops : Operation → Bool
  | ⟨_, .resetProgram, _⟩ => true
  | ⟨_, .resetService, _⟩ => true
  | ⟨_, .fileChanged _, .ok (.flag true)⟩ => true
  | _ => false

theorem drops_fileChanged {s : Session} {f : Path} {o : Outcome} (h : o ≠ .ok (.flag true)) :
    drops ⟨s, .fileChanged f, o⟩ = false := by
  unfold drops
  split <;> simp_all

def emits : Operation → Bool
  | ⟨_, .emit _, _⟩ => true
  | _ => false

/-- The session that the program is built from: that of the first emission since the last drop. -/
def source (built : Option Session) (op : Operation) : Option Session :=
  if op.drops then none else if op.emits then built.or (some op.before) else built

end Operation

def builtFrom (ops : List Operation) : Option Session := ops.foldl Operation.source none

namespace Session

/-- The program holds the texts of an earlier session, which are as they were. -/
def Emits (s : Session) : Option Session → Prop
  | none => s.program = none
  | some b => ∃ program, s.program = some program ∧ (∀ p, program.sources.get? p = b.fileText? p) ∧
      ∀ p r, b.files.get? p = some r → s.files.get? p = some r

variable {s s' : Session} {built : Option Session}

/-- A file that was tracked when the program was built has the same text still, and any other one has none there. -/
theorem Emits.sources {b : Session} {program : Program} (h : s.Emits (some b)) (hp : s.program = some program)
    (f : Path) : program.sources.get? f = if b.isTracked f then s.fileText? f else none := by
  obtain ⟨program', hprogram, htexts, hold⟩ := h
  obtain rfl : program = program' := Option.some.inj (hp.symm.trans hprogram)
  rw [htexts, isTracked_eq_isSome]
  cases hr : b.files.get? f with
  | none => simp [fileText?, FileStore.text?, hr]
  | some r => simp [fileText?, FileStore.text?, hr, hold f r hr]

theorem Emits.of_kept (h : s.Emits built) (hp : s'.program = s.program)
    (hf : ∀ p r, s.files.get? p = some r → s'.files.get? p = some r) : s'.Emits built := by
  cases built with
  | none => exact hp.trans h
  | some b =>
      obtain ⟨program, hprogram, htexts, hold⟩ := h
      exact ⟨program, hp.trans hprogram, htexts, fun p r hr => hf p r (hold p r hr)⟩

theorem Emits.currentProgram (h : s.Emits built) {b : Session} (hb : b.files = s.files) :
    s.currentProgram.1.Emits (built.or (some b)) ∧ s.currentProgram.1.program = some s.currentProgram.2 := by
  cases built with
  | none =>
      have hnone : s.program = none := h
      have heq : s.currentProgram = ({ s with
        service := (s.service.buildProgram s.files s.options).1
        program := some (s.service.buildProgram s.files s.options).2 },
        (s.service.buildProgram s.files s.options).2) := by
          simp only [Session.currentProgram, hnone]
      rw [heq]
      refine ⟨⟨_, rfl, fun p => ?_, fun p r hr => ?_⟩, rfl⟩
      · rw [fileText?, hb]
        exact PathMap.get?_mapValues _ s.files.records p
      · rwa [hb] at hr
  | some _ =>
      obtain ⟨program, hprogram, hrest⟩ := h
      have heq : s.currentProgram = (s, program) := by simp only [Session.currentProgram, hprogram]
      rw [heq]
      exact ⟨⟨program, hprogram, hrest⟩, hprogram⟩

theorem warmUp_same (s : Session) : s.warmUp.program = s.program ∧ s.warmUp.files = s.files := by
  unfold warmUp
  split <;> exact ⟨rfl, rfl⟩

theorem files_currentProgram (s : Session) : s.currentProgram.1.files = s.files := by
  unfold currentProgram
  split <;> rfl

/-- An emission leaves the program that it used. -/
theorem program_emit (s : Session) (f : Path) : (s.emit f).1.program = s.warmUp.currentProgram.1.program := by
  unfold emit
  simp only
  split
  · rfl
  · split <;> rfl

theorem files_emit (s : Session) (f : Path) : (s.emit f).1.files = s.files := by
  refine Eq.trans ?_ (s.warmUp.files_currentProgram.trans s.warmUp_same.2)
  unfold emit
  simp only
  split
  · rfl
  · split <;> rfl

theorem outputs_of_emit {f : Path} {outs : List OutputFile} (h : (s.emit f).2 = .ok outs) :
    s.warmUp.currentProgram.2.skipsEmit = false ∧ outs = s.warmUp.currentProgram.2.outputs f := by
  unfold emit at h
  simp only at h
  split at h
  · cases h
  · split at h
    · cases h
    · next hs => exact ⟨by simpa using hs, (Except.ok.inj h).symm⟩

end Session

/-! ## What each request leaves -/

theorem Runs.of_emit {s s' : Session} {f : Path} {h : History} {outs : List OutputFile}
    (hr : Runs (s, .start (.emit f)) h (s', .done (.ok (.outputs outs)))) :
    s' = (s.emit f).1 ∧ (s.emit f).2 = .ok outs := by
  have hbegin : ∀ w now, Task.begin w now s (.emit f) = ((s.emit f).1, .done ((s.emit f).2.map .outputs)) :=
    fun _ _ => rfl
  obtain ⟨m, -, he⟩ := hr.of_begun fun w now => ⟨_, _, hbegin w now⟩
  rw [hbegin] at he
  generalize s.emit f = c at he
  obtain ⟨s₁, a⟩ := c
  obtain ⟨rfl, hout⟩ := Prod.mk.inj he
  cases a with
  | error e => cases hout
  | ok outs' =>
      cases hout
      exact ⟨rfl, rfl⟩

namespace Session

variable {s s' : Session} {built : Option Session} {request : Request} {h : History} {o : Outcome} {f : Path}

theorem Emits.emit (he : s.Emits built) (f : Path) :
    (s.emit f).1.Emits (built.or (some s)) ∧ (s.emit f).1.program = some s.warmUp.currentProgram.2 := by
  obtain ⟨hprogram, hfiles⟩ := s.warmUp_same
  have hwarm : s.warmUp.Emits built := he.of_kept hprogram fun p r hr => by rwa [hfiles]
  obtain ⟨hcurrent, hsome⟩ := hwarm.currentProgram (b := s) hfiles.symm
  refine ⟨hcurrent.of_kept (s.program_emit f) fun p r hr => ?_, (s.program_emit f).trans hsome⟩
  rwa [files_emit, ← hfiles, ← files_currentProgram]

/-- Each routine request leaves a program of the session that the history tells. -/
theorem Emits.step (he : s.Emits built) (hq : request.Routine)
    (hr : Runs (s, .start request) h (s', .done o)) : s'.Emits (Operation.source built ⟨s, request, o⟩) := by
  cases hq with
  | check f =>
      have hwatched := hr.watched (asks_check f)
      exact he.of_kept hwatched.rooted.program hwatched.kept.old
  | fileChanged f =>
      rcases hr.fileChanged with ⟨hne, hprogram, ha⟩ | ⟨rfl, hnone, -⟩
      · have hsource : Operation.source built ⟨s, .fileChanged f, o⟩ = built := by
          rw [Operation.source, Operation.drops_fileChanged hne]
          rfl
        rw [hsource]
        exact he.of_kept hprogram fun p r hr => by rwa [ha.files]
      · exact hnone
  | emit f =>
      obtain ⟨m, -, hbegin⟩ := hr.of_begun fun _ _ => ⟨_, _, rfl⟩
      obtain ⟨rfl, -⟩ := Prod.mk.inj hbegin
      exact (he.emit f).1
  | resetProgram =>
      obtain ⟨m, -, hbegin⟩ := hr.of_begun fun _ _ => ⟨_, _, rfl⟩
      obtain ⟨rfl, -⟩ := Prod.mk.inj hbegin
      exact rfl
  | resetService =>
      obtain ⟨m, -, hbegin⟩ := hr.of_begun fun _ _ => ⟨_, _, rfl⟩
      obtain ⟨rfl, -⟩ := Prod.mk.inj hbegin
      exact rfl

end Session

theorem Conducted.emits {s₀ s : Session} {ops : List Operation} (hc : Conducted s₀ ops s)
    (hq : ∀ op ∈ ops, op.request.Routine) (hs : s₀.program = none) : s.Emits (builtFrom ops) := by
  induction hc with
  | rest => exact hs
  | step hc hr ih =>
      rw [builtFrom, List.foldl_append]
      exact (ih fun op hop => hq op (List.mem_append.mpr (.inl hop))).step
        (hq _ (List.mem_append.mpr (.inr (List.mem_singleton_self _)))) hr

/-- What an emission of a tracked file is made from, after checks, notices of changes, emissions and resets in a
new session, one after another, with a disk and a resolver that may change all the time: from the text that is
stored, or from none. It is the stored text if and only if that is empty, or the file was tracked already when the
program was built. -/
theorem emitted_text (options : CompilerOptions) (cwd : Path) (runtime defaultLib : LibFile)
    {ops : List Operation} {s s' : Session} (hc : Conducted (.new options cwd runtime defaultLib) ops s)
    (hq : ∀ op ∈ ops, op.request.Routine) {f : Path} {text : String} (ht : s.fileText? f = some text)
    {h : History} {outs : List OutputFile}
    (hr : Runs (s, .start (.emit f)) h (s', .done (.ok (.outputs outs)))) :
    ∃ program, s'.program = some program ∧
      (outs = program.outputsFrom f text ∨ outs = program.outputsFrom f "") ∧
      (outs = program.outputsFrom f text ↔
        text = "" ∨ ∀ b, builtFrom ops = some b → b.isTracked f = true) := by
  have hemits := hc.emits hq rfl
  obtain ⟨rfl, hok⟩ := hr.of_emit
  obtain ⟨hafter, hprogram⟩ := hemits.emit f
  obtain ⟨hskips, houts⟩ := Session.outputs_of_emit hok
  have hstored : (s.emit f).1.fileText? f = some text := by
    rwa [Session.fileText?, s.files_emit]
  have hsources : s.warmUp.currentProgram.2.sources.get? f =
      if ∀ b, builtFrom ops = some b → b.isTracked f = true then some text else none := by
    cases hb : builtFrom ops with
    | none =>
        rw [hb] at hafter
        obtain ⟨r, hr, -⟩ := Option.map_eq_some_iff.mp (show (s.files.get? f).map (·.text) = some text from ht)
        have htracked : s.isTracked f = true := by rw [Session.isTracked_eq_isSome, hr]; rfl
        simp [hafter.sources hprogram, hstored, htracked]
    | some b =>
        rw [hb] at hafter
        simp [hafter.sources hprogram, hstored]
  refine ⟨_, hprogram, ?_⟩
  rw [houts, Program.outputs_eq, hsources]
  split
  · next hall => exact ⟨.inl rfl, iff_of_true rfl (.inr hall)⟩
  · next hall =>
    refine ⟨.inr rfl, ?_⟩
    rw [Option.getD_none, Program.outputsFrom_inj hskips, eq_comm]
    exact (or_iff_left hall).symm

/-! ## A file that is checked after an emission -/

/-- Works on the requests one after another at the places given, as far as each comes to its end. -/
def Operation.conduct (w : Surroundings) : List (Request × List (List Nat)) → List Operation × Session →
    List Operation × Session
  | [], c => c
  | (request, places) :: plan, (ops, s) =>
    match (History.play (places.map (w, ·)) (s, .start request)).2 with
    | (s', .done o) => conduct w plan (ops ++ [⟨s, request, o⟩], s')
    | _ => (ops, s)

theorem Conducted.conduct (w : Surroundings) {s₀ : Session} (plan : List (Request × List (List Nat)))
    {c : List Operation × Session} (hc : Conducted s₀ c.1 c.2) :
    Conducted s₀ (Operation.conduct w plan c).1 (Operation.conduct w plan c).2 := by
  induction plan generalizing c with
  | nil => exact hc
  | cons e plan ih =>
      obtain ⟨request, places⟩ := e
      obtain ⟨ops, s⟩ := c
      have hrun := History.runs_play (places.map (w, ·)) (s, .start request)
      unfold Operation.conduct
      split
      · next s' o he =>
        rw [he] at hrun
        exact ih (hc.step hrun)
      · exact hc

theorem Operation.mem_conduct {w : Surroundings} {plan : List (Request × List (List Nat))}
    {c : List Operation × Session} {op : Operation} (h : op ∈ (conduct w plan c).1) :
    op ∈ c.1 ∨ ∃ e ∈ plan, op.request = e.1 := by
  induction plan generalizing c with
  | nil => exact .inl h
  | cons e plan ih =>
      obtain ⟨request, places⟩ := e
      obtain ⟨ops, s⟩ := c
      unfold conduct at h
      split at h
      · rcases ih h with h | ⟨e, he, hr⟩
        · rcases List.mem_append.mp h with h | h
          · exact .inl h
          · exact .inr ⟨_, List.mem_cons_self, by rw [List.mem_singleton.mp h]⟩
        · exact .inr ⟨e, List.mem_cons_of_mem _ he, hr⟩
      · exact .inl h

namespace Late

open ImportCheck.Cycle (first second known session)

def surroundings : Surroundings where
  disk := MemoryDisk.disk {
    entries := [(first, "let a = 1;"), (second, "let b = 2;")]
    distinct := by decide }
  resolver := known.resolver

/-- One file is checked and emitted, and then the other one is checked. -/
def plan : List (Request × List (List Nat)) :=
  [(.check first, [[], []]), (.emit first, [[]]), (.check second, [[], []])]

def before : List Operation × Session := Operation.conduct surroundings plan ([], session)

/-- An emission after that. -/
def after (f : Path) : History × (Session × Task) := History.play [(surroundings, [])] (before.2, .start (.emit f))

def emitted : Task → Option (List String)
  | .done (.ok (.outputs outs)) => some (outs.map (·.text))
  | _ => none

theorem exists_outputs {t : Task} {texts : List String} (h : emitted t = some texts) :
    ∃ outs, t = .done (.ok (.outputs outs)) ∧ outs.map (·.text) = texts := by
  unfold emitted at h
  split at h
  · next outs => exact ⟨outs, rfl, Option.some.inj h⟩
  · cases h

def mapOf (name : String) : String := "\x7b\"version\":3,\"file\":\"" ++ name ++ "\"\x7d"

theorem outcome_second : before.2.fileText? second = some "let b = 2;" ∧
    emitted (after second).2.2 = some ["\n//# sourceMappingURL=b.js.map", mapOf "b.js"] ∧
    (after second).2.1.program.map (fun p => (p.outputsFrom second "let b = 2;").map (·.text)) =
      some ["let b = 2;\n//# sourceMappingURL=b.js.map", mapOf "b.js"] := by decide +kernel

theorem outcome_first : before.2.fileText? first = some "let a = 1;" ∧
    emitted (after first).2.2 = some ["let a = 1;\n//# sourceMappingURL=a.js.map", mapOf "a.js"] ∧
    (builtFrom before.1).map (·.isTracked first) = some true := by decide +kernel

theorem routine : ∀ op ∈ before.1, op.request.Routine := by
  intro op hop
  rcases Operation.mem_conduct hop with h | ⟨e, he, hr⟩
  · cases h
  · rw [hr]
    simp only [plan, List.mem_cons, List.not_mem_nil, or_false] at he
    rcases he with rfl | rfl | rfl
    · exact .check first
    · exact .emit first
    · exact .check second

end Late

open Late in
/-- The second file is tracked, and it is emitted without its text. -/
theorem emitted_without_text : ∃ ops s, Conducted Cycle.session ops s ∧ (∀ op ∈ ops, op.request.Routine) ∧
    ∃ f text h s' outs, s.fileText? f = some text ∧
      Runs (s, .start (.emit f)) h (s', .done (.ok (.outputs outs))) ∧
      ∀ program, s'.program = some program → outs ≠ program.outputsFrom f text := by
  have hrun : Runs (before.2, .start (.emit Cycle.second)) (after Cycle.second).1 (after Cycle.second).2 :=
    History.runs_play _ _
  obtain ⟨htext, hout, hprogram⟩ := outcome_second
  refine ⟨before.1, before.2, .conduct surroundings plan .rest, routine, Cycle.second, "let b = 2;", ?_⟩
  generalize after Cycle.second = c at hrun hout hprogram
  obtain ⟨h, s', t⟩ := c
  obtain ⟨outs, rfl, houts⟩ := exists_outputs hout
  refine ⟨h, s', outs, htext, hrun, fun program hp he => ?_⟩
  rw [show s'.program = some program from hp, Option.map_some, ← he, houts] at hprogram
  exact absurd hprogram (by decide)

open Late in
/-- The first file was tracked when the program was built, and it is emitted from its text. -/
theorem emitted_text_first : ∃ h s' outs program,
    Runs (before.2, .start (.emit Cycle.first)) h (s', .done (.ok (.outputs outs))) ∧
      s'.program = some program ∧ outs = program.outputsFrom Cycle.first "let a = 1;" := by
  have hrun : Runs (before.2, .start (.emit Cycle.first)) (after Cycle.first).1 (after Cycle.first).2 :=
    History.runs_play _ _
  obtain ⟨htext, hout, hbuilt⟩ := outcome_first
  generalize after Cycle.first = c at hrun hout
  obtain ⟨h, s', t⟩ := c
  obtain ⟨outs, rfl, -⟩ := exists_outputs hout
  obtain ⟨program, hprogram, -, hiff⟩ := emitted_text {} (.ofString "/p") .runtime .standard
    (.conduct surroundings plan .rest) routine htext hrun
  refine ⟨h, s', outs, program, hrun, hprogram, hiff.mpr (.inr fun b hb => ?_)⟩
  simpa [show builtFrom before.1 = some b from hb] using hbuilt

end ImportCheck
