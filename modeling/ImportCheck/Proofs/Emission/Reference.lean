import ImportCheck.Proofs.Emission.EmitState
import Mathlib.Data.List.DropRight

/-!
# Emission and its reference

A session keeps its program from one emission to the next. What it answers can be told from the history alone: from
the texts, the diagnostics and the refusal of the first emission since the last drop. So can how often a program was
built, and the runtime library was warmed up.
-/

namespace ImportCheck

/-! ## Stretches of a list -/

/-- The last stretch is what comes after the last element at which the list is split, and it grows until the next. -/
theorem splitOnP_append {α : Type} (p : α → Bool) (xs : List α) : ∃ init, ∀ ys, (∀ y ∈ ys, p y = false) →
    (xs ++ ys).splitOnP p = init ++ [xs.rtakeWhile (!p ·) ++ ys] := by
  have hgrow : ∀ ys, (∀ y ∈ ys, p y = false) → ∀ y ∈ xs.rtakeWhile (!p ·) ++ ys, p y = false := by
    intro ys hys y hy
    rcases List.mem_append.mp hy with hy | hy
    · simpa using List.mem_rtakeWhile_imp hy
    · exact hys y hy
  have hcut : xs.rdropWhile (!p ·) ++ xs.rtakeWhile (!p ·) = xs := List.rdropWhile_append_rtakeWhile
  have hends := List.rdropWhile_last_not (!p ·) xs
  generalize xs.rtakeWhile (!p ·) = last at hgrow hcut
  generalize xs.rdropWhile (!p ·) = older at hcut hends
  subst hcut
  rcases List.eq_nil_or_concat older with rfl | ⟨older, d, rfl⟩
  · exact ⟨[], fun ys hys => List.splitOnP_eq_singleton (hgrow ys hys)⟩
  · have hd : p d = true := by simpa using hends (by simp)
    refine ⟨older.splitOnP p, fun ys hys => ?_⟩
    rw [List.concat_eq_append, List.append_assoc, List.append_assoc, List.singleton_append,
      List.splitOnP_append_cons _ _ hd, List.splitOnP_eq_singleton (hgrow ys hys)]

/-! ## Histories of emissions -/

/-- What is done to a session: a request is made and answered, or the service is told what to say of the programs that
it builds from then on. -/
inductive Act
  | ask (op : Operation)
  | diagnose (diagnostics : List Diagnostic)
  | refuse (skips : Bool)

namespace Act

def drops : Act → Bool
  | ask op => op.drops
  | _ => false

def emits : Act → Bool
  | ask op => op.emits
  | _ => false

/-- The session that is asked to emit. -/
def emitter? : Act → Option Session
  | ask op => if op.emits then some op.before else none
  | _ => none

def diagnosed? : Act → Option (List Diagnostic)
  | diagnose diagnostics => some diagnostics
  | _ => none

def refused? : Act → Option Bool
  | refuse skips => some skips
  | _ => none

/-- What the service was told last. -/
def diagnostics (acts : List Act) : List Diagnostic := (acts.reverse.findSome? diagnosed?).getD []

def skipsEmit (acts : List Act) : Bool := (acts.reverse.findSome? refused?).getD false

/-- The session of the first emission since the last drop. -/
def source? (acts : List Act) : Option Session := (acts.rtakeWhile (!·.drops)).findSome? emitter?

/-- The number of stretches without a drop in which something is emitted. -/
def builds (acts : List Act) : Nat := ((acts.splitOnP drops).filter (·.any emits)).length

variable (acts : List Act) (a : Act)

theorem any_emits_concat : (acts ++ [a]).any emits = (acts.any emits || a.emits) := by simp

theorem diagnostics_concat : diagnostics (acts ++ [a]) = a.diagnosed?.getD (diagnostics acts) := by
  cases h : a.diagnosed? <;> simp [diagnostics, h]

theorem skipsEmit_concat : skipsEmit (acts ++ [a]) = a.refused?.getD (skipsEmit acts) := by
  cases h : a.refused? <;> simp [skipsEmit, h]

theorem source?_concat : source? (acts ++ [a]) = if a.drops then none else (source? acts).or a.emitter? := by
  unfold source?
  rw [List.rtakeWhile_concat]
  cases a.drops <;> cases ha : a.emitter? <;> simp [List.findSome?_append, ha]

/-- The source stays until the next drop. -/
theorem source?_append {acts : List Act} {first : Session} (h : source? acts = some first) (later : List Act)
    (hl : ∀ a ∈ later, a.drops = false) : source? (acts ++ later) = some first := by
  induction later using List.reverseRecOn with
  | nil => rwa [List.append_nil]
  | append_singleton later a ih =>
      rw [← List.append_assoc, source?_concat, hl a (by simp), ih fun a ha => hl a (by simp [ha])]
      rfl

theorem mem_of_source? {acts : List Act} {first : Session} (h : source? acts = some first) :
    ∃ op, .ask op ∈ acts ∧ op.before = first := by
  obtain ⟨a, ha, he⟩ := List.exists_of_findSome?_eq_some h
  cases a with
  | ask op =>
      obtain ⟨-, hop⟩ := Option.ite_none_right_eq_some.mp he
      exact ⟨op, (List.rtakeWhile_suffix _ _).subset ha, Option.some.inj hop⟩
  | _ => cases he

theorem isSome_emitter? : a.emitter?.isSome = a.emits := by
  cases a with
  | ask op => cases h : op.emits <;> simp [emitter?, emits, h]
  | _ => rfl

theorem isSome_source? : (source? acts).isSome = (acts.rtakeWhile (!·.drops)).any emits := by
  simp only [source?, List.isSome_findSome?, isSome_emitter?]

variable {a} in
theorem emits_of_drops (h : a.drops = true) : a.emits = false := by
  cases a with
  | ask op =>
      obtain ⟨s, request, o⟩ := op
      cases request with
      | emit f => cases h
      | _ => rfl
  | _ => rfl

theorem builds_concat :
    builds (acts ++ [a]) = if a.emits && (source? acts).isNone then builds acts + 1 else builds acts := by
  cases hd : a.drops with
  | true =>
      have hsplit : (acts ++ [a]).splitOnP drops = acts.splitOnP drops ++ [[]] := List.splitOnP_append_cons acts [] hd
      simp [builds, hsplit, emits_of_drops hd]
  | false =>
      obtain ⟨init, hinit⟩ := splitOnP_append drops acts
      have hacts := hinit [] (by simp)
      rw [List.append_nil, List.append_nil] at hacts
      have hsource := isSome_source? acts
      simp only [builds, hinit [a] (by simpa using hd), hacts]
      cases hs : source? acts <;> cases ha : a.emits <;> simp_all

theorem builds_eq_zero {acts : List Act} (h : acts.any emits = false) : builds acts = 0 := by
  induction acts using List.reverseRecOn with
  | nil => rfl
  | append_singleton acts a ih =>
      rw [any_emits_concat, Bool.or_eq_false_iff] at h
      rw [builds_concat, h.2, ih h.1]
      rfl

end Act

/-- Requests that check and emit, that store texts, and that drop what can be built again. -/
inductive Request.Regular : Request → Prop
  | routine {request : Request} (h : request.Routine) : Regular request
  | addFile (file : Path) (text : String) : Regular (.addFile file text)
  | updateFile (file : Path) (text : String) (checked : Bool) : Regular (.updateFile file text checked)

/-- One act comes after the other, and each request is worked on to its end. -/
inductive Directed (s₀ : Session) : List Act → Session → Prop
  | rest : Directed s₀ [] s₀
  | ask {acts : List Act} {s s' : Session} {request : Request} {h : History} {o : Outcome}
      (hd : Directed s₀ acts s) (hq : request.Regular) (hr : Runs (s, .start request) h (s', .done o)) :
      Directed s₀ (acts ++ [.ask ⟨s, request, o⟩]) s'
  | diagnose {acts : List Act} {s : Session} (hd : Directed s₀ acts s) (diagnostics : List Diagnostic) :
      Directed s₀ (acts ++ [.diagnose diagnostics]) { s with service := { s.service with diagnostics } }
  | refuse {acts : List Act} {s : Session} (hd : Directed s₀ acts s) (skipsEmit : Bool) :
      Directed s₀ (acts ++ [.refuse skipsEmit]) { s with service := { s.service with skipsEmit } }

/-! ## The session and its history -/

/-- What an act makes of the emission state of a session. -/
def Act.next (k : Session.EmitState) : Act → Session.EmitState
  | ask op =>
      if op.drops then { k with program := none }
      else if op.emits then
        { k with
          program := k.program.or (some op.before.draft)
          programs := if k.program.isNone then k.programs + 1 else k.programs
          warmed := true
          warmups := if k.warmed then k.warmups else k.warmups ++ [k.runtime] }
      else k
  | diagnose diagnostics => { k with diagnostics }
  | refuse skipsEmit => { k with skipsEmit }

namespace Task

variable {w : Surroundings} {s s' : Session} {f : Path} {o : Outcome}

theorem emitState_finishReading (h : finishReading w s f .refresh = (s', done o)) (s₀ : Session) :
    s'.emitState = Act.next s.emitState (.ask ⟨s₀, .fileChanged f, o⟩) := by
  unfold finishReading at h
  cases hr : w.disk.read f with
  | error fault =>
      simp only [hr] at h
      obtain ⟨rfl, ho⟩ := Prod.mk.inj h
      cases ho
      rfl
  | ok text =>
      simp only [hr] at h
      obtain ⟨s₁, changed, hs⟩ : ∃ s₁ changed, storeRead s f text true = (s₁, changed) := ⟨_, _, rfl⟩
      have hstate : s₁.emitState = s.emitState := (congrArg (·.1.emitState) hs).symm
      rw [hs] at h
      obtain ⟨rfl, ho⟩ := Prod.mk.inj h
      cases ho
      cases changed with
      | true => exact congrArg (fun k : Session.EmitState => { k with program := none }) hstate
      | false => exact hstate

end Task

/-- Each request moves the emission state of the session on. -/
theorem Runs.emitState {s s' : Session} {request : Request} {h : History} {o : Outcome}
    (hr : Runs (s, .start request) h (s', .done o)) (hq : request.Regular) :
    s'.emitState = Act.next s.emitState (.ask ⟨s, request, o⟩) := by
  have hbegun : (∀ w now, ∃ s' o, Task.begin w now s request = (s', .done o)) →
      ∃ w now, s' = (Task.begin w now s request).1 := fun hb =>
    let ⟨m, _, he⟩ := hr.of_begun hb
    ⟨m.around, m.now, congrArg Prod.fst he⟩
  cases hq with
  | routine hq =>
      cases hq with
      | check f => exact hr.emitState_check
      | fileChanged f =>
          obtain ⟨m, -, he⟩ := hr.of_fileChanged
          exact Task.emitState_finishReading he.symm s
      | emit f =>
          obtain ⟨w, now, rfl⟩ := hbegun fun _ _ => ⟨_, _, rfl⟩
          exact s.emitState_emit f
      | _ =>
          obtain ⟨w, now, rfl⟩ := hbegun fun _ _ => ⟨_, _, rfl⟩
          rfl
  | _ =>
      obtain ⟨w, now, rfl⟩ := hbegun fun _ _ => ⟨_, _, rfl⟩
      rfl

/-- The emission state of a session that has gone through the acts. -/
def Act.emitState (options : CompilerOptions) (runtime : Path) (acts : List Act) : Session.EmitState where
  options
  runtime
  program := (source? acts).map Session.draft
  warmed := acts.any emits
  programs := builds acts
  warmups := if acts.any emits then [runtime] else []
  diagnostics := diagnostics acts
  skipsEmit := skipsEmit acts

theorem Act.emitState_concat (options : CompilerOptions) (runtime : Path) (acts : List Act) (a : Act) :
    Act.emitState options runtime (acts ++ [a]) = next (Act.emitState options runtime acts) a := by
  have hdisjoint : a.drops = true → a.emits = false := emits_of_drops
  simp only [Act.emitState, source?_concat, builds_concat, any_emits_concat, diagnostics_concat, skipsEmit_concat]
  generalize acts.any Act.emits = warm
  cases a with
  | diagnose ds => simp [next, drops, emits, emitter?, diagnosed?, refused?]
  | refuse skips => simp [next, drops, emits, emitter?, diagnosed?, refused?]
  | ask op =>
      cases hd : op.drops with
      | true =>
          have he : op.emits = false := hdisjoint hd
          simp [next, drops, emits, diagnosed?, refused?, hd, he]
      | false =>
          cases he : op.emits <;> cases source? acts <;> cases warm <;>
            simp [next, drops, emits, emitter?, diagnosed?, refused?, hd, he]

variable {options : CompilerOptions} {cwd : Path} {runtime defaultLib : LibFile} {acts : List Act} {s : Session}

/-- A session is poised as its history tells. -/
theorem Directed.emitState (hd : Directed (.new options cwd runtime defaultLib) acts s) :
    s.emitState = Act.emitState options runtime.name acts := by
  induction hd with
  | rest => rfl
  | ask _ hq hr ih => rw [hr.emitState hq, ih, Act.emitState_concat]
  | diagnose _ diagnostics ih => rw [Act.emitState_concat, ← ih]; rfl
  | refuse _ skipsEmit ih => rw [Act.emitState_concat, ← ih]; rfl

/-- What comes before a request is a history of the session to which it is made. -/
theorem Directed.of_ask {s₀ : Session} {past later : List Act} {op : Operation}
    (hd : Directed s₀ (past ++ .ask op :: later) s) : Directed s₀ past op.before ∧
      ∃ h s', Runs (op.before, .start op.request) h (s', .done op.outcome) := by
  generalize hacts : past ++ .ask op :: later = acts at hd
  induction hd generalizing later with
  | rest => simp at hacts
  | ask hd _ hr ih =>
      rcases append_cons_eq_concat hacts with ⟨rfl, he⟩ | ⟨_, rfl⟩
      · obtain rfl := Act.ask.inj he
        exact ⟨hd, _, _, hr⟩
      · exact ih rfl
  | diagnose _ _ ih =>
      rcases append_cons_eq_concat hacts with ⟨-, he⟩ | ⟨_, rfl⟩
      · cases he
      · exact ih rfl
  | refuse _ _ ih =>
      rcases append_cons_eq_concat hacts with ⟨-, he⟩ | ⟨_, rfl⟩
      · cases he
      · exact ih rfl

/-- All emissions of a history have the options of the session. -/
theorem Directed.options_source (hd : Directed (.new options cwd runtime defaultLib) acts s) {first : Session}
    (h : Act.source? acts = some first) : first.options = options := by
  obtain ⟨op, hop, rfl⟩ := Act.mem_of_source? h
  obtain ⟨past, later, rfl⟩ := List.append_of_mem hop
  exact congrArg Session.EmitState.options hd.of_ask.1.emitState

/-- An emission answers from the first one since the last drop. -/
theorem Directed.emit_snd (hd : Directed (.new options cwd runtime defaultLib) acts s) (f : Path) :
    (s.emit f).2 = (((Act.source? acts).getD s).snapshot.answer options f) := by
  have hprogram : s.program = (Act.source? acts).map Session.draft := congrArg Session.EmitState.program hd.emitState
  cases hs : Act.source? acts with
  | none =>
      have hdraft : s.program.or (some s.draft) = some s.draft := by rw [hprogram, hs]; rfl
      rw [Session.emit_snd s f hdraft, show s.options = options from congrArg Session.EmitState.options hd.emitState]
      rfl
  | some first =>
      have hdraft : s.program.or (some s.draft) = some first.draft := by rw [hprogram, hs]; rfl
      rw [Session.emit_snd s f hdraft, hd.options_source hs]
      rfl

namespace Act

/-- What is known of the emissions from the history of a session. -/
structure Tells (options : CompilerOptions) (runtime : Path) (acts : List Act) (s : Session) : Prop where
  program : s.program = (source? acts).map Session.draft
  emission : ∀ f w, ∃ m s', m.around = w ∧ Runs (s, .start (.emit f)) [m]
    (s', .done ((((source? acts).getD s).snapshot.answer options f).map .outputs))
  answers : ∀ past b f o later, acts = past ++ .ask ⟨b, .emit f, o⟩ :: later →
    ∃ first, source? (past ++ [.ask ⟨b, .emit f, o⟩]) = some first ∧
      o = (first.snapshot.answer options f).map .outputs
  told : ∀ past op later, acts = past ++ .ask op :: later →
    op.before.service.diagnostics = diagnostics past ∧ op.before.service.skipsEmit = skipsEmit past
  repeats : ∀ past b f o between b' o' later, (∀ a ∈ between, a.drops = false) →
    acts = past ++ .ask ⟨b, .emit f, o⟩ :: (between ++ .ask ⟨b', .emit f, o'⟩ :: later) → o' = o
  builds : s.service.programs = builds acts
  warmups : s.service.warmups = if acts.any emits then [runtime] else []
  warmed : ∀ past b f o later, acts = past ++ .ask ⟨b, .emit f, o⟩ :: later → past.any emits = false →
    b.service.warmups = [] ∧ b.warmUp.service.warmups = [runtime] ∧ b.warmUp.service.programs = 0 ∧
      b.warmUp.emit f = b.emit f

end Act

theorem Directed.answers (hd : Directed (.new options cwd runtime defaultLib) acts s) {past later : List Act}
    {b : Session} {f : Path} {o : Outcome} (he : acts = past ++ .ask ⟨b, .emit f, o⟩ :: later) :
    ∃ first, Act.source? (past ++ [.ask ⟨b, .emit f, o⟩]) = some first ∧
      o = (first.snapshot.answer options f).map .outputs := by
  subst he
  obtain ⟨hpast, h, s', hr⟩ := hd.of_ask
  obtain ⟨m, -, hbegin⟩ := hr.of_begun fun _ _ => ⟨_, _, rfl⟩
  obtain ⟨-, ho⟩ := Prod.mk.inj hbegin
  refine ⟨(Act.source? past).getD b, ?_, ?_⟩
  · rw [Act.source?_concat]
    cases Act.source? past <;> rfl
  · rw [← hpast.emit_snd f]
    exact Task.done.inj ho

/-- In every history of requests that are made one after the other, and of changes to what the service is told, each
emission answers from the texts, the diagnostics and the refusal of the first emission since the last drop, also when
it has failed before. A program is built once in each stretch without a drop in which something is emitted, and the
runtime library is warmed up once, at the first emission and before anything is built. -/
theorem emission_follows_reference (options : CompilerOptions) (cwd : Path) (runtime defaultLib : LibFile)
    {acts : List Act} {s : Session} (hd : Directed (.new options cwd runtime defaultLib) acts s) :
    Act.Tells options runtime.name acts s := by
  have hstate := hd.emitState
  constructor
  case program => exact congrArg Session.EmitState.program hstate
  case emission =>
      intro f w
      refine ⟨⟨w, 0, [], s, .start (.emit f)⟩, (s.emit f).1, rfl, ?_⟩
      rw [← hd.emit_snd f]
      exact .step (h := []) .rest rfl
  case answers => exact fun past b f o later he => hd.answers he
  case told =>
      rintro past op later rfl
      have hbefore := hd.of_ask.1.emitState
      exact ⟨congrArg Session.EmitState.diagnostics hbefore, congrArg Session.EmitState.skipsEmit hbefore⟩
  case repeats =>
      intro past b f o between b' o' later hkept he
      obtain ⟨first, hfirst, rfl⟩ := hd.answers he
      have he' := he.trans (by rw [List.append_cons, ← List.append_assoc])
      obtain ⟨first', hfirst', ho'⟩ := hd.answers he'
      have hstays := Act.source?_append hfirst between hkept
      have hagain := Act.source?_append hstays [.ask ⟨b', .emit f, o'⟩] (List.forall_mem_singleton.mpr rfl)
      rw [ho', Option.some.inj (hfirst'.symm.trans hagain)]
  case builds => exact congrArg Session.EmitState.programs hstate
  case warmups => exact congrArg Session.EmitState.warmups hstate
  case warmed =>
      rintro past b f o later rfl hnone
      have hbefore := hd.of_ask.1.emitState
      have hwarmed : b.warmed = false := (congrArg Session.EmitState.warmed hbefore).trans hnone
      have hprograms : b.service.programs = 0 :=
        (congrArg Session.EmitState.programs hbefore).trans (Act.builds_eq_zero hnone)
      have hwarmups : b.service.warmups = [] :=
        (congrArg Session.EmitState.warmups hbefore).trans (by simp [Act.emitState, hnone])
      have hruntime : b.runtime = runtime.name := congrArg Session.EmitState.runtime hbefore
      refine ⟨hwarmups, ?_, (congrArg Session.EmitState.programs b.emitState_warmUp).trans hprograms, ?_⟩
      · refine (congrArg Session.EmitState.warmups b.emitState_warmUp).trans ?_
        simp [hwarmed, hwarmups, hruntime]
      · rw [Session.emit, Session.emit, Session.warmUp_warmUp]

/-! ## A session that is told of an error -/

/-- What a plan has done next: a request that is worked on at the places given, or a change of the diagnostics. -/
inductive Act.Cue
  | ask (request : Request) (places : List (List Nat))
  | diagnose (diagnostics : List Diagnostic)

/-- Does what is planned, as far as each request comes to its end. -/
def Act.conduct (w : Surroundings) : List Cue → List Act × Session → List Act × Session
  | [], c => c
  | .diagnose diagnostics :: plan, (acts, s) =>
    conduct w plan (acts ++ [.diagnose diagnostics], { s with service := { s.service with diagnostics } })
  | .ask request places :: plan, (acts, s) =>
    match (History.play (places.map (w, ·)) (s, .start request)).2 with
    | (s', .done o) => conduct w plan (acts ++ [.ask ⟨s, request, o⟩], s')
    | _ => (acts, s)

theorem Directed.conduct (w : Surroundings) {s₀ : Session} (plan : List Act.Cue)
    (hp : ∀ request places, .ask request places ∈ plan → request.Regular) {c : List Act × Session}
    (hd : Directed s₀ c.1 c.2) : Directed s₀ (Act.conduct w plan c).1 (Act.conduct w plan c).2 := by
  induction plan generalizing c with
  | nil => exact hd
  | cons cue plan ih =>
      obtain ⟨acts, s⟩ := c
      have hrest : ∀ request places, .ask request places ∈ plan → request.Regular := fun request places h =>
        hp request places (List.mem_cons_of_mem _ h)
      cases cue with
      | diagnose diagnostics => exact ih hrest (hd.diagnose diagnostics)
      | ask request places =>
          have hrun := History.runs_play (places.map (w, ·)) (s, .start request)
          unfold Act.conduct
          split
          · next s' o he =>
            rw [he] at hrun
            exact ih hrest (hd.ask (hp request places List.mem_cons_self) hrun)
          · exact hd

namespace Told

open ImportCheck.Cycle (first session)

def missing : Diagnostic where
  file := some first
  start := some 0
  length := none
  message := "Cannot find name 'x'."
  category := .error
  code := 2304

def plan : List Act.Cue :=
  [.ask (.check first) [[], []], .ask (.emit first) [[]],
   .diagnose [missing], .ask (.emit first) [[]],
   .ask .resetProgram [[]], .ask (.emit first) [[]],
   .diagnose [], .ask (.emit first) [[]],
   .ask (.addFile first "let a = 2;") [[]], .ask .resetService [[]], .ask (.emit first) [[]]]

/-- An emission goes on as before until the program is dropped, both when it succeeds and when it fails. -/
def after : List Act × Session := Act.conduct Late.surroundings plan ([], session)

/-- The texts that an emission puts out, or the messages with which it fails. -/
def answer? : Act → Option (List String)
  | .ask ⟨_, .emit _, .ok (.outputs outs)⟩ => some (outs.map (·.text))
  | .ask ⟨_, .emit _, .error (.compilation diagnostics)⟩ => some (diagnostics.map (·.message))
  | _ => none

def answers : List (List String) :=
  [["let a = 1;\n//# sourceMappingURL=a.js.map", Late.mapOf "a.js"],
   ["let a = 1;\n//# sourceMappingURL=a.js.map", Late.mapOf "a.js"],
   ["Cannot find name 'x'."], ["Cannot find name 'x'."],
   ["let a = 2;\n//# sourceMappingURL=a.js.map", Late.mapOf "a.js"]]

theorem outcome : after.2.service.programs = 3 ∧ after.2.service.warmups = [LibFile.runtime.name] ∧
    after.1.filterMap answer? = answers := by decide +kernel

theorem regular {request : Request} {places : List (List Nat)} (h : .ask request places ∈ plan) :
    request.Regular := by
  simp only [plan, List.mem_cons, Act.Cue.ask.injEq, reduceCtorEq, List.not_mem_nil, or_false, false_or] at h
  rcases h with ⟨rfl, -⟩ | ⟨rfl, -⟩ | ⟨rfl, -⟩ | ⟨rfl, -⟩ | ⟨rfl, -⟩ | ⟨rfl, -⟩ | ⟨rfl, -⟩ | ⟨rfl, -⟩ | ⟨rfl, -⟩
  · exact .routine (.check _)
  · exact .routine (.emit _)
  · exact .routine (.emit _)
  · exact .routine .resetProgram
  · exact .routine (.emit _)
  · exact .routine (.emit _)
  · exact .addFile _ _
  · exact .routine .resetService
  · exact .routine (.emit _)

end Told

open Told in
/-- Three programs are built, and what the service is told counts from the next one on. -/
theorem emission_follows_reference_told : ∃ acts s, Directed Cycle.session acts s ∧
    Act.Tells {} LibFile.runtime.name acts s ∧ s.service.programs = 3 ∧
      s.service.warmups = [LibFile.runtime.name] ∧
      acts.filterMap answer? = answers := by
  have hd : Directed Cycle.session after.1 after.2 := .conduct Late.surroundings plan (fun _ _ => regular) .rest
  exact ⟨after.1, after.2, hd, emission_follows_reference {} (.ofString "/p") .runtime .standard hd, outcome⟩

end ImportCheck
