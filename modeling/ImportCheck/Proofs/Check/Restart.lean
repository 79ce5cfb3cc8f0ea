import ImportCheck.Proofs.Check.Fresh
import ImportCheck.Proofs.Walk.Prompt
import ImportCheck.Proofs.Walk.Rounds

/-!
# Checking again after a change

A change that is noticed starts a new pass: no file is valid any more, while links, registrations, texts and
parses stay. The texts and the parses tell a new check nothing but what the store tells. The registrations do:
a declaration that was registered in an earlier pass is passed over, and so is all that only it leads to.
-/

namespace ImportCheck

namespace Session

/-- The sessions that checks, and notices of changes, can bring about one after another. The disk and the
resolver may be others each time. -/
inductive Used : Session → Prop
  | new (options : CompilerOptions) (cwd : Path) (runtime defaultLib : LibFile) :
      Used (.new options cwd runtime defaultLib)
  | check {s s' : Session} {w : Surroundings} {root : Path} {o : Outcome} (h : Used s)
      (hs : Task.Steps w (s, .start (.check root)) (s', .done o)) : Used s'
  | change {s s' : Session} {w : Surroundings} {f : Path} {o : Outcome} (h : Used s)
      (hs : Task.Steps w (s, .start (.fileChanged f)) (s', .done o)) : Used s'
  | restart {s : Session} (h : Used s) : Used s.invalidateAll

/-- A used session right after a file was found changed, or after a restart that was asked for. -/
inductive Restarted : Session → Prop
  | change {s s' : Session} {w : Surroundings} {f : Path} (h : Used s)
      (hs : Task.Steps w (s, .start (.fileChanged f)) (s', .done (.ok (.flag true)))) : Restarted s'
  | restart {s : Session} (h : Used s) : Restarted s.invalidateAll

end Session

variable {w : Surroundings} {s s' : Session} {root f g x : Path} {o : Outcome}

/-! ## Notices of changes -/

namespace Task

theorem Steps.fileChanged_coherent (hs : Steps w (s, start (.fileChanged f)) (s', done o))
    (h : s.Coherent) : s'.Coherent := by
  obtain ⟨hist, hr, -⟩ := Runs.of_steps hs
  rcases hr.fileChanged with ⟨-, -, ha⟩ | ⟨-, -, text, ha⟩
  · exact Session.coherent_of_same_parts h ha.files ha.service
  · exact Session.coherent_of_same_parts (h.updateFile f text true) ha.files ha.service

theorem Steps.fileChanged_valid (hs : Steps w (s, start (.fileChanged f)) (s', done (.ok (.flag true)))) :
    s'.valid = ∅ := by
  obtain ⟨hist, hr, -⟩ := Runs.of_steps hs
  rcases hr.fileChanged with ⟨hne, -⟩ | ⟨-, -, text, ha⟩
  · exact absurd rfl hne
  · exact ha.valid

theorem Steps.check_coherent (hs : Steps w (s, start (.check root)) (s', done o)) (h : s.Coherent) :
    s'.Coherent := hs.ledgerSteps_check.coherent h

end Task

namespace Session

theorem Used.coherent (h : s.Used) : s.Coherent := by
  induction h with
  | new options cwd runtime defaultLib => exact coherent_of_no_parses rfl
  | check _ hs ih => exact hs.check_coherent ih
  | change _ hs ih => exact hs.fileChanged_coherent ih
  | restart _ ih => exact coherent_of_same_parts ih rfl rfl

theorem Restarted.coherent (h : s.Restarted) : s.Coherent := by
  cases h with
  | change h hs => exact hs.fileChanged_coherent h.coherent
  | restart h => exact coherent_of_same_parts h.coherent rfl rfl

theorem Restarted.not_valid (h : s.Restarted) (p : Path) : s.isValid p = false := by
  have hempty : s.valid = ∅ := by
    cases h with
    | change _ hs => exact hs.fileChanged_valid
    | restart _ => rfl
  rw [isValid, hempty]
  rfl

/-! ## What a registration hides -/

/-- A declaration that a check of the root meets and passes over, for it is registered. -/
structure Masked (s : Session) (w : Surroundings) (root x : Path) : Prop where
  kind : x.kind = .declaration
  registered : s.graph.hasDeclaration x = true
  ne_root : x ≠ root
  named : ∃ f, s.Reached w [root] f ∧ x ∈ s.targets w f

/-- A file in the import closure of a declaration that is passed over. -/
def Hidden (s : Session) (w : Surroundings) (root g : Path) : Prop :=
  ∃ x, s.Masked w root x ∧ s.Leads w x g

theorem Masked.leads_root (h : s.Masked w root x) : s.Leads w root x := by
  obtain ⟨f, hf, hx⟩ := h.named
  exact hf.leads_root.tail ⟨hx, by simp [h.kind]⟩

theorem Hidden.leads_root (h : s.Hidden w root g) : s.Leads w root g := by
  obtain ⟨x, hx, hg⟩ := h
  exact hx.leads_root.trans hg

theorem Masked.not_reached (h : s.Masked w root x) : ¬s.Reached w [root] x := by
  intro hx
  cases hx with
  | root hr _ => exact h.ne_root (List.mem_singleton.mp hr)
  | source _ _ hk _ => simp [h.kind] at hk
  | declaration _ _ _ _ hd => simp [h.registered] at hd

/-- In a new pass the import closure consists of what is reached and what is hidden. -/
theorem reached_or_hidden (hv : ∀ p, s.isValid p = false) (h : s.Leads w root g) :
    s.Reached w [root] g ∨ s.Hidden w root g := by
  induction h with
  | refl => exact .inl (.root (List.mem_singleton_self root) (hv root))
  | @tail f x _ hx ih =>
      rcases ih with hf | ⟨y, hy, hl⟩
      · obtain ⟨hmem, hk⟩ := hx
        cases hkind : x.kind with
        | compiled => exact absurd hkind hk
        | source => exact .inl (.source hf hmem hkind (hv x))
        | declaration =>
            cases hd : s.graph.hasDeclaration x with
            | false => exact .inl (.declaration hf hmem hkind (hv x) hd)
            | true =>
                by_cases hr : x = root
                · exact .inl (.root (List.mem_singleton.mpr hr) (hv x))
                · exact .inr ⟨x, ⟨hkind, hd, hr, f, hf, hmem⟩, .refl⟩
      · exact .inr ⟨y, hy, hl.tail hx⟩

end Session

/-! ## The second check and a first one -/

/-- A check in a restarted session, beside the same check in a fresh session with the same files. What the
fresh one passes the restarted one passes. The two agree if and only if, where the restarted one passes, the
files hidden behind registered declarations are finitely many and none of them is at fault; and a success
leaves the whole import closure valid exactly if no registered declaration is met. -/
theorem recheck_agrees_iff {s : Session} (hs : s.Restarted) (w : Surroundings) (root : Path)
    (ha : s.afresh.SpelledAlike w [root]) :
    (s.afresh.Passes w root → s.Passes w root) ∧
    ((s.Passes w root ↔ s.afresh.Passes w root) ↔
      (s.Passes w root → {g | s.Hidden w root g}.Finite ∧ ∀ g, s.Hidden w root g → s.Sound w g)) ∧
    ∀ s' o, Task.Steps w (s, .start (.check root)) (s', .done o) → o.isOk = true →
      ((∀ g, s.Leads w root g → s'.isValid g = true) ↔ ∀ x, ¬s.Masked w root x) := by
  have hspelled := hs.coherent.spelledAlike ha
  have hpasses := Session.passes_iff hspelled
  have hfresh := hs.coherent.passes_afresh_iff ha
  have hover : s.afresh.Passes w root → s.Passes w root := by
    rw [hpasses, hfresh]
    rintro ⟨hfin, hsound⟩
    exact ⟨hfin.subset fun f hf => hf.leads_root, fun f hf => hsound f hf.leads_root⟩
  refine ⟨hover, ⟨fun hiff hp => ?_, fun hhidden => ⟨fun hp => ?_, hover⟩⟩, fun s' o hrun ho => ⟨?_, ?_⟩⟩
  · obtain ⟨hfin, hsound⟩ := hfresh.mp (hiff.mp hp)
    exact ⟨hfin.subset fun g hg => hg.leads_root, fun g hg => hsound g hg.leads_root⟩
  · obtain ⟨hfin, hsound⟩ := hpasses.mp hp
    obtain ⟨hfin', hsound'⟩ := hhidden hp
    refine hfresh.mpr ⟨(hfin.union hfin').subset fun g hg => ?_, fun g hg => ?_⟩
    · exact Session.reached_or_hidden hs.not_valid hg
    · exact (Session.reached_or_hidden hs.not_valid hg).elim (hsound g) (hsound' g)
  · intro hvalid x hx
    rcases ((hrun.completed hspelled ho).valid x).mp (hvalid x hx.leads_root) with hv | ⟨f, hf, hsame⟩
    · rw [hs.not_valid] at hv
      cases hv
    · obtain ⟨f', hf', hmem⟩ := hx.named
      obtain rfl := hspelled f x hf.met (hf'.target_met hmem) hsame
      exact hx.not_reached hf
  · intro hnone g hg
    rcases Session.reached_or_hidden hs.not_valid hg with hr | ⟨x, hx, -⟩
    · exact ((hrun.completed hspelled ho).valid g).mpr (.inr ⟨g, hr, Path.Same.refl g⟩)
    · exact absurd hx (hnone x)

/-! ## A declaration that comes to import what does not exist -/

namespace Overlooked

open ImportCheck.Cycle (first session)

def types : Path := .ofString "/p/types.d.ts"

/-- The first file refers to a declaration with the text given. -/
def disk (text : String) : MemoryDisk where
  entries := [(first, "/// <reference path=\"types.d.ts\" />"), (types, text)]
  distinct := show [first.components, types.components].Nodup by decide

def known : KnownFiles where
  aliases := []
  files := { entries := [(first, ()), (types, ())], distinct := by decide }

def before : Surroundings where
  disk := (disk "declare var x: any;").disk
  resolver := known.resolver

def after : Surroundings where
  disk := (disk "import './missing';").disk
  resolver := known.resolver

def firstCheck : Session × Task :=
  Task.replay before [[], [], [0], [0]] (session, .start (.check first))

def notice : Session × Task := Task.replay after [[], []] (firstCheck.1, .start (.fileChanged types))

def secondCheck : Session × Task := Task.replay after [[], [0]] (notice.1, .start (.check first))

def freshCheck : Session × Task :=
  Task.replay after [[], [0], [0, 0], [0, 0], [0, 0], [0, 0]] (notice.1.afresh, .start (.check first))

def changed : Option Outcome → Bool
  | some (.ok (.flag b)) => b
  | _ => false

/-- What the checks come to, and what the session knows after the notice. -/
theorem outcomes : firstCheck.2.outcome?.isSome = true ∧ changed notice.2.outcome? = true ∧
    secondCheck.2.outcome?.map (·.isOk) = some true ∧ freshCheck.2.outcome?.map (·.isOk) = some false ∧
    notice.1.targets after first = [types] ∧ notice.1.specifiers after types = ["./missing"] ∧
    (after.resolve types "./missing").toOption = none ∧
    notice.1.graph.hasDeclaration types = true := by
  decide +kernel

theorem targets_first : notice.1.targets after first = [types] := outcomes.2.2.2.2.1

theorem specifiers_types : notice.1.specifiers after types = ["./missing"] := outcomes.2.2.2.2.2.1

theorem resolve_missing : (after.resolve types "./missing").toOption = none := outcomes.2.2.2.2.2.2.1

theorem registered_types : notice.1.graph.hasDeclaration types = true := outcomes.2.2.2.2.2.2.2

theorem restarted : notice.1.Restarted := by
  have hnotice : notice.2.outcome? = some (.ok (.flag true)) := by
    have h := outcomes.2.1
    unfold changed at h
    split at h
    · next b he => rw [he, h]
    · cases h
  obtain ⟨o, ho⟩ := Option.isSome_iff_exists.mp outcomes.1
  exact .change (.check (.new _ _ _ _) (Task.steps_of_replay ho)) (Task.steps_of_replay hnotice)

theorem secondCheck_run : ∃ o, o.isOk = true ∧
    Task.Steps after (notice.1, .start (.check first)) (secondCheck.1, .done o) := by
  obtain ⟨o, ho, hok⟩ := Option.map_eq_some_iff.mp outcomes.2.2.1
  exact ⟨o, hok, Task.steps_of_replay ho⟩

theorem freshCheck_run : ∃ o, o.isOk = false ∧
    Task.Steps after (notice.1.afresh, .start (.check first)) (freshCheck.1, .done o) := by
  obtain ⟨o, ho, hfail⟩ := Option.map_eq_some_iff.mp outcomes.2.2.2.1
  exact ⟨o, hfail, Task.steps_of_replay ho⟩

theorem spelledAlike : notice.1.afresh.SpelledAlike after [first] := by
  have htypes : notice.1.targets after types = [] := by
    rw [Session.targets, specifiers_types]
    simp [resolve_missing]
  refine Session.spelledAlike_of_closed [first, types] (by decide) (by simp) ?_
  simp [(restarted.coherent.knowAlike_afresh after _).targets, targets_first, htypes]

theorem masked_types : notice.1.Masked after first types where
  kind := by decide
  registered := registered_types
  ne_root := by decide
  named := ⟨first, .root (List.mem_singleton_self first) (restarted.not_valid first), by simp [targets_first]⟩

theorem not_sound_types : ¬notice.1.Sound after types := by
  rintro ⟨-, hx⟩
  obtain ⟨x, hx⟩ := hx "./missing" (by simp [specifiers_types])
  have hmissing := resolve_missing
  rw [hx] at hmissing
  cases hmissing

end Overlooked

/-- A restarted session passes a check that a fresh session with the same files fails. -/
theorem recheck_overlooks : ∃ s : Session, s.Restarted ∧
    (∃ s' o, Task.Steps Overlooked.after (s, .start (.check Cycle.first)) (s', .done o) ∧
      o.isOk = true) ∧
    ∃ s' o, Task.Steps Overlooked.after (s.afresh, .start (.check Cycle.first)) (s', .done o) ∧
      o.isOk = false := by
  obtain ⟨o, ho, hrun⟩ := Overlooked.secondCheck_run
  obtain ⟨o', ho', hrun'⟩ := Overlooked.freshCheck_run
  exact ⟨Overlooked.notice.1, Overlooked.restarted, ⟨_, o, hrun, ho⟩, _, o', hrun', ho'⟩

/-- The declaration hides a fault, so that the two checks cannot agree. -/
theorem recheck_disagrees : ¬(Overlooked.notice.1.Passes Overlooked.after Cycle.first ↔
    Overlooked.notice.1.afresh.Passes Overlooked.after Cycle.first) := by
  obtain ⟨-, hagree, -⟩ :=
    recheck_agrees_iff Overlooked.restarted Overlooked.after Cycle.first Overlooked.spelledAlike
  obtain ⟨o, ho, hrun⟩ := Overlooked.secondCheck_run
  have hspelled := Overlooked.restarted.coherent.spelledAlike Overlooked.spelledAlike
  intro h
  exact Overlooked.not_sound_types ((hagree.mp h (Session.passes_of_steps hspelled hrun ho)).2 _
    ⟨Overlooked.types, Overlooked.masked_types, .refl⟩)

end ImportCheck
