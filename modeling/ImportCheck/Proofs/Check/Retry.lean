import ImportCheck.Proofs.Check.Attempt
import ImportCheck.Proofs.Check.Closure

/-!
# Trying again

A root that is checked again is checked as if for the first time, whatever the attempts before have left in
the session.
-/

namespace ImportCheck

/-- The moments of a session in which one root is checked over and over, each time to the end. In between the
disk may change at will, and the resolver as long as it keeps the answers that it gave. -/
inductive Attempts (root : Path) (s₀ : Session) : Surroundings → Session → Prop
  | start (w : Surroundings) : Attempts root s₀ w s₀
  | attempt {w : Surroundings} {s s' : Session} {o : Outcome} (h : Attempts root s₀ w s)
      (ha : s.afresh.SpelledAlike w [root])
      (hs : Task.Steps w (s, .start (.check root)) (s', .done o)) : Attempts root s₀ w s'
  | change {w w' : Surroundings} {s : Session} (h : Attempts root s₀ w s) (hk : s.Keeps w w') :
      Attempts root s₀ w' s

structure Session.Agrees (s s' : Session) : Prop where
  valid : ∀ p, s.isValid p = s'.isValid p
  links : ∀ p q, s.graph.hasDependency p q = s'.graph.hasDependency p q
  declared : ∀ p, s.graph.hasDeclaration p = s'.graph.hasDeclaration p

variable {w : Surroundings} {root : Path} {s s₁ s₂ : Session} {o₁ o₂ : Outcome}

theorem tried_new (options : CompilerOptions) (cwd : Path) (runtime defaultLib : LibFile)
    (files : FileStore) (w : Surroundings) (root : Path) :
    Tried w root { Session.new options cwd runtime defaultLib with files } := by
  have hw : { Session.new options cwd runtime defaultLib with files }.walks = [] := by
    simp [Session.walks, Session.new, Occurrence.walk?]
  constructor
  case coherent => exact Session.coherent_of_no_parses rfl
  case valid => exact fun p hp => by cases hp
  case declared => exact fun p hp => by cases hp
  case links_none => exact fun p _ q => rfl
  all_goals simp [hw]

theorem Attempts.tried {options : CompilerOptions} {cwd : Path} {runtime defaultLib : LibFile}
    {files : FileStore}
    (h : Attempts root { Session.new options cwd runtime defaultLib with files } w s) : Tried w root s := by
  induction h with
  | start w => exact tried_new options cwd runtime defaultLib files w root
  | attempt _ ha hs ih =>
      exact ih.attempt ha (hs.checked (ih.coherent.spelledAlike ha)) (hs.ledgerSteps_check.coherent ih.coherent)
  | change _ hk ih => exact ih.change hk

namespace Tried

variable (h : Tried w root s) (ha : s.afresh.SpelledAlike w [root])

include h ha

theorem finite_iff : {f | s.Reached w [root] f}.Finite ↔ {f | s.Leads w root f}.Finite := by
  constructor
  · intro hfin
    refine (s.walks.finite_toSet.union hfin).subset fun f hf => ?_
    exact ((h.leads_iff ha).mp hf).imp And.left id
  · exact fun hfin => hfin.subset fun f hf => hf.leads_root

theorem sound_iff : (∀ f, s.Reached w [root] f → s.Sound w f) ↔ ∀ f, s.Leads w root f → s.Sound w f := by
  constructor
  · intro hsound f hf
    rcases (h.leads_iff ha).mp hf with ⟨hw, hv⟩ | hr
    · exact (h.sound f hw hv).2
    · exact hsound f hr
  · exact fun hsound f hf => hsound f hf.leads_root

section

variable (hs₁ : Task.Steps w (s, .start (.check root)) (s₁, .done o₁))
  (hs₂ : Task.Steps w (s.afresh, .start (.check root)) (s₂, .done o₂))
  (ho₁ : o₁.isOk = true) (ho₂ : o₂.isOk = true)

include hs₁ hs₂ ho₁ ho₂

theorem valid_eq (p : Path) : s₁.isValid p = s₂.isValid p := by
  have hc₁ := hs₁.completed (h.coherent.spelledAlike ha) ho₁
  have hc₂ := hs₂.completed ha ho₂
  rw [Bool.eq_iff_iff, hc₁.valid p, hc₂.valid p]
  simp only [h.coherent.reached_afresh_iff]
  constructor
  · rintro (hv | ⟨f, hf, hs⟩)
    · obtain ⟨f, hf, hs⟩ := h.valid p hv
      exact .inr ⟨f, (h.traced f hf).leads, hs⟩
    · exact .inr ⟨f, hf.leads_root, hs⟩
  · rintro (hv | ⟨f, hf, hs⟩)
    · cases hv
    · rcases (h.leads_iff ha).mp hf with ⟨-, hv⟩ | hr
      · exact .inl ((s.isValid_congr hs).symm.trans hv)
      · exact .inr ⟨f, hr, hs⟩

theorem declared_eq (p : Path) : s₁.graph.hasDeclaration p = s₂.graph.hasDeclaration p := by
  have hspelled := h.coherent.spelledAlike ha
  have hc₁ := hs₁.completed hspelled ho₁
  have hc₂ := hs₂.completed ha ho₂
  rw [Bool.eq_iff_iff]
  constructor
  · intro hp
    rw [hc₂.declared p]
    simp only [h.coherent.reached_afresh_iff, (h.coherent.knowAlike_afresh w _).targets]
    rcases (hc₁.declared p).mp hp with hd | ⟨f, hf, hx⟩
    · obtain ⟨f, hf, -, x, hx, hk, hs, -⟩ := h.declared p hd
      exact .inr ⟨f, (h.traced f hf).leads, x, hx, hk, hs⟩
    · exact .inr ⟨f, hf.leads_root, hx⟩
  · rw [hc₂.declared p]
    simp only [h.coherent.reached_afresh_iff, (h.coherent.knowAlike_afresh w _).targets]
    rintro (hd | ⟨f, hf, x, hx, hk, hs⟩)
    · cases hd
    · rcases (h.leads_iff ha).mp hf with ⟨hw, hv⟩ | hr
      · rw [← s₁.graph.hasDeclaration_congr hs]
        rcases h.registered f hw hv x hx hk with hd | ⟨hxw, hxv, hne⟩
        · exact (hs₁.checked hspelled).declared_old x hd
        · -- it lost its registration when its walk failed, and has been walked again
          have hxr := h.reached_of_not_valid hxw hxv
          exact (hs₁.checked hspelled).marked x hxr hk hne
            ((hc₁.valid x).mpr (.inr ⟨x, hxr, Path.Same.refl x⟩))
      · exact (hc₁.declared p).mpr (.inr ⟨f, hr, x, hx, hk, hs⟩)

theorem links_eq (p q : Path) : s₁.graph.hasDependency p q = s₂.graph.hasDependency p q := by
  have hc₁ := hs₁.completed (h.coherent.spelledAlike ha) ho₁
  have hc₂ := hs₂.completed ha ho₂
  by_cases hp : ∃ f, s.Leads w root f ∧ f.Same p
  · obtain ⟨f, hf, hs⟩ := hp
    rw [← s₁.graph.hasDependency_congr hs (Path.Same.refl q),
      ← s₂.graph.hasDependency_congr hs (Path.Same.refl q), Bool.eq_iff_iff,
      hc₂.links f (h.coherent.reached_afresh_iff.mpr hf) q, (h.coherent.knowAlike_afresh w f).targets]
    rcases (h.leads_iff ha).mp hf with ⟨hw, hv⟩ | hr
    · rw [hc₁.links_old f (fun g hg hs => ?_) q]
      · exact h.links f hw hv q
      · rw [s.isValid_congr hs.symm, hg.not_valid] at hv
        cases hv
    · exact hc₁.links f hr q
  · rw [hc₁.links_old p (fun f hf hs => hp ⟨f, hf.leads_root, hs⟩) q,
      hc₂.links_old p (fun f hf hs => hp ⟨f, h.coherent.reached_afresh_iff.mp hf, hs⟩) q]
    exact h.links_none p (fun f hf hs => hp ⟨f, (h.traced f hf).leads, hs⟩) q

end

end Tried

/-- Each attempt at a root, beside a check of it in a fresh session with the same files. Under every order of
reads and answers the one returns if the other does, the one succeeds if and only if the other does, and a
success leaves the same files valid, the same links and the same declarations. -/
theorem retry_agrees (options : CompilerOptions) (cwd : Path) (runtime defaultLib : LibFile)
    (files : FileStore) (root : Path) {w : Surroundings} {s : Session}
    (h : Attempts root { Session.new options cwd runtime defaultLib with files } w s)
    (ha : s.afresh.SpelledAlike w [root]) :
    (Task.Returns w (fun _ _ => True) (s, .start (.check root)) ↔
      Task.Returns w (fun _ _ => True) (s.afresh, .start (.check root))) ∧
    (s.Passes w root ↔ s.afresh.Passes w root) ∧
    ∀ s₁ o₁ s₂ o₂, Task.Steps w (s, .start (.check root)) (s₁, .done o₁) →
      Task.Steps w (s.afresh, .start (.check root)) (s₂, .done o₂) →
        (o₁.isOk = true ↔ o₂.isOk = true) ∧ (o₁.isOk = true → s₁.Agrees s₂) := by
  have ht := h.tried
  have hc := ht.coherent
  have hspelled := hc.spelledAlike ha
  refine ⟨?_, ?_, fun s₁ o₁ s₂ o₂ hs₁ hs₂ => ?_⟩
  · rw [Task.returns_iff hspelled, Task.returns_iff ha, ht.finite_iff ha]
    simp only [hc.reached_afresh_iff]
  · rw [Session.passes_iff hspelled, hc.passes_afresh_iff ha, ht.finite_iff ha, ht.sound_iff ha]
  · have hiff : o₁.isOk = true ↔ o₂.isOk = true := by
      rw [hs₁.isOk_iff hspelled, hs₂.isOk_iff ha, ht.sound_iff ha]
      simp only [hc.reached_afresh_iff, (hc.knowAlike_afresh w _).sound]
    refine ⟨hiff, fun ho => ?_⟩
    have ho' := hiff.mp ho
    exact ⟨ht.valid_eq ha hs₁ hs₂ ho ho', ht.links_eq ha hs₁ hs₂ ho ho',
      ht.declared_eq ha hs₁ hs₂ ho ho'⟩

/-! ## A module that comes to exist -/

namespace Repaired

open ImportCheck.Cycle (first second)

def third : Path := .ofString "/p/missing.ts"

/-- The two files of the broken cycle, and the module that was missing. -/
def disk : MemoryDisk where
  entries := [(first, "import './b';\nimport './missing';"), (second, "import './a';"), (third, "")]
  distinct := by decide

def known : KnownFiles where
  aliases := []
  files := { entries := [(first, ()), (second, ()), (third, ())], distinct := by decide }

def surroundings : Surroundings where
  disk := disk.disk
  resolver := known.resolver

def start : Session := { Session.new {} (.ofString "/p") .runtime .standard with files := ∅ }

/-- The second file is checked to its end before the first one fails. -/
def firstAttempt : Session × Task :=
  Task.replay Broken.surroundings [[], [], [0], [0], [0], [0, 0], [0, 0], [1], [1], [1], [1]]
    (start, .start (.check first))

def freshCheck : Session × Task :=
  Task.replay surroundings [[], [0], [0], [0, 0], [0, 0], [1], [1], [1]]
    (firstAttempt.1.afresh, .start (.check first))

/-- What the checks come to, and what the files import before and after the repair. -/
theorem outcomes : firstAttempt.2.outcome?.map (·.isOk) = some false ∧
    firstAttempt.1.isValid first = false ∧ firstAttempt.1.isValid second = true ∧
    freshCheck.2.outcome?.map (·.isOk) = some true ∧
    (∀ f ∈ [first, second], ∀ x ∈ start.afresh.targets Broken.surroundings f, x ∈ [first, second]) ∧
    (∀ f ∈ [first, second, third], ∀ x ∈ firstAttempt.1.afresh.targets surroundings f,
      x ∈ [first, second, third]) ∧
    ∀ f ∈ firstAttempt.1.walks, ∀ t ∈ firstAttempt.1.specifiers Broken.surroundings f,
      (Broken.surroundings.resolve f t).toOption = none ∨
        (surroundings.resolve f t).toOption = (Broken.surroundings.resolve f t).toOption := by
  decide +kernel

theorem keeps : firstAttempt.1.Keeps Broken.surroundings surroundings := by
  intro f hf _ t ht x hx
  rcases outcomes.2.2.2.2.2.2 f hf t ht with hnone | hsame
  · rw [hx] at hnone
    cases hnone
  · rw [hx] at hsame
    cases hr : surroundings.resolve f t with
    | error e => simp [hr, Except.toOption] at hsame
    | ok y => simpa [hr, Except.toOption] using hsame

theorem attempts : Attempts first start surroundings firstAttempt.1 := by
  obtain ⟨o, ho, -⟩ := Option.map_eq_some_iff.mp outcomes.1
  refine .change (.attempt (.start Broken.surroundings) ?_ (Task.steps_of_replay ho)) keeps
  exact Session.spelledAlike_of_closed _ (by decide) (by simp) outcomes.2.2.2.2.1

theorem spelledAlike : firstAttempt.1.afresh.SpelledAlike surroundings [first] :=
  Session.spelledAlike_of_closed _ (by decide) (by simp) outcomes.2.2.2.2.2.1

theorem passes_afresh : firstAttempt.1.afresh.Passes surroundings first := by
  obtain ⟨o, ho, hok⟩ := Option.map_eq_some_iff.mp outcomes.2.2.2.1
  exact Session.passes_of_steps spelledAlike (Task.steps_of_replay ho) hok

end Repaired

/-- After an attempt that left its mark on one file of two, the repaired cycle passes. -/
theorem retry_agrees_repaired : ∃ s, Attempts Cycle.first Repaired.start Repaired.surroundings s ∧
    s.isValid Cycle.first = false ∧ s.isValid Cycle.second = true ∧
      s.Passes Repaired.surroundings Cycle.first := by
  obtain ⟨-, hfirst, hsecond, -⟩ := Repaired.outcomes
  obtain ⟨-, hpasses, -⟩ := retry_agrees {} (.ofString "/p") .runtime .standard ∅ Cycle.first
    Repaired.attempts Repaired.spelledAlike
  exact ⟨_, Repaired.attempts, hfirst, hsecond, hpasses.mpr Repaired.passes_afresh⟩

end ImportCheck
