import ImportCheck.Proofs.Check.Closure
import ImportCheck.Proofs.Walk.Together
import ImportCheck.Proofs.Walk.Vouched

/-!
# Declarations that stay registered

A declaration whose walk was registered loses its registration when the walk fails. When it is a root, its walk
is not registered, and a part of the work that meets it meanwhile registers it on the strength of its mark: then
the root can fail, and what stays registered is not valid.
-/

namespace ImportCheck

namespace Task

variable {w : Surroundings}

mutual
/-- No task rests between the registration of a declaration and the check of it. -/
theorem not_calling_registered {o : Option Path} {e : Post} {x : Path} : (t : Task) → e ∈ posts w o t →
    e.stage ≠ .calling x true
  | start request, he => by cases request <;> simp_all [posts]
  | reading f goal due, he => by cases goal <;> simp_all [posts]
  | resolving f t c rest goal due, he => by cases goal <;> simp_all [posts]
  | done outcome, he => by cases outcome <;> simp_all [posts]
  | group parts, he => not_calling_registered_of parts (by simpa only [posts] using he)
  | walk f registered parts, he => by
      simp only [posts, Multiset.mem_add, Multiset.mem_singleton] at he
      rcases he with rfl | he
      · simp
      · exact not_calling_registered_of parts he

theorem not_calling_registered_of {o : Option Path} {e : Post} {x : Path} : (ts : List Task) →
    e ∈ postsOf w o ts → e.stage ≠ .calling x true
  | [], he => by simp [postsOf] at he
  | t :: ts, he => by
      rcases Multiset.mem_add.mp (by simpa only [postsOf] using he) with he | he
      · exact not_calling_registered t he
      · exact not_calling_registered_of ts he
end

/-- The failure of a root is its last word. -/
theorem eq_done_of_failed {t : Task} {e : Failure} (h : t.Settled)
    (he : (⟨none, .failed e⟩ : Post) ∈ posts w none t) : t = done (.error e) := by
  cases t with
  | start request => cases request <;> simp [posts] at he
  | reading f goal due => cases goal <;> simp [posts] at he
  | resolving f t c rest goal due => cases goal <;> simp [posts] at he
  | group parts => exact h.elim
  | walk f registered parts =>
      simp only [posts, Multiset.mem_add, Multiset.mem_singleton, Post.mk.injEq, reduceCtorEq, and_false,
        false_or] at he
      rcases owner_of_mem_postsOf parts he with ho | ⟨g, -, ho⟩ <;> cases ho
  | done outcome =>
      cases outcome with
      | ok a => simp [posts] at he
      | error e' =>
          obtain rfl : e = e' := by simpa [posts] using he
          rfl

end Task

/-! ## Any number of roots -/

/-- A check of the place has failed that was one of the checks of the roots. -/
def FailedRoot (roots : List Path) (parts : List Task) (p : Path) : Prop :=
  ∃ (i : Nat) (r : Path) (e : Failure), roots[i]? = some r ∧ parts[i]? = some (.done (.error e)) ∧ r.Same p

/-- Every registration is answered for: its file is valid, or a check of it as a root has failed. -/
structure Answered (w : Surroundings) (s₀ : Session) (roots : List Path) (s : Session) (parts : List Task) :
    Prop where
  settled : ∀ t ∈ parts, t.Settled
  about : ∀ (i : Nat) (t : Task), parts[i]? = some t → ∃ r, roots[i]? = some r ∧
    ∀ e ∈ Task.posts w none t, e.owner = none → e.stage.About r
  kinds : ∀ p, s.graph.hasDeclaration p = true → ∃ x, s₀.Met w roots x ∧ x.kind = .declaration ∧ x.Same p
  declared : ∀ p, s.graph.hasDeclaration p = true → s.isValid p = true ∨ FailedRoot roots parts p

variable {w : Surroundings} {s₀ s s' : Session} {roots : List Path} {parts parts' : List Task}

theorem answered_start (hb : s₀.Blank) :
    Answered w s₀ roots s₀ (roots.map fun r => .start (.check r)) where
  settled t ht := by
    obtain ⟨r, -, rfl⟩ := List.mem_map.mp ht
    trivial
  about i t ht := by
    obtain ⟨r, hr, rfl⟩ := Option.map_eq_some_iff.mp (List.getElem?_map ▸ ht)
    exact ⟨r, hr, by simp [Task.posts, Stage.About]⟩
  kinds p hp := by
    rw [hb.not_declared] at hp
    cases hp
  declared p hp := by
    rw [hb.not_declared] at hp
    cases hp

theorem Answered.step (h : Answered w s₀ roots s parts) (ha : s₀.SpelledAlike w roots)
    (ho : Orderly w s₀ roots s (Task.posts w none (.group parts)))
    (hs : Task.Step w (s, .group parts) (s', .group parts')) : Answered w s₀ roots s' parts' := by
  obtain ⟨now, place, hp, he⟩ := hs
  cases place with
  | nil => simp [Task.waitsAt] at hp
  | cons i rest =>
      cases hi : parts[i]? with
      | none => simp [Task.waitsAt, hi] at hp
      | some part =>
          have hwaits : part.waitsAt rest = true := by simpa [Task.waitsAt, hi] using hp
          obtain ⟨s₁, part', hadvance⟩ : ∃ s₁ part', part.advance w now rest s = (s₁, part') := ⟨_, _, rfl⟩
          simp only [Task.advance, hi, hadvance, Prod.mk.injEq, Task.group.injEq] at he
          obtain ⟨rfl, rfl⟩ := he
          obtain ⟨r, hr, habout⟩ := h.about i part hi
          have hpart : part.Settled := h.settled part (List.mem_of_getElem? hi)
          have hpart' : part'.Settled := by
            have := hpart.advance w now rest s
            rwa [hadvance] at this
          -- only the work of this root goes on, and it answers for what the others do not
          have horderly : Orderly w s₀ roots s (Task.posts w none part) := by
            refine Orderly.part (M := Task.postsOf w none (parts.eraseIdx i)) ?_
            rwa [← Task.postsOf_eq hi]
          have hledger := Task.ledgerSteps_advance (w := w) now rest s part 0 none
            (by simpa using horderly.tidy) (by simp) (by simp)
          simp only [zero_add, hadvance] at hledger
          have hvouched : Vouched w s₀ roots (FailedRoot roots parts) r s (Task.posts w none part) :=
            ⟨habout, h.kinds, fun p hd => (h.declared p hd).imp id .inl⟩
          have hvouched' := hledger.vouched ha horderly hvouched
          have hkeeps : ∀ p, FailedRoot roots parts p → FailedRoot roots (parts.set i part') p := by
            rintro p ⟨j, r', e, hr', hj, hsame⟩
            have hne : i ≠ j := by
              rintro rfl
              obtain rfl : part = .done (.error e) := Option.some.inj (hi.symm.trans hj)
              cases rest <;> simp [Task.waitsAt] at hwaits
            exact ⟨j, r', e, hr', by rw [List.getElem?_set_ne hne, hj], hsame⟩
          constructor
          case settled =>
              intro t ht
              rcases List.mem_or_eq_of_mem_set ht with ht | rfl
              · exact h.settled t ht
              · exact hpart'
          case about =>
              intro j t ht
              by_cases hij : i = j
              · subst hij
                have hlt := (List.getElem?_eq_some_iff.mp hi).1
                obtain rfl : part' = t := by simpa [List.getElem?_set_self hlt] using ht
                exact ⟨r, hr, hvouched'.about⟩
              · rw [List.getElem?_set_ne hij] at ht
                exact h.about j t ht
          case kinds => exact hvouched'.kinds
          case declared =>
              intro p hd
              rcases hvouched'.declared p hd with hv | hex | ⟨e, hmem, x, hx, -⟩ | ⟨hsame, e, hmem⟩
              · exact .inl hv
              · exact .inr (hkeeps p hex)
              · exact absurd hx (Task.not_calling_registered part' hmem)
              · refine .inr ⟨i, r, e, hr, ?_, hsame⟩
                rw [List.getElem?_set_self (List.getElem?_eq_some_iff.mp hi).1,
                  Task.eq_done_of_failed hpart' hmem]

theorem Task.Steps.answered (hb : s₀.Blank) (ha : s₀.SpelledAlike w roots)
    (hs : Task.Steps w (s₀, .group (roots.map fun r => .start (.check r))) (s, .group parts)) :
    Answered w s₀ roots s parts := by
  have hall : ∀ c, Task.Steps w (s₀, .group (roots.map fun r => .start (.check r))) c →
      ∃ parts, c.2 = .group parts ∧ Answered w s₀ roots c.1 parts := by
    intro c hc
    induction hc with
    | refl => exact ⟨_, rfl, answered_start hb⟩
    | @tail b c hrun hstep ih =>
        obtain ⟨s₁, t₁⟩ := b
        obtain ⟨parts, rfl, h⟩ := ih
        obtain ⟨parts', hparts', -, -⟩ := Task.Steps.of_group h.settled (.single hstep)
        obtain ⟨s₂, t₂⟩ := c
        obtain rfl : t₂ = .group parts' := hparts'
        exact ⟨parts', rfl, h.step ha (Task.Steps.underway_group hrun ha).orderly hstep⟩
  obtain ⟨parts', he, h⟩ := hall _ hs
  obtain rfl : parts = parts' := Task.group.inj he
  exact h

/-- A declaration that a check meets and that is not valid is walked, unless it is registered. -/
theorem Task.Steps.walked_declaration_iff {f x : Path} {o : Outcome}
    (hs : Task.Steps w (s, .start (.check f)) (s', .done o)) (ha : s.SpelledAlike w [f])
    (hf : s.isValid f = false) (hx : x ∈ s.targets w f) (hk : x.kind = .declaration)
    (hv : s.isValid x = false) :
    x ∈ s.walkedSince s' ↔ s.graph.hasDeclaration x = false ∨ x = f := by
  rw [(hs.checked ha).walked x]
  have hroot : s.Reached w [f] f := .root (List.mem_singleton_self f) hf
  constructor
  · intro h
    cases h with
    | root hr _ => exact .inr (List.mem_singleton.mp hr)
    | source _ _ hk' _ =>
        rw [hk] at hk'
        cases hk'
    | declaration _ _ _ _ hd => exact .inl hd
  · rintro (hd | rfl)
    · exact .declaration hroot hx hk hv hd
    · exact hroot

/-- Registrations after any number of checks of any roots in a new session, in any order and at any moment. A
registered declaration is valid, or else it is a root that is a declaration, and a check of that root has failed.
And a later check of a file that names a declaration which is not valid walks the declaration again if it is not
registered, and only then, unless it is the file itself. -/
theorem declared_valid_or_failed_root (options : CompilerOptions) (cwd : Path) (runtime defaultLib : LibFile)
    (w : Surroundings) (roots : List Path)
    (ha : (Session.new options cwd runtime defaultLib).SpelledAlike w roots) {s : Session}
    {parts : List Task}
    (hs : Task.Steps w (.new options cwd runtime defaultLib, .group (roots.map fun r => .start (.check r)))
      (s, .group parts)) :
    (∀ p, s.graph.hasDeclaration p = true → s.isValid p = true ∨ ∃ (i : Nat) (r : Path) (e : Failure),
      roots[i]? = some r ∧ parts[i]? = some (.done (.error e)) ∧ r.kind = .declaration ∧ r.Same p) ∧
    ∀ f x, s.isValid f = false → x ∈ s.targets w f → x.kind = .declaration → s.isValid x = false →
      s.SpelledAlike w [f] → ∀ s' o, Task.Steps w (s, .start (.check f)) (s', .done o) →
        (x ∈ s.walkedSince s' ↔ s.graph.hasDeclaration x = false ∨ x = f) := by
  have h := hs.answered (Session.blank_new ..) ha
  refine ⟨fun p hp => (h.declared p hp).imp id ?_, fun f x hf hx hk hv ha' s' o hs' =>
    hs'.walked_declaration_iff ha' hf hx hk hv⟩
  rintro ⟨i, r, e, hr, he, hsame⟩
  obtain ⟨x, hmet, hk, hx⟩ := h.kinds p hp
  obtain rfl := ha r x (.inl (List.mem_of_getElem? hr)) hmet (hsame.trans hx.symm)
  exact ⟨i, r, e, hr, he, hk, hsame⟩

/-! ## A declaration that names itself -/

namespace Orphaned

open ImportCheck.Cycle (session)

def types : Path := .ofString "/p/d.d.ts"

def user : Path := .ofString "/p/a.ts"

/-- The declaration refers to itself and imports a module that does not exist; another file refers to it. -/
def disk : MemoryDisk where
  entries := [(types, "/// <reference path=\"d.d.ts\" />\nimport './missing';"),
    (user, "/// <reference path=\"d.d.ts\" />")]
  distinct := by decide

def known : KnownFiles where
  aliases := []
  files := { entries := [(types, ()), (user, ())], distinct := by decide }

def surroundings : Surroundings where
  disk := disk.disk
  resolver := known.resolver

def checks : Task := .group ([types].map fun r => .start (.check r))

def failed : Session × Task :=
  Task.replay surroundings [[0], [0], [0, 0], [0, 1], [0, 1], [0, 1], [0, 1]] (session, checks)

def later (s : Session) : Session × Task := Task.replay surroundings [[], [], [0]] (s, .start (.check user))

def failedOnly : Task → Bool
  | .group [.done (.error _)] => true
  | _ => false

/-- What a failed check of the declaration leaves behind. -/
structure Left (s : Session) : Prop where
  declared : s.graph.hasDeclaration types = true
  types_invalid : s.isValid types = false
  user_invalid : s.isValid user = false
  targets_types : s.targets surroundings types = [types]
  targets_user : s.targets surroundings user = [types]

theorem Left.spelledAlike {s : Session} (h : Left s) : s.SpelledAlike surroundings [user] :=
  Session.spelledAlike_of_closed [user, types] (by decide) (by simp)
    (by simp [h.targets_types, h.targets_user])

theorem targets_before : session.targets surroundings types = [types] := by decide +kernel

theorem spelledAlike : session.SpelledAlike surroundings [types] :=
  Session.spelledAlike_of_closed [types] (by decide) (by simp) (by simp [targets_before])

theorem outcomes : failedOnly failed.2 = true ∧ failed.1.graph.hasDeclaration types = true ∧
    failed.1.isValid types = false ∧ failed.1.isValid user = false ∧
    failed.1.targets surroundings types = [types] ∧ failed.1.targets surroundings user = [types] ∧
    (later failed.1).2.outcome?.map (·.isOk) = some true := by
  decide +kernel

/-- The check of the declaration fails, and a later check of the file that refers to it succeeds. -/
theorem runs : ∃ s e s' o, Task.Steps surroundings (session, checks) (s, .group [.done (.error e)]) ∧ Left s ∧
    Task.Steps surroundings (s, .start (.check user)) (s', .done o) ∧ o.isOk = true := by
  have hrun : Task.Steps surroundings (session, checks) failed := Task.steps_replay ..
  have hout := outcomes
  generalize failed = c at hrun hout
  obtain ⟨s, t⟩ := c
  obtain ⟨hfailed, hd, hv, hu, ht, hx, hlater⟩ := hout
  obtain ⟨o, ho, hok⟩ := Option.map_eq_some_iff.mp hlater
  simp only [failedOnly] at hfailed
  split at hfailed
  · exact ⟨s, _, _, o, hrun, ⟨hd, hv, hu, ht, hx⟩, Task.steps_of_replay ho, hok⟩
  · cases hfailed

end Orphaned

/-- The check of a declaration has failed, and it is still registered, so that a check of a file that refers to
it succeeds. -/
theorem declared_not_valid : ∃ s parts, Task.Steps Orphaned.surroundings (Cycle.session, Orphaned.checks)
    (s, .group parts) ∧ (∀ t ∈ parts, t.Idle) ∧ ∃ f x, x ∈ s.targets Orphaned.surroundings f ∧
      s.graph.hasDeclaration x = true ∧ s.isValid x = false ∧
      ∃ s' o, Task.Steps Orphaned.surroundings (s, .start (.check f)) (s', .done o) ∧ o.isOk = true := by
  obtain ⟨s, e, s', o, hrun, hleft, hlater, hok⟩ := Orphaned.runs
  exact ⟨s, _, hrun, by simp [Task.Idle], Orphaned.user, Orphaned.types, by simp [hleft.targets_user],
    hleft.declared, hleft.types_invalid, s', o, hlater, hok⟩

/-- The declaration is the root whose check failed, and the file that refers to it does not have it walked. -/
theorem declared_valid_or_failed_root_orphaned : ∃ s s' parts o,
    Task.Steps Orphaned.surroundings (Cycle.session, Orphaned.checks) (s, .group parts) ∧
    (∃ e, parts[0]? = some (.done (.error e))) ∧
    Task.Steps Orphaned.surroundings (s, .start (.check Orphaned.user)) (s', .done o) ∧
    Orphaned.types ∉ s.walkedSince s' := by
  obtain ⟨s, e, s', o, hrun, hleft, hlater, -⟩ := Orphaned.runs
  obtain ⟨hvalid, hwalked⟩ := declared_valid_or_failed_root {} (.ofString "/p") .runtime .standard
    Orphaned.surroundings [Orphaned.types] Orphaned.spelledAlike hrun
  refine ⟨s, s', _, o, hrun, ?_, hlater, fun hmem => ?_⟩
  · rcases hvalid _ hleft.declared with hv | ⟨i, r, e', hr, he, -⟩
    · rw [hleft.types_invalid] at hv
      cases hv
    · obtain ⟨rfl, -⟩ : i = 0 ∧ Orphaned.types = r := by cases i <;> simp_all
      exact ⟨e', he⟩
  · rcases (hwalked _ _ hleft.user_invalid (by simp [hleft.targets_user]) (by decide) hleft.types_invalid
      hleft.spelledAlike s' o hlater).mp hmem with hd | he
    · rw [hleft.declared] at hd
      cases hd
    · exact absurd he (by decide)

end ImportCheck
