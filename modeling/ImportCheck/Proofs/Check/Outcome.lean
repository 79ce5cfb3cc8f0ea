import ImportCheck.Proofs.Walk.Bound
import ImportCheck.Proofs.Walk.Checked
import ImportCheck.Resolution.Table

/-!
# What a check comes to

A check returns, whatever the order in which reads and answers come back, when the files that it reaches are
finitely many; it succeeds when each of them can be had and each of their specifiers resolved; and then marks,
registrations and links are known exactly.
-/

namespace ImportCheck

/-- Where a check of the root leaves a session when it succeeds. -/
structure Session.Completed (s : Session) (w : Surroundings) (root : Path) (s' : Session) : Prop where
  valid : ∀ p, s'.isValid p = true ↔ s.isValid p = true ∨ ∃ f, s.Reached w [root] f ∧ f.Same p
  declared : ∀ p, s'.graph.hasDeclaration p = true ↔ s.graph.hasDeclaration p = true ∨
    ∃ f, s.Reached w [root] f ∧ ∃ x ∈ s.targets w f, x.kind = .declaration ∧ x.Same p
  links : ∀ f, s.Reached w [root] f → ∀ q,
    s'.graph.hasDependency f q = true ↔ ∃ x ∈ s.targets w f, x.kind = .source ∧ x.Same q
  links_old : ∀ p, (∀ f, s.Reached w [root] f → ¬f.Same p) → ∀ q,
    s'.graph.hasDependency p q = s.graph.hasDependency p q
  tracked : ∀ f, s.Reached w [root] f → s'.isTracked f = true
  walks : ∃ walked : List Path, s'.walks = s.walks ++ walked ∧ walked.Nodup ∧
    ∀ f, f ∈ walked ↔ s.Reached w [root] f

variable {w : Surroundings} {s s' : Session} {root : Path} {o : Outcome}

theorem Task.Steps.completed (hs : Task.Steps w (s, .start (.check root)) (s', .done o))
    (ha : s.SpelledAlike w [root]) (ho : o.isOk = true) : s.Completed w root s' := by
  have h := hs.checked ha
  obtain ⟨hv, hnodup⟩ := hs.valid_of_ok ha ho
  constructor
  case valid =>
      refine fun p => ⟨h.valid_new p, ?_⟩
      rintro (hp | ⟨f, hf, hsame⟩)
      · exact h.valid_old p hp
      · exact (s'.isValid_congr hsame).symm.trans (hv f hf)
  case declared =>
      refine fun p => ⟨fun hp => (h.declared_new p hp).imp id ?_, ?_⟩
      · rintro ⟨f, hf, x, hx, hk, hsame, -⟩
        exact ⟨f, hf, x, hx, hk, hsame⟩
      · rintro (hp | ⟨f, hf, x, hx, hk, hsame⟩)
        · exact h.declared_old p hp
        · rw [← s'.graph.hasDeclaration_congr hsame]
          rcases h.registered f hf x hx hk with hd | ⟨hx, hn, -⟩
          · exact hd
          · rw [hv x hx] at hn
            cases hn
  case links => exact h.links
  case links_old => exact h.links_old
  case tracked => exact fun f hf => (h.sound f hf (hv f hf)).1
  case walks => exact ⟨s.walkedSince s', h.walks, hnodup, h.walked⟩

theorem Task.Steps.finite_reached (hs : Task.Steps w (s, .start (.check root)) (s', .done o))
    (ha : s.SpelledAlike w [root]) : {f | s.Reached w [root] f}.Finite := by
  refine (s.walkedSince s').finite_toSet.subset fun f hf => ?_
  exact ((hs.checked ha).walked f).mpr hf

theorem Task.returns_iff (ha : s.SpelledAlike w [root]) :
    Task.Returns w (fun _ _ => True) (s, .start (.check root)) ↔ {f | s.Reached w [root] f}.Finite := by
  constructor
  · intro h
    obtain ⟨s', o, hs, -⟩ := h.exists_steps
    exact hs.finite_reached ha
  · intro hfin
    have horderly : Orderly w s [root] s (Task.posts w none (.start (.check root))) := by
      rw [Task.posts_start_check]
      exact orderly_asked w s [root]
    exact Task.returns_of_finite horderly trivial ha hfin

/-- The outcome of a check: under every order of reads and answers it returns if the files that it reaches
are finitely many, it succeeds if and only if all of them are sound, and a success has marked, registered and
linked what they import and nothing else. -/
theorem check_outcome (s : Session) (w : Surroundings) (root : Path) (ha : s.SpelledAlike w [root]) :
    (Task.Returns w (fun _ _ => True) (s, .start (.check root)) ↔ {f | s.Reached w [root] f}.Finite) ∧
      ∀ s' o, Task.Steps w (s, .start (.check root)) (s', .done o) →
        (o.isOk = true ↔ ∀ f, s.Reached w [root] f → s.Sound w f) ∧
        (o.isOk = true → s.Completed w root s') :=
  ⟨Task.returns_iff ha, fun _ _ hs => ⟨hs.isOk_iff ha, hs.completed ha⟩⟩

/-! ## Two files that import each other -/

namespace Cycle

def first : Path := .ofString "/p/a.ts"

def second : Path := .ofString "/p/b.ts"

def disk : MemoryDisk where
  entries := [(first, "import './b';"), (second, "import './a';")]
  distinct := by decide

def known : KnownFiles where
  aliases := []
  files := { entries := [(first, ()), (second, ())], distinct := by decide }

def surroundings : Surroundings where
  disk := disk.disk
  resolver := known.resolver

def session : Session := .new {} (.ofString "/p") .runtime .standard

theorem specifiers_first : session.specifiers surroundings first = ["./b"] := by decide +kernel

theorem specifiers_second : session.specifiers surroundings second = ["./a"] := by decide +kernel

theorem targets_first : session.targets surroundings first = [second] := by decide +kernel

theorem targets_second : session.targets surroundings second = [first] := by decide +kernel

theorem kind_second : second.kind = .source := by decide

section

variable {w : Surroundings} (h₁ : session.targets w first = [second])
  (h₂ : session.targets w second = [first])

include h₁ h₂

theorem reached_iff {f : Path} : session.Reached w [first] f ↔ f = first ∨ f = second := by
  have hfirst : session.Reached w [first] first := .root (by simp) rfl
  constructor
  · intro hf
    induction hf with
    | root hr _ => exact .inl (List.mem_singleton.mp hr)
    | source _ hx _ _ ih =>
        rcases ih with rfl | rfl
        · exact .inr (by simpa [h₁] using hx)
        · exact .inl (by simpa [h₂] using hx)
    | declaration _ hx _ _ _ ih =>
        rcases ih with rfl | rfl
        · exact .inr (by simpa [h₁] using hx)
        · exact .inl (by simpa [h₂] using hx)
  · rintro (rfl | rfl)
    · exact hfirst
    · exact .source hfirst (by simp [h₁]) kind_second rfl

theorem spelledAlike : session.SpelledAlike w [first] :=
  Session.spelledAlike_of_closed [first, second] (by decide) (by simp) (by simp [h₁, h₂])

end

theorem sound {f : Path} (hf : session.Reached surroundings [first] f) : session.Sound surroundings f := by
  rcases (reached_iff targets_first targets_second).mp hf with rfl | rfl
  · refine ⟨.inr ⟨"import './b';", rfl⟩, fun t ht => ?_⟩
    obtain ⟨u, hu, hr⟩ := Session.mem_targets.mp (targets_first ▸ List.mem_singleton_self second)
    rw [specifiers_first, List.mem_singleton] at ht hu
    exact ⟨second, ht ▸ hu ▸ hr⟩
  · refine ⟨.inr ⟨"import './a';", rfl⟩, fun t ht => ?_⟩
    obtain ⟨u, hu, hr⟩ := Session.mem_targets.mp (targets_second ▸ List.mem_singleton_self first)
    rw [specifiers_second, List.mem_singleton] at ht hu
    exact ⟨first, ht ▸ hu ▸ hr⟩

end Cycle

/-- The cycle is walked to its end, and both files are valid then. -/
theorem check_outcome_cycle : ∃ s' o,
    Task.Steps Cycle.surroundings (Cycle.session, .start (.check Cycle.first)) (s', .done o) ∧
      o.isOk = true ∧ s'.isValid Cycle.first = true ∧ s'.isValid Cycle.second = true := by
  have hreached := fun f => Cycle.reached_iff Cycle.targets_first Cycle.targets_second (f := f)
  obtain ⟨hreturns, hdone⟩ := check_outcome Cycle.session Cycle.surroundings Cycle.first
    (Cycle.spelledAlike Cycle.targets_first Cycle.targets_second)
  have hfin : {f | Cycle.session.Reached Cycle.surroundings [Cycle.first] f}.Finite :=
    (Set.toFinite {Cycle.first, Cycle.second}).subset fun f hf => by simpa using (hreached f).mp hf
  obtain ⟨s', o, hs, -⟩ := (hreturns.mpr hfin).exists_steps
  have hok := (hdone s' o hs).1.mpr fun f hf => Cycle.sound hf
  have hvalid : ∀ f, Cycle.session.Reached Cycle.surroundings [Cycle.first] f → s'.isValid f = true :=
    fun f hf => (((hdone s' o hs).2 hok).valid f).mpr (.inr ⟨f, hf, Path.Same.refl f⟩)
  exact ⟨s', o, hs, hok, hvalid _ ((hreached _).mpr (.inl rfl)), hvalid _ ((hreached _).mpr (.inr rfl))⟩

end ImportCheck
