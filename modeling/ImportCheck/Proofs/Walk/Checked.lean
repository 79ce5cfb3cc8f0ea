import ImportCheck.Proofs.Walk.Rest
import ImportCheck.Proofs.Walk.Simulation

/-!
# A check that has returned

The facts about a check of one root that later checks build on, whatever its outcome was.
-/

namespace ImportCheck

section

variable (w : Surroundings) (s : Session) (root : Path) (s' : Session)

/-- The file is reached from the root by way of files whose walks failed, and past no registration. -/
inductive Stranded : Path → Prop
  | root : Stranded root
  | link {f x : Path} (hf : Stranded f) (hr : s.Reached w [root] f) (hv : s'.isValid f = false)
      (hx : x ∈ s.targets w f) (hk : x.kind ≠ .compiled)
      (hd : x.kind = .source ∨ s'.graph.hasDeclaration x = false) : Stranded x

/-- What a check of the root has made of a session. -/
structure Checked : Prop where
  walks : s'.walks = s.walks ++ s.walkedSince s'
  walked : ∀ f, f ∈ s.walkedSince s' ↔ s.Reached w [root] f
  known : ∀ p, (s.Met w [root] p ∨ ∀ f, s.Reached w [root] f → ¬f.Same p) → s.KnowAlike s' w p
  tracked_old : ∀ p, s.isTracked p = true → s'.isTracked p = true
  tracked_new : ∀ f, s.Reached w [root] f → s'.isTracked f = true ∨
    ¬s.Obtainable w f ∧ s'.isValid f = false
  valid_old : ∀ p, s.isValid p = true → s'.isValid p = true
  valid_new : ∀ p, s'.isValid p = true → s.isValid p = true ∨ ∃ f, s.Reached w [root] f ∧ f.Same p
  sound : ∀ f, s.Reached w [root] f → s'.isValid f = true → s'.isTracked f = true ∧ s.Sound w f
  settled : ∀ f, s.Reached w [root] f → ∀ x ∈ s.targets w f, x.kind ≠ .compiled →
    s.isValid x = true ∨ s.Reached w [root] x ∨ x.kind = .declaration ∧ s.graph.hasDeclaration x = true
  declared_old : ∀ p, s.graph.hasDeclaration p = true → s'.graph.hasDeclaration p = true
  declared_new : ∀ p, s'.graph.hasDeclaration p = true → s.graph.hasDeclaration p = true ∨
    ∃ f, s.Reached w [root] f ∧ ∃ x ∈ s.targets w f, x.kind = .declaration ∧ x.Same p ∧
      (s.isValid x = true ∨ s.Reached w [root] x)
  registered : ∀ f, s.Reached w [root] f → ∀ x ∈ s.targets w f, x.kind = .declaration →
    s'.graph.hasDeclaration x = true ∨ s.Reached w [root] x ∧ s'.isValid x = false ∧ x ≠ root
  marked : ∀ x, s.Reached w [root] x → x.kind = .declaration → x ≠ root → s'.isValid x = true →
    s'.graph.hasDeclaration x = true
  links : ∀ f, s.Reached w [root] f → ∀ q,
    s'.graph.hasDependency f q = true ↔ ∃ x ∈ s.targets w f, x.kind = .source ∧ x.Same q
  links_old : ∀ p, (∀ f, s.Reached w [root] f → ¬f.Same p) → ∀ q,
    s'.graph.hasDependency p q = s.graph.hasDependency p q
  stranded : ∀ x, s.Reached w [root] x → s'.isValid x = false → Stranded w s root s' x

end

variable {w : Surroundings} {s s' : Session} {root : Path} {o : Outcome}

/-! ## The ledger of a check that has returned -/

namespace Task

theorem stage_of_mem_posts_done {e : Post} (he : e ∈ posts w none (done o)) :
    e.owner = none ∧ e.stage.Closed ∧ (e.stage.Failed ↔ o.isOk = false) := by
  cases o with
  | ok a =>
      obtain rfl : e = ⟨none, .passed⟩ := by simpa [posts] using he
      exact ⟨rfl, trivial, by simp [Stage.Failed, Except.isOk, Except.toBool]⟩
  | error f =>
      obtain rfl : e = ⟨none, .failed f⟩ := by simpa [posts] using he
      exact ⟨rfl, trivial, by simp [Stage.Failed, Except.isOk, Except.toBool]⟩

theorem quiet_done : (posts w none (done o)).Quiet := fun _ he =>
  ⟨(stage_of_mem_posts_done he).1, .inl (stage_of_mem_posts_done he).2.1⟩

theorem not_overrun_done : ¬(posts w none (done o)).Overrun := by
  rintro ⟨-, e, he, hn⟩
  exact hn (stage_of_mem_posts_done he).1

theorem not_calling_done (r : Path) : ¬(posts w none (done o)).Calling none r := by
  rintro ⟨e, he, -, hc⟩
  have hclosed := (stage_of_mem_posts_done he).2.1
  cases hs : e.stage <;> simp_all [Stage.Closed, Stage.Calls]

theorem flawed_done : (posts w none (done o)).Flawed ↔ o.isOk = false := by
  constructor
  · rintro ⟨e, he, hf⟩
    exact (stage_of_mem_posts_done he).2.2.mp hf
  · intro ho
    cases o with
    | ok a => simp [Except.isOk, Except.toBool] at ho
    | error f => exact ⟨⟨none, .failed f⟩, by simp [posts], trivial⟩

theorem posts_start_check (r : Path) : posts w none (start (.check r)) = .asked [r] := by
  simp [posts, Ledger.asked]

theorem Steps.ledgerSteps_check (hs : Steps w (s, start (.check root)) (s', done o)) :
    LedgerSteps w (s, .asked [root]) (s', posts w none (done o)) := by
  rw [← posts_start_check (w := w)]
  exact hs.ledgerSteps (posts_start_check root ▸ tidy_asked s [root])

theorem Steps.underway (hs : Steps w (s, start (.check root)) (s', done o))
    (ha : s.SpelledAlike w [root]) : Underway w s [root] s' (posts w none (done o)) :=
  hs.ledgerSteps_check.underway ha

theorem Steps.checked (hs : Steps w (s, start (.check root)) (s', done o))
    (ha : s.SpelledAlike w [root]) : Checked w s root s' := by
  have h := hs.underway ha
  have hreg := hs.ledgerSteps_check.registered ha not_overrun_done
  have hq : (posts w none (done o)).Quiet := quiet_done
  have hw : ∀ f, f ∈ s.walkedSince s' ↔ s.Reached w [root] f := fun f => h.walked_iff hq not_calling_done
  constructor
  case walks => exact h.orderly.walks
  case walked => exact hw
  case known =>
      exact fun p hp => h.orderly.known p (hp.imp id fun hp f hf => hp f ((hw f).mp hf))
  case tracked_old => exact fun p hp => hs.ledgerSteps_check.tracked hp
  case tracked_new =>
      intro f hf
      rcases h.pursued.obtained f ((hw f).mpr hf) with ht | hopen | hn
      · exact .inl ht
      · simp [hq.opens_eq_zero] at hopen
      · exact .inr hn
  case valid_old => exact h.orderly.valid_old
  case valid_new => simpa only [hw] using h.orderly.valid_new
  case sound => exact fun f hf => h.tracked_sound hq ((hw f).mpr hf)
  case settled =>
      intro f hf x hx hk
      rw [← hw x]
      exact h.target_settled hq ((hw f).mpr hf) hx hk
  case declared_old => exact h.orderly.declared_old
  case declared_new => simpa only [hw] using fun p => h.declared hq (p := p)
  case registered =>
      intro f hf x hx hk
      obtain ⟨t, ht, hr⟩ := Session.mem_targets.mp hx
      rw [← hw x]
      rcases hreg.complete f ((hw f).mpr hf) t ht x hr hk with hd | hawait | hx
      · exact .inl hd
      · exact absurd hawait (hq.not_awaits f t)
      · exact .inr hx
  case marked => exact fun x hx => hreg.marked x ((hw x).mpr hx)
  case links => exact fun f hf => h.hasDependency_iff hq ((hw f).mpr hf)
  case links_old => exact fun p hp => h.pursued.links_old p fun f hf => hp f ((hw f).mp hf)
  case stranded =>
      intro x hx hv
      have hwithin := h.within hq ((hw x).mpr hx) hv
      clear hx hv
      induction hwithin with
      | root hr => exact List.mem_singleton.mp hr ▸ .root
      | link _ hf hv hx hk hd ih => exact .link ih ((hw _).mp hf) hv hx hk hd

/-- A check that succeeds has marked every file that is reached, each in one walk. -/
theorem Steps.valid_of_ok (hs : Steps w (s, start (.check root)) (s', done o))
    (ha : s.SpelledAlike w [root]) (ho : o.isOk = true) :
    (∀ f, s.Reached w [root] f → s'.isValid f = true) ∧ (s.walkedSince s').Nodup := by
  have hclean := (hs.underway ha).honest.clean
  rw [flawed_done, ho] at hclean
  obtain ⟨hv, hn⟩ := hclean.resolve_left (by simp)
  exact ⟨fun f hf => hv f (((hs.checked ha).walked f).mpr hf), hn⟩

/-- A check succeeds when the files that are reached can be had and resolved, and only then. -/
theorem Steps.isOk_iff (hs : Steps w (s, start (.check root)) (s', done o))
    (ha : s.SpelledAlike w [root]) :
    o.isOk = true ↔ ∀ f, s.Reached w [root] f → s.Sound w f := by
  constructor
  · intro ho f hf
    exact ((hs.checked ha).sound f hf ((hs.valid_of_ok ha ho).1 f hf)).2
  · intro hsound
    by_contra hn
    rw [Bool.not_eq_true] at hn
    obtain ⟨e, he, hf⟩ := flawed_done.mpr hn
    have hsense := (hs.underway ha).orderly.sensible e he
    cases hstage : e.stage with
    | failed f =>
        rw [Post.Sensible, hstage] at hsense
        obtain ⟨g, hg, hng, -⟩ := hsense
        exact hng (hsound g hg)
    | _ => simp [hstage, Stage.Failed] at hf

end Task

end ImportCheck
