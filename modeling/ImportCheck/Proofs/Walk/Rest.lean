import ImportCheck.Proofs.Walk.Registration
import ImportCheck.Proofs.Walk.Chain

/-!
# When nothing is under way

What the invariants of a run come to when no check is in flight: each call has returned or has not started.
-/

namespace ImportCheck

/-- No check is in flight. -/
def Ledger.Quiet (M : Ledger) : Prop :=
  ∀ e ∈ M, e.owner = none ∧ (e.stage.Closed ∨ ∃ x, e.stage.Calls x)

namespace Ledger.Quiet

variable {M : Ledger} (h : M.Quiet)

include h

theorem opens_eq_zero : M.opens = 0 := opens_of_not_open fun e he => by
  rcases (h e he).2 with hc | ⟨x, hc⟩ <;> cases hs : e.stage <;>
    simp_all [Stage.Closed, Stage.Calls, Stage.open?]

theorem not_awaits (f : Path) (t : String) : ¬M.Awaits f t := by
  rintro ⟨e, he, hl⟩
  rcases (h e he).2 with hc | ⟨x, hc⟩ <;> cases hs : e.stage <;>
    simp_all [Stage.Closed, Stage.Calls, Stage.LooksFor]

theorem not_calling (f x : Path) : ¬M.Calling (some f) x := by
  rintro ⟨e, he, ho, -⟩
  rw [(h e he).1] at ho
  cases ho

theorem not_doomed (f : Path) : ¬M.Doomed f := by
  rintro ⟨e, he, ho, -⟩
  rw [(h e he).1] at ho
  cases ho

theorem not_held (x : Path) : ¬Held M x := by
  intro hx
  cases hx with
  | root he _ hx => simpa [h.opens_eq_zero] using mem_opens.mpr ⟨_, he, hx⟩
  | part _ he _ hx => simpa [h.opens_eq_zero] using mem_opens.mpr ⟨_, he, hx⟩

end Ledger.Quiet

section

variable (w : Surroundings) (s₀ : Session) (roots : List Path)

/-- All that holds at every moment of a run. -/
structure Underway (s : Session) (M : Ledger) : Prop where
  orderly : Orderly w s₀ roots s M
  pursued : Pursued w s₀ roots s M
  honest : Honest w s₀ roots s M
  chained : Chained w s₀ roots s M

/-- The file is reached by way of walked files that are not valid, and past no registration. -/
inductive Within (s : Session) : Path → Prop
  | root {r : Path} (hr : r ∈ roots) : Within s r
  | link {f x : Path} (hf : Within s f) (hw : f ∈ s₀.walkedSince s) (hv : s.isValid f = false)
      (hx : x ∈ s₀.targets w f) (hk : x.kind ≠ .compiled)
      (hd : x.kind = .source ∨ s.graph.hasDeclaration x = false) : Within s x

end

variable {w : Surroundings} {s₀ s : Session} {roots : List Path} {M : Ledger}

theorem LedgerSteps.underway (ht : LedgerSteps w (s₀, .asked roots) (s, M)) (ha : s₀.SpelledAlike w roots) :
    Underway w s₀ roots s M := by
  have hall : ∀ c, LedgerSteps w (s₀, .asked roots) c → Underway w s₀ roots c.1 c.2 := by
    intro c hc
    induction hc with
    | refl => exact ⟨orderly_asked .., pursued_asked .., honest_asked .., chained_asked ..⟩
    | tail _ ht ih =>
        exact ⟨ht.orderly ha ih.orderly, ht.pursued ha ih.orderly ih.pursued,
          ht.honest ha ih.orderly ih.honest, ht.chained ha ih.orderly ih.chained⟩
  exact hall _ ht

theorem LedgerSteps.registered {r : Path} (ht : LedgerSteps w (s₀, .asked [r]) (s, M))
    (ha : s₀.SpelledAlike w [r]) (hover : ¬M.Overrun) : Registered w s₀ r s M := by
  have hall : ∀ c, LedgerSteps w (s₀, .asked [r]) c → ¬c.2.Overrun → Registered w s₀ r c.1 c.2 := by
    intro c hc
    induction hc with
    | refl => exact fun _ => registered_asked w s₀ r
    | tail hrun ht ih =>
        intro hn
        exact ht.registered ha (LedgerSteps.underway hrun ha).orderly hn (ih fun h => hn (ht.overrun h))
  exact hall _ ht hover

namespace Underway

variable (h : Underway w s₀ roots s M) (hq : M.Quiet)

include h hq

theorem target_settled {f x : Path} (hf : f ∈ s₀.walkedSince s) (hx : x ∈ s₀.targets w f)
    (hk : x.kind ≠ .compiled) : s₀.isValid x = true ∨ x ∈ s₀.walkedSince s ∨
      x.kind = .declaration ∧ s₀.graph.hasDeclaration x = true := by
  obtain ⟨t, ht, hr⟩ := Session.mem_targets.mp hx
  rcases h.pursued.targets f hf t ht x hr hk with (hv | hw | ⟨g, hc⟩) | hd | ha
  · exact .inl hv
  · exact .inr (.inl hw)
  · exact absurd hc (hq.not_calling g x)
  · exact .inr (.inr hd)
  · exact absurd ha (hq.not_awaits f t)

/-- A registered declaration was so before, or a walked file names it, and it is settled. -/
theorem declared {p : Path} (hp : s.graph.hasDeclaration p = true) :
    s₀.graph.hasDeclaration p = true ∨ ∃ f ∈ s₀.walkedSince s, ∃ x ∈ s₀.targets w f,
      x.kind = .declaration ∧ x.Same p ∧ (s₀.isValid x = true ∨ x ∈ s₀.walkedSince s) := by
  rcases h.pursued.declared p hp with h₀ | ⟨f, hf, x, hx, hk, hs, hv | hw | ⟨g, hc⟩⟩
  · exact .inl h₀
  · exact .inr ⟨f, hf, x, hx, hk, hs, .inl hv⟩
  · exact .inr ⟨f, hf, x, hx, hk, hs, .inr hw⟩
  · exact absurd hc (hq.not_calling g x)

theorem hasDependency_iff {f : Path} (hf : f ∈ s₀.walkedSince s) (q : Path) :
    s.graph.hasDependency f q = true ↔ ∃ x ∈ s₀.targets w f, x.kind = .source ∧ x.Same q := by
  constructor
  · exact h.pursued.links_new f hf q
  · rintro ⟨x, hx, hk, hs⟩
    obtain ⟨t, ht, hr⟩ := Session.mem_targets.mp hx
    have hl := (h.pursued.links f hf t ht x hr hk).resolve_right (hq.not_awaits f t)
    rwa [s.graph.hasDependency_congr (Path.Same.refl f) hs] at hl

theorem tracked_sound {f : Path} (hf : f ∈ s₀.walkedSince s) (hv : s.isValid f = true) :
    s.isTracked f = true ∧ s₀.Sound w f := by
  have ht : s.isTracked f = true :=
    (h.pursued.obtained f hf).resolve_right (by simp [hq.opens_eq_zero, hv])
  refine ⟨ht, (h.orderly.known f (.inl (h.orderly.met_of_walked hf))).obtainable.mp (.inl ht),
    fun t hm => ?_⟩
  rcases h.pursued.resolved f hf hv t hm with hx | ha | hd
  · exact hx
  · exact absurd ha (hq.not_awaits f t)
  · exact absurd hd (hq.not_doomed f)

theorem within {x : Path} (hx : x ∈ s₀.walkedSince s) (hv : s.isValid x = false) :
    Within w s₀ roots s x := by
  have hchain := h.chained.failed x hx hv
  clear hx hv
  induction hchain with
  | root hr => exact .root hr
  | held hx => exact absurd hx (hq.not_held _)
  | called _ hc => exact absurd hc (hq.not_calling _ _)
  | @link f x t _ hw hm hr hk hv hd ih =>
      rcases hv with hv | hdoom | ha
      · exact .link ih hw hv (Session.mem_targets.mpr ⟨t, hm, hr⟩) hk hd
      · exact absurd hdoom (hq.not_doomed f)
      · exact absurd ha (hq.not_awaits f t)

/-- When all calls have returned, the walked files are those that are reached. -/
theorem walked_iff (hstarted : ∀ r, ¬M.Calling none r) {f : Path} :
    f ∈ s₀.walkedSince s ↔ s₀.Reached w roots f := by
  refine ⟨h.orderly.reached f, fun hf => ?_⟩
  induction hf with
  | root hr hv =>
      rcases h.pursued.roots _ hr with hv' | hw | hc
      · rw [hv] at hv'
        cases hv'
      · exact hw
      · exact absurd hc (hstarted _)
  | source _ hx hk hv ih =>
      rcases h.target_settled hq ih hx (by simp [hk]) with hv' | hw | ⟨hk', -⟩
      · rw [hv] at hv'
        cases hv'
      · exact hw
      · rw [hk] at hk'
        cases hk'
  | declaration _ hx hk hv hd ih =>
      rcases h.target_settled hq ih hx (by simp [hk]) with hv' | hw | ⟨-, hd'⟩
      · rw [hv] at hv'
        cases hv'
      · exact hw
      · rw [hd] at hd'
        cases hd'

end Underway

end ImportCheck
