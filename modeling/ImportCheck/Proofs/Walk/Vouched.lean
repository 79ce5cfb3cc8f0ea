import ImportCheck.Proofs.Walk.Pursuit
import ImportCheck.Proofs.Walk.Simulation

/-!
# Who answers for a registration

A declaration is registered by a part of the work that goes on to check it, and a check that meets the mark of
another walk leaves the rest to that walk. So a registered declaration is valid, or is about to be, for as long
as the walk that it relies on does not fail; a walk that was registered takes the registration with it, and only
that of a root was not registered.
-/

namespace ImportCheck

/-! ## The work of one root -/

/-- What the stage checks or walks is the root. -/
def Stage.About (r : Path) : Stage → Prop
  | .calling x _ => x = r
  | .reading x _ => x = r
  | .scanning x _ => x = r
  | .walking x _ => x = r
  | _ => True

section

variable {w : Surroundings} {s₀ s : Session} {roots : List Path} {M : Ledger} {t : Task}

theorem Tidy.part (h : Tidy s (M + Task.posts w none t)) : Tidy s (Task.posts w none t) := by
  have hmem : ∀ e ∈ Task.posts w none t, e ∈ M + Task.posts w none t := fun e he =>
    Multiset.mem_add.mpr (.inr he)
  constructor
  case distinct =>
      have hd := h.distinct
      rw [Ledger.opens_add, Multiset.map_add, Multiset.nodup_add] at hd
      exact hd.2.1
  case valid => exact fun x hx => h.valid x (by rw [Ledger.opens_add]; exact Multiset.mem_add.mpr (.inr hx))
  case owned =>
      intro e he f hf
      rcases Task.owner_of_mem_posts t he with ho | ⟨g, hg, ho⟩
      · cases ho.symm.trans hf
      · -- what is open in the part is the walk that the whole says owns the post
        obtain rfl : g = f := Option.some.inj (ho.symm.trans hf)
        obtain ⟨e₁, he₁, hopen⟩ := Ledger.mem_opens.mp hg
        obtain ⟨e₂, he₂, registered, hwalk⟩ := h.owned e (hmem e he) g hf
        obtain rfl := h.eq_of_open (hmem e₁ he₁) he₂ hopen (by simp [hwalk, Stage.open?])
        exact ⟨e₁, he₁, registered, hwalk⟩
  case apart => exact fun e he => h.apart e (hmem e he)
  case checks => exact fun e he => h.checks e (hmem e he)

theorem Orderly.part (h : Orderly w s₀ roots s (M + Task.posts w none t)) :
    Orderly w s₀ roots s (Task.posts w none t) := by
  have hmem : ∀ e ∈ Task.posts w none t, e ∈ M + Task.posts w none t := fun e he =>
    Multiset.mem_add.mpr (.inr he)
  exact {
    h with
    tidy := h.tidy.part
    sensible := fun e he => h.sensible e (hmem e he)
    walked := fun x hx => h.walked x (by rw [Ledger.opens_add]; exact Multiset.mem_add.mpr (.inr hx))
    untracked := fun e he => h.untracked e (hmem e he)
    tracked := fun e he => h.tracked e (hmem e he) }

end

section

variable (w : Surroundings) (s₀ : Session) (roots : List Path) (excused : Path → Prop) (r : Path)

/-- The work of one root answers for the registrations, but for those that are excused: each is of a file that
is valid or about to be checked, or of the root after its own walk has failed. -/
structure Vouched (s : Session) (M : Ledger) : Prop where
  about : ∀ e ∈ M, e.owner = none → e.stage.About r
  kinds : ∀ p, s.graph.hasDeclaration p = true → ∃ x, s₀.Met w roots x ∧ x.kind = .declaration ∧ x.Same p
  declared : ∀ p, s.graph.hasDeclaration p = true → s.isValid p = true ∨ excused p ∨
    (∃ e ∈ M, ∃ x, e.stage = .calling x true ∧ x.Same p) ∨ r.Same p ∧ ∃ e, ⟨none, .failed e⟩ ∈ M

end

variable {w : Surroundings} {s₀ : Session} {roots : List Path} {excused : Path → Prop} {r : Path}

namespace Vouched

variable {s s' : Session} {M N N' : Ledger}

/-- The session knows no new registration and has lost no mark, and the rest of the ledger stays. -/
theorem of_posts (h : Vouched w s₀ roots excused r s (M + N)) (ha : ∀ e ∈ N', e.owner = none → e.stage.About r)
    (hd : ∀ p, s'.graph.hasDeclaration p = true → s.graph.hasDeclaration p = true)
    (hv : ∀ p, s.isValid p = true → s'.isValid p = true)
    (hc : ∀ e ∈ N, ∀ x, e.stage = .calling x true → s'.isValid x = true)
    (hf : ∀ e, (⟨none, .failed e⟩ : Post) ∈ N → ∃ e', (⟨none, .failed e'⟩ : Post) ∈ N') :
    Vouched w s₀ roots excused r s' (M + N') := by
  constructor
  case about => exact Ledger.forall_add.mpr ⟨(Ledger.forall_add.mp h.about).1, ha⟩
  case kinds => exact fun p hp => h.kinds p (hd p hp)
  case declared =>
      intro p hp
      rcases h.declared p (hd p hp) with hv₀ | hex | ⟨e, he, x, hx, hs⟩ | ⟨hr, e, he⟩
      · exact .inl (hv p hv₀)
      · exact .inr (.inl hex)
      · rcases Multiset.mem_add.mp he with he | he
        · exact .inr (.inr (.inl ⟨e, Multiset.mem_add.mpr (.inl he), x, hx, hs⟩))
        · exact .inl (s'.isValid_congr hs ▸ hc e he x hx)
      · rcases Multiset.mem_add.mp he with he | he
        · exact .inr (.inr (.inr ⟨hr, e, Multiset.mem_add.mpr (.inl he)⟩))
        · obtain ⟨e', he'⟩ := hf e he
          exact .inr (.inr (.inr ⟨hr, e', Multiset.mem_add.mpr (.inr he')⟩))

/-- A declaration is registered, and is about to be checked. -/
theorem of_register {f x : Path} {t : String}
    (h : Vouched w s₀ roots excused r s (M + {⟨some f, .seeking f t (.ok x)⟩})) (hx : s₀.Met w roots x)
    (hk : x.kind = .declaration) :
    Vouched w s₀ roots excused r (s.register x) (M + {⟨some f, .calling x true⟩}) := by
  constructor
  case about => exact Ledger.forall_add.mpr ⟨(Ledger.forall_add.mp h.about).1, by simp⟩
  case kinds =>
      intro p hp
      rw [Session.hasDeclaration_register, Bool.or_eq_true, decide_eq_true_eq] at hp
      exact hp.elim (fun hs => ⟨x, hx, hk, hs⟩) (h.kinds p)
  case declared =>
      intro p hp
      rw [Session.hasDeclaration_register, Bool.or_eq_true, decide_eq_true_eq] at hp
      rcases hp with hs | hp
      · exact .inr (.inr (.inl ⟨⟨some f, .calling x true⟩, by simp, x, rfl, hs⟩))
      · have hrest : ∀ e, e ∈ M + {⟨some f, Stage.seeking f t (.ok x)⟩} → e.stage ≠ .seeking f t (.ok x) →
            e ∈ M + {⟨some f, .calling x true⟩} := fun e he hne => by
          rcases Multiset.mem_add.mp he with he | he
          · exact Multiset.mem_add.mpr (.inl he)
          · exact absurd (by rw [Multiset.mem_singleton.mp he]) hne
        refine (h.declared p hp).imp id (.imp id (.imp ?_ ?_))
        · rintro ⟨e, he, y, hy, hs⟩
          exact ⟨e, hrest e he (by simp [hy]), y, hy, hs⟩
        · rintro ⟨hs, e, he⟩
          exact ⟨hs, e, hrest _ he (by simp)⟩

/-- A check that was about to begin marks its file. -/
theorem of_enter {o : Option Path} {x : Path} {registered : Bool}
    (h : Vouched w s₀ roots excused r s (M + {⟨o, .calling x registered⟩})) :
    Vouched w s₀ roots excused r (s.enter x) (M + {⟨o, if s.isTracked x then .scanning x registered
      else .reading x registered⟩}) := by
  refine h.of_posts ?_ (fun p hp => by simpa using hp) (fun p hp => by simp [hp]) ?_ (by simp)
  · have habout := (Ledger.forall_add.mp h.about).2
    simp only [Ledger.forall_singleton] at habout ⊢
    split <;> exact habout
  · simp only [Ledger.forall_singleton, Stage.calling.injEq]
    rintro y ⟨rfl, -⟩
    simp [Path.Same.refl]

/-- A walk fails. If it was registered, so is its file no longer; if not, it is that of the root, or its file is
a source. -/
theorem of_drop (ha : s₀.SpelledAlike w roots) {o : Option Path} {x : Path} {registered : Bool} {g : Stage}
    {e : Failure} (h : Vouched w s₀ roots excused r s (M + ({⟨o, g⟩} + N))) (hg : g.open? = some x)
    (haim : Aimed w s₀ roots o x registered) (hn : ∀ e' ∈ N, e'.stage.Closed ∧ e'.owner = some x) :
    Vouched w s₀ roots excused r (s.drop x registered) (M + {⟨o, .failed e⟩}) := by
  constructor
  case about =>
      refine Ledger.forall_add.mpr ⟨(Ledger.forall_add.mp h.about).1, ?_⟩
      simp [Stage.About]
  case kinds =>
      intro p hp
      rw [Session.hasDeclaration_drop, Bool.and_eq_true] at hp
      exact h.kinds p hp.2
  case declared =>
      intro p hp
      rw [Session.hasDeclaration_drop, Bool.and_eq_true] at hp
      obtain ⟨hkept, hd⟩ := hp
      have hroot : o = none → x = r := by
        rintro rfl
        have hx := h.about ⟨none, g⟩ (by simp) rfl
        cases g <;> simp_all [Stage.About, Stage.open?]
      by_cases hs : x.Same p
      · cases o with
        | none => exact .inr (.inr (.inr ⟨hroot rfl ▸ hs, e, by simp⟩))
        | some f =>
            obtain ⟨hf, hx, ⟨hk, -⟩ | ⟨-, rfl, -⟩⟩ := haim
            · obtain ⟨y, hy, hky, hsy⟩ := h.kinds p hd
              obtain rfl := ha x y (hf.target_met hx) hy (hs.trans hsy.symm)
              rw [hk] at hky
              cases hky
            · simp [hs] at hkept
      · rcases h.declared p hd with hv | hex | ⟨e', he', y, hy, hsy⟩ | ⟨hr, e', he'⟩
        · exact .inl (by simp [hs, hv])
        · exact .inr (.inl hex)
        · refine .inr (.inr (.inl ⟨e', ?_, y, hy, hsy⟩))
          rcases Multiset.mem_add.mp he' with he' | he'
          · exact Multiset.mem_add.mpr (.inl he')
          · rcases Multiset.mem_add.mp he' with he' | he'
            · obtain rfl := Multiset.mem_singleton.mp he'
              simp only at hy
              simp [hy, Stage.open?] at hg
            · have := (hn e' he').1
              simp [hy, Stage.Closed] at this
        · refine .inr (.inr (.inr ⟨hr, ?_⟩))
          rcases Multiset.mem_add.mp he' with he' | he'
          · exact ⟨e', Multiset.mem_add.mpr (.inl he')⟩
          · rcases Multiset.mem_add.mp he' with he' | he'
            · have := Multiset.mem_singleton.mp he'
              simp only [Post.mk.injEq] at this
              simp [← this.2, Stage.open?] at hg
            · cases (hn _ he').2

end Vouched

theorem LedgerStep.vouched {c c' : Session × Ledger} (ht : LedgerStep w c c') (ha : s₀.SpelledAlike w roots)
    (ho : Orderly w s₀ roots c.1 c.2) (h : Vouched w s₀ roots excused r c.1 c.2) :
    Vouched w s₀ roots excused r c'.1 c'.2 := by
  cases ht with
  | @note s s' M halike =>
      exact ⟨h.about, fun p hp => h.kinds p (halike.graph ▸ hp), fun p hp => by
        rw [halike.isValid_eq]
        exact h.declared p (halike.graph ▸ hp)⟩
  | unresolved => exact h.of_posts (by simp [Stage.About]) (fun _ => id) (fun _ => id) (by simp) (by simp)
  | compiled _ => exact h.of_posts (by simp [Stage.About]) (fun _ => id) (fun _ => id) (by simp) (by simp)
  | known _ _ => exact h.of_posts (by simp [Stage.About]) (fun _ => id) (fun _ => id) (by simp) (by simp)
  | @register s M o f x t hk hd =>
      obtain ⟨hown, hf, hm, hr⟩ := ho.sensible ⟨o, .seeking f t (.ok x)⟩ (by simp)
      obtain rfl : o = some f := hown
      exact h.of_register (hf.target_met (Session.mem_targets.mpr ⟨t, hm, hr.symm⟩)) hk
  | @link s M o f x t hk =>
      obtain ⟨hown, -⟩ := ho.sensible ⟨o, .seeking f t (.ok x)⟩ (by simp)
      obtain rfl : o = some f := hown
      exact h.of_posts (by simp) (fun p hp => by simpa using hp) (fun _ => id) (by simp) (by simp)
  | @trust s M o x registered hv =>
      refine h.of_posts (by simp [Stage.About]) (fun _ => id) (fun _ => id) ?_ (by simp)
      simp only [Ledger.forall_singleton, Stage.calling.injEq]
      rintro y ⟨rfl, -⟩
      exact hv
  | @enter s M o x registered hv => exact h.of_enter
  | @unreadable s M o x registered fault _ =>
      have haim : Aimed w s₀ roots o x registered := ho.sensible ⟨o, .reading x registered⟩ (by simp)
      rw [← add_zero {_}] at h
      exact h.of_drop ha rfl haim (by simp)
  | store _ =>
      have habout := Ledger.forall_singleton.mp (Ledger.forall_add.mp h.about).2
      exact h.of_posts (Ledger.forall_singleton.mpr habout) (fun _ => id) (fun _ => id) (by simp) (by simp)
  | @scan s M o x registered found _ =>
      have habout := Ledger.forall_singleton.mp (Ledger.forall_add.mp h.about).2
      refine h.of_posts (Ledger.forall_add.mpr ⟨Ledger.forall_singleton.mpr habout, fun e he => ?_⟩)
        (fun _ => id) (fun _ => id) (by simp) (by simp)
      obtain ⟨t, -, rfl⟩ := mem_seekers.mp he
      simp
  | @succeed s M N o x registered _ hn =>
      refine h.of_posts (by simp [Stage.About]) (fun _ => id) (fun _ => id) ?_ ?_
      · refine Ledger.forall_add.mpr ⟨by simp, fun e he y hy => ?_⟩
        cases (hn e he).2.symm.trans hy
      · intro e he
        rcases Multiset.mem_add.mp he with he | he
        · cases (Post.mk.injEq .. ▸ Multiset.mem_singleton.mp he).2
        · cases (hn _ he).1
  | @fail s M N o x registered e _ hn _ =>
      have haim : Aimed w s₀ roots o x registered := ho.sensible ⟨o, .walking x registered⟩ (by simp)
      exact h.of_drop ha rfl haim fun e' he' => (hn e' he').symm

theorem LedgerSteps.vouched {c c' : Session × Ledger} (ht : LedgerSteps w c c') (ha : s₀.SpelledAlike w roots)
    (ho : Orderly w s₀ roots c.1 c.2) (h : Vouched w s₀ roots excused r c.1 c.2) :
    Vouched w s₀ roots excused r c'.1 c'.2 := by
  have hall : ∀ d, LedgerSteps w c d → Orderly w s₀ roots d.1 d.2 ∧ Vouched w s₀ roots excused r d.1 d.2 := by
    intro d hd
    induction hd with
    | refl => exact ⟨ho, h⟩
    | tail _ ht ih => exact ⟨ht.orderly ha ih.1, ht.vouched ha ih.1 ih.2⟩
  exact (hall _ ht).2

end ImportCheck
