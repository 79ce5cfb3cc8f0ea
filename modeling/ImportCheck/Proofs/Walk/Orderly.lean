import ImportCheck.Proofs.Walk.Tidy

/-!
# The order that all checks keep

At every moment of a run, however reads and answers come back: only files that are reached from the roots
have been walked, marks and registrations from before are untouched, the texts are those that the run found
at its start, and each part of the work has a reason that the start gave.
-/

namespace ImportCheck

/-- The files whose walks have started since an earlier moment. -/
def Session.walkedSince (s₀ s : Session) : List Path := s.walks.drop s₀.walks.length

theorem Session.walkedSince_enter {s₀ s : Session} (h : s.walks = s₀.walks ++ s₀.walkedSince s) (x : Path) :
    s₀.walkedSince (s.enter x) = s₀.walkedSince s ++ [x] := by
  rw [walkedSince, walks_enter, h]
  simp

section

variable (w : Surroundings) (s₀ : Session) (roots : List Path)

/-- Why a check of `x` was asked for: it is a root, or the target of a specifier of the owner. A
declaration is then not registered from before. -/
def Aimed (o : Option Path) (x : Path) (registered : Bool) : Prop :=
  match o with
  | none => x ∈ roots ∧ registered = false
  | some f => s₀.Reached w roots f ∧ x ∈ s₀.targets w f ∧
      (x.kind = .source ∧ registered = false ∨
        x.kind = .declaration ∧ registered = true ∧ s₀.graph.hasDeclaration x = false)

/-- What a post says about the run, without regard to the session as it is now. -/
def Post.Sensible (e : Post) : Prop :=
  match e.stage with
  | .calling x registered => Aimed w s₀ roots e.owner x registered
  | .seeking f t answer => e.owner = some f ∧ s₀.Reached w roots f ∧ t ∈ s₀.specifiers w f ∧
      answer = w.resolve f t
  | .reading x registered => Aimed w s₀ roots e.owner x registered
  | .scanning x registered => Aimed w s₀ roots e.owner x registered
  | .walking x registered => Aimed w s₀ roots e.owner x registered
  | .passed => True
  | .failed _ => ∃ g, s₀.Reached w roots g ∧ ¬s₀.Sound w g ∧ ∀ f, e.owner = some f → s₀.Leads w f g
  | .foreign => True

structure Orderly (s : Session) (M : Ledger) : Prop where
  tidy : Tidy s M
  walks : s.walks = s₀.walks ++ s₀.walkedSince s
  reached : ∀ f ∈ s₀.walkedSince s, s₀.Reached w roots f
  valid_old : ∀ p, s₀.isValid p = true → s.isValid p = true
  valid_new : ∀ p, s.isValid p = true → s₀.isValid p = true ∨ ∃ f ∈ s₀.walkedSince s, f.Same p
  declared_old : ∀ p, s₀.graph.hasDeclaration p = true → s.graph.hasDeclaration p = true
  known : ∀ p, (s₀.Met w roots p ∨ ∀ f ∈ s₀.walkedSince s, ¬f.Same p) → s₀.KnowAlike s w p
  sensible : ∀ e ∈ M, e.Sensible w s₀ roots
  walked : ∀ x ∈ M.opens, x ∈ s₀.walkedSince s
  untracked : ∀ e ∈ M, ∀ x registered, e.stage = .reading x registered → s.isTracked x = false
  tracked : ∀ e ∈ M, ∀ x registered, e.stage = .scanning x registered ∨ e.stage = .walking x registered →
    s.isTracked x = true

end

variable {w : Surroundings} {s₀ : Session} {roots : List Path}

/-! ## Reasons -/

theorem Aimed.met {o : Option Path} {x : Path} {registered : Bool}
    (h : Aimed w s₀ roots o x registered) : s₀.Met w roots x := by
  cases o with
  | none => exact .inl h.1
  | some f => exact h.1.target_met h.2.1

theorem Aimed.leads {f x : Path} {registered : Bool} (h : Aimed w s₀ roots (some f) x registered) :
    s₀.Leads w f x := by
  refine .single ⟨h.2.1, ?_⟩
  rcases h.2.2 with ⟨hk, -⟩ | ⟨hk, -⟩ <;> simp [hk]

theorem Aimed.reached {o : Option Path} {x : Path} {registered : Bool}
    (h : Aimed w s₀ roots o x registered) (hv : s₀.isValid x = false) : s₀.Reached w roots x := by
  cases o with
  | none => exact .root h.1 hv
  | some f =>
      obtain ⟨hf, hx, ⟨hk, -⟩ | ⟨hk, -, hd⟩⟩ := h
      · exact .source hf hx hk hv
      · exact .declaration hf hx hk hv hd

theorem Aimed.not_registered {o : Option Path} {x : Path} (h : Aimed w s₀ roots o x true) :
    s₀.graph.hasDeclaration x = false := by
  cases o with
  | none => exact absurd h.2 (by simp)
  | some f =>
      obtain ⟨-, -, ⟨-, hr⟩ | ⟨-, -, hd⟩⟩ := h
      · cases hr
      · exact hd

theorem Aimed.failed {o : Option Path} {x g : Path} {registered : Bool} {e : Failure}
    (h : Aimed w s₀ roots o x registered) (hg : s₀.Reached w roots g) (hs : ¬s₀.Sound w g)
    (hl : s₀.Leads w x g) : Post.Sensible w s₀ roots ⟨o, .failed e⟩ := by
  refine ⟨g, hg, hs, ?_⟩
  rintro f rfl
  exact h.leads.trans hl

namespace Orderly

variable {s s' : Session} {M N N' : Ledger}

/-! ## Facts of an orderly moment -/

theorem met_of_walked (h : Orderly w s₀ roots s M) {f : Path} (hf : f ∈ s₀.walkedSince s) :
    s₀.Met w roots f := (h.reached f hf).met

theorem eq_of_same (h : Orderly w s₀ roots s M) (ha : s₀.SpelledAlike w roots) {f x : Path}
    (hf : f ∈ s₀.walkedSince s) (hx : s₀.Met w roots x) (hs : f.Same x) : f = x :=
  ha f x (h.met_of_walked hf) hx hs

theorem not_valid_before (h : Orderly w s₀ roots s M) {x : Path} (hv : s.isValid x = false) :
    s₀.isValid x = false := by
  cases h₀ : s₀.isValid x with
  | false => rfl
  | true => rw [h.valid_old x h₀] at hv; cases hv

theorem not_declared_before (h : Orderly w s₀ roots s M) {x : Path}
    (hd : s.graph.hasDeclaration x = false) : s₀.graph.hasDeclaration x = false := by
  cases h₀ : s₀.graph.hasDeclaration x with
  | false => rfl
  | true => rw [h.declared_old x h₀] at hd; cases hd

theorem owner_walked (h : Orderly w s₀ roots s M) {e : Post} (he : e ∈ M) {f : Path}
    (ho : e.owner = some f) : f ∈ s₀.walkedSince s := h.walked f (h.tidy.owner_open he ho)

theorem open_not_valid_before (h : Orderly w s₀ roots s M) {x : Path} (hx : x ∈ M.opens) {p : Path}
    (hs : x.Same p) : s₀.isValid p = false := by
  rw [← s₀.isValid_congr hs]
  exact (h.reached x (h.walked x hx)).not_valid

theorem eq_of_known (h : Orderly w s₀ roots s M) (ha : s₀.SpelledAlike w roots) {f x : Path}
    (hf : f ∈ s₀.walkedSince s) (hx : s₀.Met w roots x ∨ ∀ g ∈ s₀.walkedSince s, ¬g.Same x)
    (hs : f.Same x) : f = x := by
  rcases hx with hx | hx
  · exact h.eq_of_same ha hf hx hs
  · exact absurd hs (hx f hf)

/-! ## Steps -/

theorem of_alike (h : Orderly w s₀ roots s M) (ha : s.Alike s') : Orderly w s₀ roots s' M := by
  have hw : s₀.walkedSince s' = s₀.walkedSince s := by simp only [Session.walkedSince, ha.walks]
  constructor
  case tidy => exact h.tidy.of_alike ha
  case walks => rw [hw, ha.walks]; exact h.walks
  case reached => rw [hw]; exact h.reached
  case valid_old => simpa only [ha.isValid_eq] using h.valid_old
  case valid_new => simpa only [ha.isValid_eq, hw] using h.valid_new
  case declared_old => simpa only [ha.graph] using h.declared_old
  case known => rw [hw]; exact fun p hp => (h.known p hp).trans (ha.knowAlike p w)
  case sensible => exact h.sensible
  case walked => rw [hw]; exact h.walked
  case untracked => simpa only [ha.isTracked_eq] using h.untracked
  case tracked => simpa only [ha.isTracked_eq] using h.tracked

/-- A step that starts no walk: some posts make way for others, and what was there before stays. -/
theorem of_posts (h : Orderly w s₀ roots s (M + N)) (ht : Tidy s' (M + N')) (hw : s'.walks = s.walks)
    (hv : ∀ p, s₀.isValid p = true → s.isValid p = true → s'.isValid p = true)
    (hv' : ∀ p, s'.isValid p = true → s.isValid p = true)
    (hd : ∀ p, s₀.graph.hasDeclaration p = true → s.graph.hasDeclaration p = true →
      s'.graph.hasDeclaration p = true)
    (hk : ∀ p, (s₀.Met w roots p ∨ ∀ f ∈ s₀.walkedSince s, ¬f.Same p) → s.KnowAlike s' w p)
    (hs : ∀ e ∈ N', e.Sensible w s₀ roots) (ho : ∀ x ∈ N'.opens, x ∈ N.opens)
    (htr : ∀ x ∈ M.opens, s'.isTracked x = s.isTracked x)
    (hr : ∀ e ∈ N', ∀ x registered, e.stage ≠ .reading x registered)
    (hn : ∀ e ∈ N', ∀ x registered, e.stage = .scanning x registered ∨ e.stage = .walking x registered →
      s'.isTracked x = true) : Orderly w s₀ roots s' (M + N') := by
  have hw' : s₀.walkedSince s' = s₀.walkedSince s := by simp only [Session.walkedSince, hw]
  have hmem : ∀ {e : Post} {x : Path}, e ∈ M → e.stage.open? = some x → s'.isTracked x = s.isTracked x :=
    fun he hx => htr _ (Ledger.mem_opens.mpr ⟨_, he, hx⟩)
  constructor
  case tidy => exact ht
  case walks => rw [hw', hw]; exact h.walks
  case reached => rw [hw']; exact h.reached
  case valid_old => exact fun p hp => hv p hp (h.valid_old p hp)
  case valid_new => rw [hw']; exact fun p hp => h.valid_new p (hv' p hp)
  case declared_old => exact fun p hp => hd p hp (h.declared_old p hp)
  case known => rw [hw']; exact fun p hp => (h.known p hp).trans (hk p hp)
  case sensible =>
      exact Ledger.forall_add.mpr ⟨(Ledger.forall_add.mp h.sensible).1, hs⟩
  case walked =>
      rw [hw']
      intro x hx
      refine h.walked x ?_
      rw [Ledger.opens_add, Multiset.mem_add] at hx ⊢
      exact hx.imp id (ho x)
  case untracked =>
      refine Ledger.forall_add.mpr ⟨fun e he x registered hx => ?_, fun e he x registered hx => ?_⟩
      · rw [hmem he (by simp [hx, Stage.open?])]
        exact h.untracked e (Multiset.mem_add.mpr (.inl he)) x registered hx
      · exact absurd hx (hr e he x registered)
  case tracked =>
      refine Ledger.forall_add.mpr ⟨fun e he x registered hx => ?_, hn⟩
      rw [hmem he (by rcases hx with hx | hx <;> simp [hx, Stage.open?])]
      exact h.tracked e (Multiset.mem_add.mpr (.inl he)) x registered hx

theorem of_enter {o : Option Path} {x : Path} {registered : Bool}
    (h : Orderly w s₀ roots s (M + {⟨o, .calling x registered⟩})) (hv : s.isValid x = false) :
    Orderly w s₀ roots (s.enter x) (M + {⟨o, if s.isTracked x then .scanning x registered
      else .reading x registered⟩}) := by
  have haim : Aimed w s₀ roots o x registered := h.sensible ⟨o, .calling x registered⟩ (by simp)
  have hw := Session.walkedSince_enter h.walks x
  have hopen : (M + {⟨o, if s.isTracked x then .scanning x registered else .reading x registered⟩}).opens =
      M.opens + {x} := by
    rw [Ledger.opens_add, Ledger.opens_singleton]
    split <;> rfl
  constructor
  case tidy => exact (LedgerStep.enter (w := w) hv).tidy h.tidy
  case walks => rw [hw, Session.walks_enter, h.walks]; simp
  case reached =>
      rw [hw]
      intro f hf
      rcases List.mem_append.mp hf with hf | hf
      · exact h.reached f hf
      · obtain rfl := List.mem_singleton.mp hf
        exact haim.reached (h.not_valid_before hv)
  case valid_old =>
      intro p hp
      rw [Session.isValid_enter, h.valid_old p hp, Bool.or_true]
  case valid_new =>
      intro p hp
      rw [hw]
      rw [Session.isValid_enter, Bool.or_eq_true, decide_eq_true_eq] at hp
      rcases hp with hp | hp
      · exact .inr ⟨x, by simp, hp⟩
      · exact (h.valid_new p hp).imp id fun ⟨f, hf, hs⟩ => ⟨f, List.mem_append.mpr (.inl hf), hs⟩
  case declared_old =>
      intro p hp
      rw [Session.hasDeclaration_enter]
      exact h.declared_old p hp
  case known =>
      rw [hw]
      refine fun p hp => (h.known p (hp.imp id fun hp f hf => hp f ?_)).trans (s.knowAlike_enter x p w)
      exact List.mem_append.mpr (.inl hf)
  case sensible =>
      refine Ledger.forall_add.mpr ⟨(Ledger.forall_add.mp h.sensible).1, ?_⟩
      rw [Ledger.forall_singleton]
      split <;> exact haim
  case walked =>
      rw [hopen, hw]
      intro y hy
      rcases Multiset.mem_add.mp hy with hy | hy
      · refine List.mem_append.mpr (.inl (h.walked y ?_))
        rw [Ledger.opens_add]
        exact Multiset.mem_add.mpr (.inl hy)
      · exact List.mem_append.mpr (.inr (by simpa using hy))
  case untracked =>
      refine Ledger.forall_add.mpr ⟨(Ledger.forall_add.mp h.untracked).1, ?_⟩
      rw [Ledger.forall_singleton]
      intro y r hy
      split at hy
      · cases hy
      · next hn =>
        cases hy
        simpa using hn
  case tracked =>
      refine Ledger.forall_add.mpr ⟨(Ledger.forall_add.mp h.tracked).1, ?_⟩
      rw [Ledger.forall_singleton]
      intro y r hy
      split at hy
      · next hn =>
        rcases hy with hy | hy
        · cases hy
          exact hn
        · cases hy
      · rcases hy with hy | hy <;> cases hy

/-- A part that has nothing open goes on, and leaves marks and texts alone. -/
theorem of_part {o : Option Path} {g g' : Stage} (h : Orderly w s₀ roots s (M + {⟨o, g⟩}))
    (ht : Tidy s' (M + {⟨o, g'⟩})) (hg' : g'.open? = none) (hw : s'.walks = s.walks)
    (hv : ∀ p, s'.isValid p = s.isValid p)
    (hd : ∀ p, s.graph.hasDeclaration p = true → s'.graph.hasDeclaration p = true)
    (hk : ∀ p, s.KnowAlike s' w p) (htr : ∀ p, s'.isTracked p = s.isTracked p)
    (hs : Post.Sensible w s₀ roots ⟨o, g'⟩) : Orderly w s₀ roots s' (M + {⟨o, g'⟩}) := by
  refine h.of_posts ht hw (fun p _ hp => by rwa [hv]) (fun p hp => by rwa [← hv]) (fun p _ => hd p)
    (fun p _ => hk p) (by simpa using hs) (by simp [hg']) (fun x _ => htr x) ?_ ?_
  · rw [Ledger.forall_singleton]
    rintro x registered rfl
    cases hg'
  · rw [Ledger.forall_singleton]
    rintro x registered (rfl | rfl) <;> cases hg'

end Orderly

/-! ## Every step keeps the order -/

section

variable {s s' : Session} {M N : Ledger} {o : Option Path} {x : Path} {registered : Bool}

/-- What a walk takes back when it fails was not there at the start. -/
theorem Orderly.of_drop {g : Stage} {e : Failure} (h : Orderly w s₀ roots s (M + ({⟨o, g⟩} + N)))
    (hg : g.open? = some x) (haim : Aimed w s₀ roots o x registered)
    (ht : Tidy (s.drop x registered) (M + {⟨o, .failed e⟩}))
    (hs : Post.Sensible w s₀ roots ⟨o, .failed e⟩) :
    Orderly w s₀ roots (s.drop x registered) (M + {⟨o, .failed e⟩}) := by
  have hx : x ∈ (M + ({⟨o, g⟩} + N)).opens :=
    Ledger.mem_opens.mpr ⟨⟨o, g⟩, by simp, hg⟩
  refine h.of_posts ht rfl ?_ ?_ ?_ (fun p _ => s.knowAlike_drop x p registered w) (by simpa using hs)
    (by simp [Stage.open?]) (fun _ _ => rfl) (by simp) (by simp)
  · intro p hp hv
    have hne : ¬x.Same p := fun hsame => by
      rw [h.open_not_valid_before hx hsame] at hp
      cases hp
    simp [hne, hv]
  · intro p hp
    rw [Session.isValid_drop, Bool.and_eq_true] at hp
    exact hp.2
  · intro p hp hd
    rw [Session.hasDeclaration_drop]
    cases registered with
    | false => simpa using hd
    | true =>
        have hne : ¬x.Same p := fun hsame => by
          rw [← s₀.graph.hasDeclaration_congr hsame, haim.not_registered] at hp
          cases hp
        simp [hne, hd]

theorem Orderly.not_obtainable {fault : IoFault}
    (h : Orderly w s₀ roots s (M + {⟨o, .reading x registered⟩})) (hr : w.disk.read x = .error fault) :
    ¬s₀.Obtainable w x := by
  have hx : x ∈ s₀.walkedSince s := h.walked x (by simp [Stage.open?])
  have hu : s.isTracked x = false := h.untracked ⟨o, .reading x registered⟩ (by simp) x registered rfl
  intro hobtainable
  rcases (h.known x (.inl (h.met_of_walked hx))).obtainable.mpr hobtainable with ht | ⟨text, ht⟩
  · rw [hu] at ht
    cases ht
  · rw [hr] at ht
    cases ht

theorem Orderly.found_eq {found : List Dependency}
    (h : Orderly w s₀ roots s (M + {⟨o, .scanning x registered⟩}))
    (hf : (s.findImports x).2 = .ok found) : found.map (·.text) = s₀.specifiers w x := by
  have hx : x ∈ s₀.walkedSince s := h.walked x (by simp [Stage.open?])
  have ht : s.isTracked x = true := h.tracked ⟨o, .scanning x registered⟩ (by simp) x registered (.inl rfl)
  rw [← (h.known x (.inl (h.met_of_walked hx))).specifiers, Session.specifiers_of_tracked ht hf]

/-- A part comes to an end, and nothing else changes. -/
theorem Orderly.of_stage {g g' : Stage} (h : Orderly w s₀ roots s (M + {⟨o, g⟩})) (ht : Tidy s (M + {⟨o, g'⟩}))
    (hg' : g'.open? = none) (hs : Post.Sensible w s₀ roots ⟨o, g'⟩) : Orderly w s₀ roots s (M + {⟨o, g'⟩}) :=
  h.of_part ht hg' rfl (fun _ => rfl) (fun _ => id)
    (fun p => Session.knowAlike_of_same_parts rfl rfl rfl w p) (fun _ => rfl) hs

theorem Orderly.sensible_unresolved {f : Path} {t : String} {cause : ResolverFault}
    (h : Orderly w s₀ roots s (M + {⟨o, .seeking f t (.error cause)⟩})) :
    Post.Sensible w s₀ roots ⟨o, .failed (.resolution f cause)⟩ := by
  obtain ⟨ho, hf, hm, hr⟩ := h.sensible ⟨o, .seeking f t (.error cause)⟩ (by simp)
  refine ⟨f, hf, fun hsound => ?_, ?_⟩
  · obtain ⟨x, hx⟩ := hsound.2 t hm
    rw [← hr] at hx
    cases hx
  · intro f' hf'
    obtain rfl : f' = f := Option.some.inj (hf'.symm.trans ho)
    exact .refl

/-- What a specifier is answered with is a target of the file whose walk asks. -/
theorem Orderly.target_of_seeking {f : Path} {t : String}
    (h : Orderly w s₀ roots s (M + {⟨o, .seeking f t (.ok x)⟩})) :
    o = some f ∧ s₀.Reached w roots f ∧ x ∈ s₀.targets w f := by
  obtain ⟨ho, hf, hm, hr⟩ := h.sensible ⟨o, .seeking f t (.ok x)⟩ (by simp)
  exact ⟨ho, hf, Session.mem_targets.mpr ⟨t, hm, hr.symm⟩⟩

/-- An open walk has a reason, and it has started. -/
theorem Orderly.aimed_of_open {g : Stage} (h : Orderly w s₀ roots s M) (he : ⟨o, g⟩ ∈ M)
    (hg : g = .reading x registered ∨ g = .scanning x registered ∨ g = .walking x registered) :
    Aimed w s₀ roots o x registered ∧ x ∈ s₀.walkedSince s := by
  have hsense := h.sensible ⟨o, g⟩ he
  have hx := h.walked x (Ledger.mem_opens.mpr ⟨⟨o, g⟩, he, by rcases hg with rfl | rfl | rfl <;> rfl⟩)
  rcases hg with rfl | rfl | rfl <;> exact ⟨hsense, hx⟩

theorem Orderly.of_unreadable {fault : IoFault} (h : Orderly w s₀ roots s (M + {⟨o, .reading x registered⟩}))
    (hr : w.disk.read x = .error fault) (ht : Tidy (s.drop x registered) (M + {⟨o, .failed (.io x fault)⟩})) :
    Orderly w s₀ roots (s.drop x registered) (M + {⟨o, .failed (.io x fault)⟩}) := by
  have hn := h.not_obtainable hr
  obtain ⟨haim, hx⟩ := h.aimed_of_open (by simp : (⟨o, .reading x registered⟩ : Post) ∈ _) (.inl rfl)
  rw [← add_zero {_}] at h
  exact h.of_drop rfl haim ht (haim.failed (h.reached x hx) (fun hsound => hn hsound.1) .refl)

theorem Orderly.of_store {text : String} (h : Orderly w s₀ roots s (M + {⟨o, .reading x registered⟩}))
    (ha : s₀.SpelledAlike w roots) (hr : w.disk.read x = .ok text)
    (ht : Tidy (s.updateFile x text false).1 (M + {⟨o, .scanning x registered⟩})) :
    Orderly w s₀ roots (s.updateFile x text false).1 (M + {⟨o, .scanning x registered⟩}) := by
  have hu : s.isTracked x = false := h.untracked ⟨o, .reading x registered⟩ (by simp) x registered rfl
  obtain ⟨haim, hx⟩ := h.aimed_of_open (by simp : (⟨o, .reading x registered⟩ : Post) ∈ _) (.inl rfl)
  refine h.of_posts ht rfl (fun _ _ => id) (fun _ => id) (fun _ _ => id) ?_ ?_ ?_ ?_ ?_ ?_
  · exact fun p hp => Session.knowAlike_store hu hr (h.eq_of_known ha hx hp)
  · rw [Ledger.forall_singleton]
    exact haim
  · simp [Stage.open?]
  · intro y hy
    have hne : ¬x.Same y := h.tidy.not_same hy (by simp [Stage.open?])
    simp [hne]
  · simp
  · rw [Ledger.forall_singleton]
    rintro y r (hy | hy) <;> cases hy
    simp [Path.Same.refl]

theorem Orderly.of_scan {found : List Dependency} (h : Orderly w s₀ roots s (M + {⟨o, .scanning x registered⟩}))
    (ha : s₀.SpelledAlike w roots) (hf : (s.findImports x).2 = .ok found)
    (ht : Tidy (s.parsed x) (M + ({⟨o, .walking x registered⟩} + w.seekers x (found.map (·.text))))) :
    Orderly w s₀ roots (s.parsed x) (M + ({⟨o, .walking x registered⟩} + w.seekers x (found.map (·.text)))) := by
  obtain ⟨haim, hx⟩ := h.aimed_of_open (by simp : (⟨o, .scanning x registered⟩ : Post) ∈ _) (.inr (.inl rfl))
  have hs : s.isTracked x = true := h.tracked ⟨o, .scanning x registered⟩ (by simp) x registered (.inl rfl)
  have hfound := h.found_eq hf
  refine h.of_posts ht rfl (fun _ _ => id) (fun _ => id) (fun _ _ => id) ?_ ?_ ?_ (fun _ _ => rfl) ?_ ?_
  · exact fun p hp => Session.knowAlike_parsed hs (h.eq_of_known ha hx hp)
  · refine Ledger.forall_add.mpr ⟨Ledger.forall_singleton.mpr haim, fun e he => ?_⟩
    obtain ⟨t, hm, rfl⟩ := mem_seekers.mp he
    exact ⟨rfl, h.reached x hx, hfound ▸ hm, rfl⟩
  · rw [Ledger.opens_add, opens_seekers, add_zero]
    simp [Stage.open?]
  · refine Ledger.forall_add.mpr ⟨by simp, fun e he => ?_⟩
    obtain ⟨t, -, rfl⟩ := mem_seekers.mp he
    simp
  · refine Ledger.forall_add.mpr ⟨?_, fun e he => ?_⟩
    · rw [Ledger.forall_singleton]
      rintro y r (hy | hy) <;> cases hy
      exact hs
    · obtain ⟨t, -, rfl⟩ := mem_seekers.mp he
      simp

theorem Orderly.of_fail {e : Failure} (h : Orderly w s₀ roots s (M + ({⟨o, .walking x registered⟩} + N)))
    (hn : ∀ e ∈ N, e.owner = some x ∧ e.stage.Closed) (he : ∃ e' ∈ N, e'.stage = .failed e)
    (ht : Tidy (s.drop x registered) (M + {⟨o, .failed e⟩})) :
    Orderly w s₀ roots (s.drop x registered) (M + {⟨o, .failed e⟩}) := by
  obtain ⟨haim, -⟩ := h.aimed_of_open (by simp : (⟨o, .walking x registered⟩ : Post) ∈ _) (.inr (.inr rfl))
  obtain ⟨e', he', hfailed⟩ := he
  have hsense := h.sensible e' (by simp [he'])
  simp only [Post.Sensible, hfailed] at hsense
  obtain ⟨g, hg, hs, hl⟩ := hsense
  exact h.of_drop rfl haim ht (haim.failed hg hs (hl x (hn e' he').1))

end

theorem LedgerStep.orderly {c c' : Session × Ledger} (ht : LedgerStep w c c') (ha : s₀.SpelledAlike w roots)
    (h : Orderly w s₀ roots c.1 c.2) : Orderly w s₀ roots c'.1 c'.2 := by
  have htidy := ht.tidy h.tidy
  cases ht with
  | note halike => exact h.of_alike halike
  | unresolved => exact h.of_stage htidy rfl h.sensible_unresolved
  | compiled _ => exact h.of_stage htidy rfl trivial
  | known _ _ => exact h.of_stage htidy rfl trivial
  | @register s M o f x t hk hd =>
      obtain ⟨rfl, hf, hx⟩ := h.target_of_seeking
      refine h.of_part htidy rfl rfl (fun _ => rfl) (fun p hp => ?_) (fun p => s.knowAlike_register x p w)
        (fun _ => rfl) ⟨hf, hx, .inr ⟨hk, rfl, h.not_declared_before hd⟩⟩
      simp [hp]
  | @link s M o f x t hk =>
      obtain ⟨rfl, hf, hx⟩ := h.target_of_seeking
      refine h.of_part htidy rfl rfl (fun _ => rfl) (fun p hp => ?_) (fun p => s.knowAlike_link x p f w)
        (fun _ => rfl) ⟨hf, hx, .inl ⟨hk, rfl⟩⟩
      simp [hp]
  | trust _ => exact h.of_stage htidy rfl trivial
  | enter hv => exact h.of_enter hv
  | unreadable hr => exact h.of_unreadable hr htidy
  | store hr => exact h.of_store ha hr htidy
  | scan hf => exact h.of_scan ha hf htidy
  | succeed _ _ =>
      refine h.of_posts htidy rfl (fun _ _ => id) (fun _ => id) (fun _ _ => id)
        (fun p _ => Session.knowAlike_of_same_parts rfl rfl rfl w p) ?_ ?_ (fun _ _ => rfl) ?_ ?_
      · rw [Ledger.forall_singleton]
        trivial
      all_goals simp [Stage.open?]
  | fail _ hn he => exact h.of_fail hn he htidy

theorem LedgerSteps.orderly {c c' : Session × Ledger} (ht : LedgerSteps w c c') (ha : s₀.SpelledAlike w roots)
    (h : Orderly w s₀ roots c.1 c.2) : Orderly w s₀ roots c'.1 c'.2 := by
  induction ht with
  | refl => exact h
  | tail _ ht ih => exact ht.orderly ha ih

/-- The work that checks of some roots start with. -/
def Ledger.asked (roots : List Path) : Ledger := ↑(roots.map fun r => (⟨none, .calling r false⟩ : Post))

theorem Ledger.mem_asked {e : Post} : e ∈ asked roots ↔ ∃ r ∈ roots, e = ⟨none, .calling r false⟩ := by
  simp [asked, eq_comm]

theorem tidy_asked (s : Session) (roots : List Path) : Tidy s (.asked roots) := by
  have hopens : (Ledger.asked roots).opens = 0 := Ledger.opens_of_not_open fun e he => by
    obtain ⟨r, -, rfl⟩ := Ledger.mem_asked.mp he
    rfl
  refine ⟨by simp [hopens], by simp [hopens], ?_, ?_, ?_⟩ <;> intro e he <;>
    obtain ⟨r, -, rfl⟩ := Ledger.mem_asked.mp he <;> simp [Stage.open?]

theorem orderly_asked (w : Surroundings) (s : Session) (roots : List Path) :
    Orderly w s roots s (.asked roots) := by
  have hw : s.walkedSince s = [] := by simp [Session.walkedSince]
  have hnone : ∀ e ∈ Ledger.asked roots, e.stage.open? = none := fun e he => by
    obtain ⟨r, -, rfl⟩ := Ledger.mem_asked.mp he
    rfl
  constructor
  case tidy => exact tidy_asked s roots
  case walks => simp [hw]
  case reached => simp [hw]
  case valid_old => exact fun _ => id
  case valid_new => exact fun _ => .inl
  case declared_old => exact fun _ => id
  case known => exact fun p _ => ⟨rfl, .rfl⟩
  case sensible =>
      intro e he
      obtain ⟨r, hr, rfl⟩ := Ledger.mem_asked.mp he
      exact ⟨hr, rfl⟩
  case walked => simp [Ledger.opens_of_not_open hnone]
  case untracked =>
      intro e he x registered hx
      have := hnone e he
      simp [hx, Stage.open?] at this
  case tracked =>
      rintro e he x registered (hx | hx) <;>
      · have := hnone e he
        simp [hx, Stage.open?] at this

end ImportCheck
