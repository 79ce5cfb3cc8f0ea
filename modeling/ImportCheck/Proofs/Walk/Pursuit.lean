import ImportCheck.Proofs.Walk.Orderly

/-!
# Every specifier is followed up

A walk that has started looks at each specifier of its file: at every moment a specifier is still waited
for, or it has no target and the walk is going to fail, or its target was linked or registered and is
walked, about to be checked, or was settled before. With nothing under way any more, the walked files are
those that are reached, and their links are their source targets.
-/

namespace ImportCheck

def Stage.LooksFor (f : Path) (t : String) : Stage → Prop
  | .seeking g u _ => g = f ∧ u = t
  | .reading g _ => g = f
  | .scanning g _ => g = f
  | _ => False

def Stage.Calls (x : Path) : Stage → Prop
  | .calling y _ => y = x
  | _ => False

def Stage.Failed : Stage → Prop
  | .failed _ => True
  | _ => False

namespace Ledger

def Awaits (M : Ledger) (f : Path) (t : String) : Prop := ∃ e ∈ M, e.stage.LooksFor f t

/-- A check of `x` is about to start for the sake of the owner. -/
def Calling (M : Ledger) (o : Option Path) (x : Path) : Prop := ∃ e ∈ M, e.owner = o ∧ e.stage.Calls x

/-- A check of the file is about to start for the sake of another one. -/
def Coming (M : Ledger) (x : Path) : Prop := ∃ f, M.Calling (some f) x

def Doomed (M : Ledger) (f : Path) : Prop := ∃ e ∈ M, e.owner = some f ∧ e.stage.Failed

variable {M N : Ledger} {f x : Path} {t : String}

theorem awaits_add : (M + N).Awaits f t ↔ M.Awaits f t ∨ N.Awaits f t := exists_add

theorem calling_add {o : Option Path} : (M + N).Calling o x ↔ M.Calling o x ∨ N.Calling o x := exists_add

theorem doomed_add : (M + N).Doomed f ↔ M.Doomed f ∨ N.Doomed f := exists_add

@[simp] theorem awaits_singleton {o : Option Path} {g : Stage} :
    Awaits {⟨o, g⟩} f t ↔ g.LooksFor f t := exists_singleton

@[simp] theorem calling_singleton {o o' : Option Path} {g : Stage} :
    Calling {⟨o, g⟩} o' x ↔ o = o' ∧ g.Calls x := exists_singleton

@[simp] theorem doomed_singleton {o : Option Path} {g : Stage} :
    Doomed {⟨o, g⟩} f ↔ o = some f ∧ g.Failed := exists_singleton

theorem not_awaits_of_closed (h : ∀ e ∈ N, e.stage.Closed) : ¬N.Awaits f t := by
  rintro ⟨e, he, hl⟩
  have := h e he
  cases hs : e.stage <;> simp_all [Stage.Closed, Stage.LooksFor]

theorem not_calling_of_closed {o : Option Path} (h : ∀ e ∈ N, e.stage.Closed) : ¬N.Calling o x := by
  rintro ⟨e, he, -, hl⟩
  have := h e he
  cases hs : e.stage <;> simp_all [Stage.Closed, Stage.Calls]

end Ledger

@[simp] theorem awaits_seekers {w : Surroundings} {f g : Path} {specifiers : List String} {t : String} :
    (w.seekers f specifiers).Awaits g t ↔ f = g ∧ t ∈ specifiers := by
  constructor
  · rintro ⟨e, he, hl⟩
    obtain ⟨u, hu, rfl⟩ := mem_seekers.mp he
    obtain ⟨rfl, rfl⟩ := hl
    exact ⟨rfl, hu⟩
  · rintro ⟨rfl, ht⟩
    exact ⟨_, mem_seekers.mpr ⟨t, ht, rfl⟩, rfl, rfl⟩

variable {w : Surroundings} {s₀ : Session} {roots : List Path}

/-! ## What one step does to walks and to what is waited for -/

structure LedgerStep.Enters (c c' : Session × Ledger) (x : Path) : Prop where
  not_valid : c.1.isValid x = false
  session : c'.1 = c.1.enter x
  called : ∃ o registered, ⟨o, .calling x registered⟩ ∈ c.2
  awaits : ∀ t, c'.2.Awaits x t
  isOpen : x ∈ c'.2.opens

theorem LedgerStep.enters {s : Session} {M : Ledger} {o : Option Path} {x : Path} {registered : Bool}
    (hv : s.isValid x = false) :
    LedgerStep.Enters (s, M + {⟨o, .calling x registered⟩})
      (s.enter x, M + {⟨o, if s.isTracked x then .scanning x registered else .reading x registered⟩}) x := by
  refine ⟨hv, rfl, ⟨o, registered, by simp⟩, fun t => ?_, ?_⟩
  · rw [Ledger.awaits_add, Ledger.awaits_singleton]
    right
    split <;> rfl
  · rw [Ledger.opens_add, Ledger.opens_singleton, Multiset.mem_add]
    right
    split <;> simp [Stage.open?]

theorem LedgerStep.walkedSince {c c' : Session × Ledger} (ht : LedgerStep w c c') (h : Orderly w s₀ roots c.1 c.2) :
    s₀.walkedSince c'.1 = s₀.walkedSince c.1 ∨
      ∃ x, LedgerStep.Enters c c' x ∧ s₀.walkedSince c'.1 = s₀.walkedSince c.1 ++ [x] := by
  have hwalks := h.walks
  cases ht with
  | note ha => exact .inl (by simp only [Session.walkedSince, ha.walks])
  | @enter s M o x registered hv =>
      refine .inr ⟨x, LedgerStep.enters hv, ?_⟩
      simp only [Session.walkedSince, Session.walks_enter] at hwalks ⊢
      rw [hwalks]
      simp
  | _ => exact .inl rfl

theorem LedgerStep.calling {c c' : Session × Ledger} (ht : LedgerStep w c c') {o : Option Path} {x : Path}
    (h : c.2.Calling o x) : c'.2.Calling o x ∨ c'.1.isValid x = true := by
  cases ht with
  | note _ => exact .inl h
  | @trust s M o y registered hv =>
      rw [Ledger.calling_add, Ledger.calling_singleton] at h ⊢
      rcases h with h | ⟨-, rfl⟩
      · exact .inl (.inl h)
      · exact .inr hv
  | @enter s M o y registered hv =>
      rw [Ledger.calling_add, Ledger.calling_singleton] at h ⊢
      rcases h with h | ⟨-, rfl⟩
      · exact .inl (.inl h)
      · exact .inr (by simp [Path.Same.refl])
  | scan _ =>
      simp only [Ledger.calling_add, Ledger.calling_singleton, Stage.Calls, and_false, or_false] at h ⊢
      exact .inl (.inl h)
  | @succeed s M N o' y registered _ hn =>
      have hN : ¬N.Calling o x := Ledger.not_calling_of_closed fun e he => by
        simp [(hn e he).2, Stage.Closed]
      simp only [Ledger.calling_add, Ledger.calling_singleton, Stage.Calls, and_false, or_false, hN] at h ⊢
      exact .inl h
  | @fail s M N o' y registered e _ hn _ =>
      have hN : ¬N.Calling o x := Ledger.not_calling_of_closed fun e he => (hn e he).2
      simp only [Ledger.calling_add, Ledger.calling_singleton, Stage.Calls, and_false, or_false, hN] at h ⊢
      exact .inl h
  | _ =>
      simp only [Ledger.calling_add, Ledger.calling_singleton, Stage.Calls, and_false, or_false] at h ⊢
      exact .inl (by simp [h])

/-- Declarations are registered for the sake of a file that names them, and are then checked. -/
theorem LedgerStep.declared {c c' : Session × Ledger} (ht : LedgerStep w c c') (h : Orderly w s₀ roots c.1 c.2)
    {p : Path} (hp : c'.1.graph.hasDeclaration p = true) :
    c.1.graph.hasDeclaration p = true ∨ ∃ f ∈ s₀.walkedSince c.1, ∃ x ∈ s₀.targets w f,
      x.kind = .declaration ∧ x.Same p ∧ c'.2.Coming x := by
  cases ht with
  | note ha => exact .inl (by rwa [ha.graph] at hp)
  | @register s M o f x t hk hd =>
      rw [Session.hasDeclaration_register, Bool.or_eq_true, decide_eq_true_eq] at hp
      rcases hp with hs | hp
      · obtain ⟨ho, -, hm, hr⟩ := h.sensible ⟨o, .seeking f t (.ok x)⟩ (by simp)
        refine .inr ⟨f, h.owner_walked (e := ⟨o, .seeking f t (.ok x)⟩) (by simp) ho, x,
          Session.mem_targets.mpr ⟨t, hm, hr.symm⟩, hk, hs, ?_⟩
        refine ⟨f, ?_⟩
        rw [Ledger.calling_add, Ledger.calling_singleton]
        exact .inr ⟨ho, rfl⟩
      · exact .inl hp
  | link _ => exact .inl (by simpa using hp)
  | enter _ => exact .inl (by simpa using hp)
  | unreadable _ =>
      rw [Session.hasDeclaration_drop, Bool.and_eq_true] at hp
      exact .inl hp.2
  | fail _ _ _ =>
      rw [Session.hasDeclaration_drop, Bool.and_eq_true] at hp
      exact .inl hp.2
  | _ => exact .inl hp

/-- Links change when a walk starts, and when a source target of a walked file is followed. -/
theorem LedgerStep.links {c c' : Session × Ledger} (ht : LedgerStep w c c') (h : Orderly w s₀ roots c.1 c.2) :
    (∃ x, LedgerStep.Enters c c' x ∧ s₀.walkedSince c'.1 = s₀.walkedSince c.1 ++ [x]) ∨
      s₀.walkedSince c'.1 = s₀.walkedSince c.1 ∧
        ((∀ p q, c'.1.graph.hasDependency p q = c.1.graph.hasDependency p q) ∨
          ∃ f ∈ s₀.walkedSince c.1, ∃ x ∈ s₀.targets w f, x.kind = .source ∧ c'.1 = c.1.link f x) := by
  rcases (ht.walkedSince h).symm with hx | hw
  · exact .inl hx
  · refine .inr ⟨hw, ?_⟩
    cases ht with
    | note ha => exact .inl (by simp [ha.graph])
    | @link s M o f x t hk =>
        obtain ⟨ho, -, hm, hr⟩ := h.sensible ⟨o, .seeking f t (.ok x)⟩ (by simp)
        exact .inr ⟨f, h.owner_walked (e := ⟨o, .seeking f t (.ok x)⟩) (by simp) ho, x,
          Session.mem_targets.mpr ⟨t, hm, hr.symm⟩, hk, rfl⟩
    | @enter s M o x registered hv =>
        have hwalks := h.walks
        simp only [Session.walkedSince, Session.walks_enter] at hw hwalks
        rw [hwalks] at hw
        simp at hw
    | unreadable _ => exact .inl (by simp)
    | fail _ _ _ => exact .inl (by simp)
    | _ => exact .inl fun _ _ => rfl

/-- What a step does with a target that was found: a declaration is registered and checked, unless it was
registered before, and a source is linked and checked. -/
def Followed (c c' : Session × Ledger) (f x : Path) : Prop :=
  match x.kind with
  | .compiled => True
  | .declaration => c'.1.graph.hasDeclaration x = true ∧
      (c.1.graph.hasDeclaration x = true ∨ c'.2.Calling (some f) x)
  | .source => c'.1.graph.hasDependency f x = true ∧ c'.2.Calling (some f) x

/-- A specifier that is waited for beside a part that looks for one is waited for without it, or is its own. -/
theorem Orderly.awaits_or_sought {s : Session} {M : Ledger} {o : Option Path} {f f' : Path} {t t' : String}
    {a : Except ResolverFault Path} (h : Orderly w s₀ roots s (M + {⟨o, .seeking f' t' a⟩}))
    (ha : Ledger.Awaits (M + {⟨o, .seeking f' t' a⟩}) f t) :
    M.Awaits f t ∨ o = some f ∧ f' = f ∧ w.resolve f t = a := by
  simp only [Ledger.awaits_add, Ledger.awaits_singleton, Stage.LooksFor] at ha
  rcases ha with ha | ⟨rfl, rfl⟩
  · exact .inl ha
  · obtain ⟨ho, -, -, hr⟩ := h.sensible ⟨o, .seeking f' t' a⟩ (by simp)
    exact .inr ⟨ho, rfl, hr.symm⟩

/-- A specifier is looked at once: it fails the walk, or its target is followed. -/
theorem LedgerStep.awaits {c c' : Session × Ledger} (ht : LedgerStep w c c') (h : Orderly w s₀ roots c.1 c.2)
    {f : Path} {t : String} (hm : t ∈ s₀.specifiers w f) (ha : c.2.Awaits f t) :
    c'.2.Awaits f t ∨ (∃ cause, w.resolve f t = .error cause) ∧ c'.2.Doomed f ∨
      ∃ x, w.resolve f t = .ok x ∧ Followed c c' f x := by
  cases ht with
  | note _ => exact .inl ha
  | @unresolved s M o f' t' cause =>
      rcases h.awaits_or_sought ha with ha | ⟨rfl, rfl, hr⟩
      · exact .inl (Ledger.awaits_add.mpr (.inl ha))
      · refine .inr (.inl ⟨⟨cause, hr⟩, ?_⟩)
        rw [Ledger.doomed_add, Ledger.doomed_singleton]
        exact .inr ⟨rfl, trivial⟩
  | @compiled s M o f' x t' hk =>
      rcases h.awaits_or_sought ha with ha | ⟨rfl, rfl, hr⟩
      · exact .inl (Ledger.awaits_add.mpr (.inl ha))
      · exact .inr (.inr ⟨x, hr, by simp [Followed, hk]⟩)
  | @known s M o f' x t' hk hd =>
      rcases h.awaits_or_sought ha with ha | ⟨rfl, rfl, hr⟩
      · exact .inl (Ledger.awaits_add.mpr (.inl ha))
      · exact .inr (.inr ⟨x, hr, by simp [Followed, hk, hd]⟩)
  | @register s M o f' x t' hk hd =>
      rcases h.awaits_or_sought ha with ha | ⟨rfl, rfl, hr⟩
      · exact .inl (Ledger.awaits_add.mpr (.inl ha))
      · have hc : Ledger.Calling (M + {⟨some f', .calling x true⟩}) (some f') x := by
          rw [Ledger.calling_add, Ledger.calling_singleton]
          exact .inr ⟨rfl, rfl⟩
        exact .inr (.inr ⟨x, hr, by simp [Followed, hk, Path.Same.refl, hc]⟩)
  | @link s M o f' x t' hk =>
      rcases h.awaits_or_sought ha with ha | ⟨rfl, rfl, hr⟩
      · exact .inl (Ledger.awaits_add.mpr (.inl ha))
      · have hc : Ledger.Calling (M + {⟨some f', .calling x false⟩}) (some f') x := by
          rw [Ledger.calling_add, Ledger.calling_singleton]
          exact .inr ⟨rfl, rfl⟩
        exact .inr (.inr ⟨x, hr, by simp [Followed, hk, Path.Same.refl, hc]⟩)
  | @unreadable s M o x registered fault hr =>
      simp only [Ledger.awaits_add, Ledger.awaits_singleton, Stage.LooksFor, or_false] at ha ⊢
      rcases ha with ha | rfl
      · exact .inl ha
      · rw [Session.specifiers_of_not_obtainable (h.not_obtainable hr)] at hm
        cases hm
  | @scan s M o x registered found hf =>
      have hfound := h.found_eq hf
      simp only [Ledger.awaits_add, Ledger.awaits_singleton, Stage.LooksFor, false_or,
        awaits_seekers] at ha ⊢
      rcases ha with ha | rfl
      · exact .inl (.inl ha)
      · exact .inl (.inr ⟨rfl, hfound ▸ hm⟩)
  | @succeed s M N o x registered _ hn =>
      have hN : ¬N.Awaits f t := Ledger.not_awaits_of_closed fun e he => by
        simp [(hn e he).2, Stage.Closed]
      simp only [Ledger.awaits_add, Ledger.awaits_singleton, Stage.LooksFor, or_false, hN] at ha ⊢
      exact .inl ha
  | @fail s M N o x registered e _ hn _ =>
      have hN : ¬N.Awaits f t := Ledger.not_awaits_of_closed fun e he => (hn e he).2
      simp only [Ledger.awaits_add, Ledger.awaits_singleton, Stage.LooksFor, or_false, hN] at ha ⊢
      exact .inl ha
  | store _ =>
      simp only [Ledger.awaits_add, Ledger.awaits_singleton, Stage.LooksFor] at ha ⊢
      exact .inl ha
  | trust _ =>
      simp only [Ledger.awaits_add, Ledger.awaits_singleton, Stage.LooksFor, or_false] at ha ⊢
      exact .inl ha
  | enter _ =>
      simp only [Ledger.awaits_add, Ledger.awaits_singleton, Stage.LooksFor, or_false] at ha ⊢
      exact .inl (.inl ha)

/-- A walk that has a failed part takes its mark back in the end. -/
theorem LedgerStep.doomed {c c' : Session × Ledger} (ht : LedgerStep w c c') {f : Path} (h : c.2.Doomed f) :
    c'.2.Doomed f ∨ c'.1.isValid f = false := by
  cases ht with
  | note _ => exact .inl h
  | @scan s M o x registered found _ =>
      simp only [Ledger.doomed_add, Ledger.doomed_singleton, Stage.Failed, and_false, or_false] at h ⊢
      exact .inl (.inl h)
  | @succeed s M N o x registered _ hn =>
      have hN : ¬N.Doomed f := fun ⟨e, he, _, hs⟩ => by simp [(hn e he).2, Stage.Failed] at hs
      simp only [Ledger.doomed_add, Ledger.doomed_singleton, Stage.Failed, and_false, or_false, hN] at h ⊢
      exact .inl h
  | @fail s M N o x registered e _ hn _ =>
      simp only [Ledger.doomed_add, Ledger.doomed_singleton, Stage.Failed, and_false, false_or] at h ⊢
      rcases h with h | ⟨e', he', ho, -⟩
      · exact .inl (.inl h)
      · obtain rfl : x = f := Option.some.inj ((hn e' he').1.symm.trans ho)
        exact .inr (by simp [Path.Same.refl])
  | _ =>
      simp only [Ledger.doomed_add, Ledger.doomed_singleton, Stage.Failed, and_false, or_false] at h ⊢
      exact .inl (by simp [h])

theorem LedgerStep.valid {c c' : Session × Ledger} (ht : LedgerStep w c c') {p : Path}
    (h : c'.1.isValid p = true) : c.1.isValid p = true ∨ ∃ x, LedgerStep.Enters c c' x ∧ x.Same p := by
  cases ht with
  | note ha => exact .inl (by rwa [ha.isValid_eq] at h)
  | @enter s M o x registered hv =>
      rw [Session.isValid_enter, Bool.or_eq_true, decide_eq_true_eq] at h
      exact h.symm.imp id fun h => ⟨x, LedgerStep.enters hv, h⟩
  | unreadable _ =>
      rw [Session.isValid_drop, Bool.and_eq_true] at h
      exact .inl h.2
  | fail _ _ _ =>
      rw [Session.isValid_drop, Bool.and_eq_true] at h
      exact .inl h.2
  | _ => exact .inl h

theorem LedgerStep.tracked {c c' : Session × Ledger} (ht : LedgerStep w c c') {p : Path}
    (h : c.1.isTracked p = true) : c'.1.isTracked p = true := by
  cases ht with
  | note ha => rwa [ha.isTracked_eq]
  | store _ => simp [h]
  | _ => exact h

theorem LedgerSteps.tracked {c c' : Session × Ledger} (ht : LedgerSteps w c c') {p : Path}
    (h : c.1.isTracked p = true) : c'.1.isTracked p = true := by
  induction ht with
  | refl => exact h
  | tail _ ht ih => exact ht.tracked ih

/-- A walk comes to an end with the text of its file at hand, unless there is none to be had. -/
theorem LedgerStep.opens {c c' : Session × Ledger} (ht : LedgerStep w c c') (h : Orderly w s₀ roots c.1 c.2)
    {f : Path} (hf : f ∈ c.2.opens) :
    c'.1.isTracked f = true ∨ f ∈ c'.2.opens ∨ ¬s₀.Obtainable w f ∧ c'.1.isValid f = false := by
  cases ht with
  | note _ => exact .inr (.inl hf)
  | @enter s M o x registered hv =>
      simp only [Ledger.opens_add, Ledger.opens_singleton, Stage.open?, Option.elim_none, add_zero] at hf
      refine .inr (.inl ?_)
      rw [Ledger.opens_add]
      exact Multiset.mem_add.mpr (.inl hf)
  | @unreadable s M o x registered fault hr =>
      have hn := h.not_obtainable hr
      simp only [Ledger.opens_add, Ledger.opens_singleton, Stage.open?, Option.elim_some, Option.elim_none,
        add_zero, Multiset.mem_add, Multiset.mem_singleton] at hf ⊢
      rcases hf with hf | rfl
      · exact .inr (.inl hf)
      · exact .inr (.inr ⟨hn, by simp [Path.Same.refl]⟩)
  | @succeed s M N o x registered _ hn =>
      have hN : N.opens = 0 := Ledger.opens_of_closed fun e he => by simp [(hn e he).2, Stage.Closed]
      simp only [Ledger.opens_add, Ledger.opens_singleton, Stage.open?, Option.elim_some, Option.elim_none,
        hN, add_zero, Multiset.mem_add, Multiset.mem_singleton] at hf ⊢
      rcases hf with hf | rfl
      · exact .inr (.inl hf)
      · exact .inl (h.tracked ⟨o, .walking f registered⟩ (by simp) f registered (.inr rfl))
  | @fail s M N o x registered e _ hn _ =>
      have hN : N.opens = 0 := Ledger.opens_of_closed fun e he => (hn e he).2
      simp only [Ledger.opens_add, Ledger.opens_singleton, Stage.open?, Option.elim_some, Option.elim_none,
        hN, add_zero, Multiset.mem_add, Multiset.mem_singleton] at hf ⊢
      rcases hf with hf | rfl
      · exact .inr (.inl hf)
      · exact .inl (h.tracked ⟨o, .walking f registered⟩ (by simp) f registered (.inr rfl))
  | _ =>
      simp only [Ledger.opens_add, Ledger.opens_singleton, opens_seekers, Stage.open?, Option.elim_none,
        Option.elim_some, add_zero] at hf ⊢
      exact .inr (.inl hf)

/-! ## What holds of the walked files -/

section

variable (w) (s₀) (roots)

/-- The file was valid at the start, or it has been walked, or will be checked for the sake of another. -/
def Touched (s : Session) (M : Ledger) (x : Path) : Prop :=
  s₀.isValid x = true ∨ x ∈ s₀.walkedSince s ∨ M.Coming x

structure Pursued (s : Session) (M : Ledger) : Prop where
  roots : ∀ r ∈ roots, s₀.isValid r = true ∨ r ∈ s₀.walkedSince s ∨ M.Calling none r
  declared : ∀ p, s.graph.hasDeclaration p = true → s₀.graph.hasDeclaration p = true ∨
    ∃ f ∈ s₀.walkedSince s, ∃ x ∈ s₀.targets w f, x.kind = .declaration ∧ x.Same p ∧ Touched s₀ s M x
  targets : ∀ f ∈ s₀.walkedSince s, ∀ t ∈ s₀.specifiers w f, ∀ x, w.resolve f t = .ok x →
    x.kind ≠ .compiled → Touched s₀ s M x ∨ (x.kind = .declaration ∧ s₀.graph.hasDeclaration x = true) ∨
      M.Awaits f t
  links : ∀ f ∈ s₀.walkedSince s, ∀ t ∈ s₀.specifiers w f, ∀ x, w.resolve f t = .ok x →
    x.kind = .source → s.graph.hasDependency f x = true ∨ M.Awaits f t
  links_new : ∀ f ∈ s₀.walkedSince s, ∀ q, s.graph.hasDependency f q = true →
    ∃ x ∈ s₀.targets w f, x.kind = .source ∧ x.Same q
  links_old : ∀ p, (∀ f ∈ s₀.walkedSince s, ¬f.Same p) → ∀ q,
    s.graph.hasDependency p q = s₀.graph.hasDependency p q
  resolved : ∀ f ∈ s₀.walkedSince s, s.isValid f = true → ∀ t ∈ s₀.specifiers w f,
    (∃ x, w.resolve f t = .ok x) ∨ M.Awaits f t ∨ M.Doomed f
  obtained : ∀ f ∈ s₀.walkedSince s, s.isTracked f = true ∨ f ∈ M.opens ∨
    ¬s₀.Obtainable w f ∧ s.isValid f = false

end

theorem LedgerStep.mem_walkedSince {c c' : Session × Ledger} (ht : LedgerStep w c c')
    (h : Orderly w s₀ roots c.1 c.2) {f : Path} (hf : f ∈ s₀.walkedSince c.1) :
    f ∈ s₀.walkedSince c'.1 := by
  rcases ht.walkedSince h with hw | ⟨x, -, hw⟩ <;> simp [hw, hf]

theorem LedgerStep.walked_before {c c' : Session × Ledger} (ht : LedgerStep w c c')
    (h : Orderly w s₀ roots c.1 c.2) {f : Path} (hf : f ∈ s₀.walkedSince c'.1) :
    f ∈ s₀.walkedSince c.1 ∨ ∀ t, c'.2.Awaits f t := by
  rcases ht.walkedSince h with hw | ⟨x, henter, hw⟩
  · exact .inl (hw ▸ hf)
  · rw [hw, List.mem_append, List.mem_singleton] at hf
    rcases hf with hf | rfl
    · exact .inl hf
    · exact .inr henter.awaits

section

variable {c c' : Session × Ledger} {f x p : Path} {t : String}

/-- A mark is there before the step, or it is that of a walk which starts. -/
theorem LedgerStep.valid_or_enters (ht : LedgerStep w c c') (ha : s₀.SpelledAlike w roots)
    (h : Orderly w s₀ roots c.1 c.2) (hx : s₀.Met w roots x) (hv : c'.1.isValid x = true) :
    c.1.isValid x = true ∨ LedgerStep.Enters c c' x := by
  have h' := ht.orderly ha h
  rcases ht.valid hv with hv | ⟨y, henter, hs⟩
  · exact .inl hv
  · exact .inr (h'.eq_of_same ha (h'.walked y henter.isOpen) hx hs ▸ henter)

/-- What is about to be checked stays so, or the file was valid at the start or has been walked. -/
theorem LedgerStep.calling_or_walked (ht : LedgerStep w c c') (ha : s₀.SpelledAlike w roots)
    (h : Orderly w s₀ roots c.1 c.2) {o : Option Path} (hx : s₀.Met w roots x) (hc : c.2.Calling o x) :
    s₀.isValid x = true ∨ x ∈ s₀.walkedSince c'.1 ∨ c'.2.Calling o x := by
  have h' := ht.orderly ha h
  rcases ht.calling hc with hc | hv
  · exact .inr (.inr hc)
  · rcases h'.valid_new x hv with hv | ⟨g, hg, hs⟩
    · exact .inl hv
    · exact .inr (.inl (h'.eq_of_same ha hg hx hs ▸ hg))

theorem LedgerStep.touched (ht : LedgerStep w c c') (ha : s₀.SpelledAlike w roots) (h : Orderly w s₀ roots c.1 c.2)
    (hx : s₀.Met w roots x) (hc : Touched s₀ c.1 c.2 x) : Touched s₀ c'.1 c'.2 x := by
  rcases hc with hv | hw | ⟨f, hc⟩
  · exact .inl hv
  · exact .inr (.inl (ht.mem_walkedSince h hw))
  · exact (ht.calling_or_walked ha h hx hc).imp_right (·.imp_right fun hc => ⟨f, hc⟩)

/-- A specifier with a target is still waited for, or its target is followed. -/
theorem LedgerStep.awaits_or_followed (ht : LedgerStep w c c') (h : Orderly w s₀ roots c.1 c.2)
    (hm : t ∈ s₀.specifiers w f) (hr : w.resolve f t = .ok x) (hawait : c.2.Awaits f t) :
    c'.2.Awaits f t ∨ Followed c c' f x := by
  rcases ht.awaits h hm hawait with hawait | ⟨⟨cause, he⟩, -⟩ | ⟨y, hy, hfollow⟩
  · exact .inl hawait
  · rw [he] at hr
    cases hr
  · exact .inr (Except.ok.inj (hy.symm.trans hr) ▸ hfollow)

namespace Pursued

theorem declared_step (h : Pursued w s₀ roots c.1 c.2) (ht : LedgerStep w c c') (ha : s₀.SpelledAlike w roots)
    (ho : Orderly w s₀ roots c.1 c.2) (hp : c'.1.graph.hasDeclaration p = true) :
    s₀.graph.hasDeclaration p = true ∨ ∃ f ∈ s₀.walkedSince c'.1, ∃ x ∈ s₀.targets w f,
      x.kind = .declaration ∧ x.Same p ∧ Touched s₀ c'.1 c'.2 x := by
  rcases ht.declared ho hp with hp | ⟨f, hf, x, hx, hk, hs, hc⟩
  · rcases h.declared p hp with h₀ | ⟨f, hf, x, hx, hk, hs, htouch⟩
    · exact .inl h₀
    · exact .inr ⟨f, ht.mem_walkedSince ho hf, x, hx, hk, hs,
        ht.touched ha ho ((ho.reached f hf).target_met hx) htouch⟩
  · exact .inr ⟨f, ht.mem_walkedSince ho hf, x, hx, hk, hs, .inr (.inr hc)⟩

theorem touched_of_followed (h : Pursued w s₀ roots c.1 c.2) (ht : LedgerStep w c c') (ha : s₀.SpelledAlike w roots)
    (ho : Orderly w s₀ roots c.1 c.2) (hx : s₀.Met w roots x) (hk : x.kind ≠ .compiled) (hfollow : Followed c c' f x) :
    Touched s₀ c'.1 c'.2 x ∨ x.kind = .declaration ∧ s₀.graph.hasDeclaration x = true := by
  unfold Followed at hfollow
  split at hfollow
  · next hc => exact absurd hc hk
  · next hdecl =>
    rcases h.declared_step ht ha ho hfollow.1 with h₀ | ⟨g, hg, y, hy, -, hs, htouch⟩
    · exact .inr ⟨hdecl, h₀⟩
    · have hmet := ((ht.orderly ha ho).reached g hg).target_met hy
      exact .inl (ha y x hmet hx hs ▸ htouch)
  · exact .inl (.inr (.inr ⟨f, hfollow.2⟩))

theorem targets_step (h : Pursued w s₀ roots c.1 c.2) (ht : LedgerStep w c c') (ha : s₀.SpelledAlike w roots)
    (ho : Orderly w s₀ roots c.1 c.2) (hf : f ∈ s₀.walkedSince c'.1) (hm : t ∈ s₀.specifiers w f)
    (hr : w.resolve f t = .ok x) (hk : x.kind ≠ .compiled) :
    Touched s₀ c'.1 c'.2 x ∨ (x.kind = .declaration ∧ s₀.graph.hasDeclaration x = true) ∨ c'.2.Awaits f t := by
  rcases ht.walked_before ho hf with hf | hnew
  · have hx : s₀.Met w roots x := (ho.reached f hf).target_met (Session.mem_targets.mpr ⟨t, hm, hr⟩)
    rcases h.targets f hf t hm x hr hk with htouch | h₀ | hawait
    · exact .inl (ht.touched ha ho hx htouch)
    · exact .inr (.inl h₀)
    · rcases ht.awaits_or_followed ho hm hr hawait with hawait | hfollow
      · exact .inr (.inr hawait)
      · exact (h.touched_of_followed ht ha ho hx hk hfollow).imp_right .inl
  · exact .inr (.inr (hnew t))

theorem links_step (h : Pursued w s₀ roots c.1 c.2) (ht : LedgerStep w c c') (ha : s₀.SpelledAlike w roots)
    (ho : Orderly w s₀ roots c.1 c.2) (hf : f ∈ s₀.walkedSince c'.1) (hm : t ∈ s₀.specifiers w f)
    (hr : w.resolve f t = .ok x) (hk : x.kind = .source) :
    c'.1.graph.hasDependency f x = true ∨ c'.2.Awaits f t := by
  have ho' := ht.orderly ha ho
  rcases ht.walked_before ho hf with hf | hnew
  · rcases h.links f hf t hm x hr hk with hl | hawait
    · rcases ht.links ho with ⟨y, henter, hw⟩ | ⟨-, heq | ⟨g, -, y, -, -, hs⟩⟩
      · by_cases hsame : y.Same f
        · obtain rfl := ho'.eq_of_same ha (by simp [hw]) (ho.met_of_walked hf) hsame
          exact .inr (henter.awaits t)
        · exact .inl (by simp [henter.session, hsame, hl])
      · exact .inl (by rw [heq, hl])
      · exact .inl (by simp [hs, hl])
    · rcases ht.awaits_or_followed ho hm hr hawait with hawait | hfollow
      · exact .inr hawait
      · simp only [Followed, hk] at hfollow
        exact .inl hfollow.1
  · exact .inr (hnew t)

theorem links_new_step (h : Pursued w s₀ roots c.1 c.2) (ht : LedgerStep w c c') (ha : s₀.SpelledAlike w roots)
    (ho : Orderly w s₀ roots c.1 c.2) (hf : f ∈ s₀.walkedSince c'.1) (hp : c'.1.graph.hasDependency f p = true) :
    ∃ x ∈ s₀.targets w f, x.kind = .source ∧ x.Same p := by
  rcases ht.links ho with ⟨y, henter, hw⟩ | ⟨hw, heq | ⟨g, hg, y, hy, hk, hs⟩⟩
  · rw [henter.session, Session.hasDependency_enter, Bool.and_eq_true] at hp
    rw [hw, List.mem_append, List.mem_singleton] at hf
    rcases hf with hf | rfl
    · exact h.links_new f hf p hp.2
    · simp [Path.Same.refl] at hp
  · rw [heq] at hp
    exact h.links_new f (hw ▸ hf) p hp
  · rw [hs, Session.hasDependency_link, Bool.or_eq_true, decide_eq_true_eq] at hp
    rcases hp with hp | ⟨hsame, hp⟩
    · exact h.links_new f (hw ▸ hf) p hp
    · obtain rfl := ho.eq_of_same ha hg (ho.met_of_walked (hw ▸ hf)) hsame
      exact ⟨y, hy, hk, hp⟩

theorem links_old_step (h : Pursued w s₀ roots c.1 c.2) (ht : LedgerStep w c c') (ho : Orderly w s₀ roots c.1 c.2)
    (hp : ∀ f ∈ s₀.walkedSince c'.1, ¬f.Same p) (q : Path) :
    c'.1.graph.hasDependency p q = s₀.graph.hasDependency p q := by
  rcases ht.links ho with ⟨y, henter, hw⟩ | ⟨hw, heq | ⟨g, hg, y, hy, hk, hs⟩⟩
  · have hy : ¬y.Same p := hp y (by simp [hw])
    rw [henter.session, Session.hasDependency_enter]
    simp [hy, h.links_old p (fun f hf => hp f (by simp [hw, hf])) q]
  · rw [heq]
    exact h.links_old p (fun f hf => hp f (hw ▸ hf)) q
  · have hg' : ¬g.Same p := hp g (hw ▸ hg)
    rw [hs, Session.hasDependency_link]
    simp [hg', h.links_old p (fun f hf => hp f (hw ▸ hf)) q]

theorem resolved_step (h : Pursued w s₀ roots c.1 c.2) (ht : LedgerStep w c c') (ha : s₀.SpelledAlike w roots)
    (ho : Orderly w s₀ roots c.1 c.2) (hf : f ∈ s₀.walkedSince c'.1) (hv : c'.1.isValid f = true)
    (hm : t ∈ s₀.specifiers w f) : (∃ x, w.resolve f t = .ok x) ∨ c'.2.Awaits f t ∨ c'.2.Doomed f := by
  rcases ht.walked_before ho hf with hf | hnew
  · rcases ht.valid_or_enters ha ho (ho.met_of_walked hf) hv with hv₀ | henter
    · rcases h.resolved f hf hv₀ t hm with hx | hawait | hdoom
      · exact .inl hx
      · rcases ht.awaits ho hm hawait with hawait | ⟨-, hdoom⟩ | ⟨y, hy, -⟩
        · exact .inr (.inl hawait)
        · exact .inr (.inr hdoom)
        · exact .inl ⟨y, hy⟩
      · rcases ht.doomed hdoom with hdoom | hn
        · exact .inr (.inr hdoom)
        · rw [hv] at hn
          cases hn
    · exact .inr (.inl (henter.awaits t))
  · exact .inr (.inl (hnew t))

/-- A mark that is put on a file while it cannot be had opens the file again. -/
theorem obtained_kept (h : Pursued w s₀ roots c.1 c.2) (ht : LedgerStep w c c') (ha : s₀.SpelledAlike w roots)
    (ho : Orderly w s₀ roots c.1 c.2) (hf : f ∈ s₀.walkedSince c.1) :
    c'.1.isTracked f = true ∨ f ∈ c'.2.opens ∨ ¬s₀.Obtainable w f ∧ c'.1.isValid f = false := by
  rcases h.obtained f hf with htr | hopen | ⟨hn, hv⟩
  · exact .inl (ht.tracked htr)
  · exact ht.opens ho hopen
  · cases hv' : c'.1.isValid f with
    | false => exact .inr (.inr ⟨hn, rfl⟩)
    | true =>
        rcases ht.valid_or_enters ha ho (ho.met_of_walked hf) hv' with hv₀ | henter
        · rw [hv] at hv₀
          cases hv₀
        · exact .inr (.inl henter.isOpen)

theorem obtained_step (h : Pursued w s₀ roots c.1 c.2) (ht : LedgerStep w c c') (ha : s₀.SpelledAlike w roots)
    (ho : Orderly w s₀ roots c.1 c.2) (hf : f ∈ s₀.walkedSince c'.1) :
    c'.1.isTracked f = true ∨ f ∈ c'.2.opens ∨ ¬s₀.Obtainable w f ∧ c'.1.isValid f = false := by
  rcases ht.walkedSince ho with hw | ⟨y, henter, hw⟩
  · exact h.obtained_kept ht ha ho (hw ▸ hf)
  · rw [hw, List.mem_append, List.mem_singleton] at hf
    rcases hf with hf | rfl
    · exact h.obtained_kept ht ha ho hf
    · exact .inr (.inl henter.isOpen)

end Pursued

theorem LedgerStep.pursued (ht : LedgerStep w c c') (ha : s₀.SpelledAlike w roots) (ho : Orderly w s₀ roots c.1 c.2)
    (h : Pursued w s₀ roots c.1 c.2) : Pursued w s₀ roots c'.1 c'.2 where
  roots := fun r hr => by
    rcases h.roots r hr with hv | hw | hc
    · exact .inl hv
    · exact .inr (.inl (ht.mem_walkedSince ho hw))
    · exact ht.calling_or_walked ha ho (.inl hr) hc
  declared := fun _ => h.declared_step ht ha ho
  targets := fun _ hf _ hm _ => h.targets_step ht ha ho hf hm
  links := fun _ hf _ hm _ => h.links_step ht ha ho hf hm
  links_new := fun _ hf _ => h.links_new_step ht ha ho hf
  links_old := fun _ => h.links_old_step ht ho
  resolved := fun _ hf hv _ => h.resolved_step ht ha ho hf hv
  obtained := fun _ => h.obtained_step ht ha ho

end

theorem pursued_asked (w : Surroundings) (s : Session) (roots : List Path) :
    Pursued w s roots s (.asked roots) := by
  have hw : s.walkedSince s = [] := by simp [Session.walkedSince]
  constructor
  case roots => exact fun r hr => .inr (.inr ⟨_, Ledger.mem_asked.mpr ⟨r, hr, rfl⟩, rfl, rfl⟩)
  case declared => exact fun p => .inl
  all_goals simp [hw]

end ImportCheck
