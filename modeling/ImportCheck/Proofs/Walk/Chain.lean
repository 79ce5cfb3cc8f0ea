import ImportCheck.Proofs.Walk.Failure

/-!
# Failed files stay within reach

Every file whose last walk failed can be reached from a root by way of files that are not valid either, and
through links that no registration blocks, so that the next check of the root comes by. While work is under
way, a chain may also pass through files that are about to fail, or that have still to look at a specifier;
open walks hang together by their owners.
-/

namespace ImportCheck

/-- The walk of the file is open, and so are all those it is part of, up to the check of a root. -/
inductive Held (M : Ledger) : Path → Prop
  | root {e : Post} {x : Path} (he : e ∈ M) (ho : e.owner = none) (hx : e.stage.open? = some x) : Held M x
  | part {e : Post} {f x : Path} (hf : Held M f) (he : e ∈ M) (ho : e.owner = some f)
      (hx : e.stage.open? = some x) : Held M x

section

variable (w : Surroundings) (s₀ : Session) (roots : List Path)

/-- The file is reached by way of files that are not valid or will not stay so. -/
inductive Chain (s : Session) (M : Ledger) : Path → Prop
  | root {r : Path} (hr : r ∈ roots) : Chain s M r
  | held {x : Path} (hx : Held M x) : Chain s M x
  | called {f x : Path} (hf : Held M f) (hx : M.Calling (some f) x) : Chain s M x
  | link {f x : Path} {t : String} (hf : Chain s M f) (hw : f ∈ s₀.walkedSince s)
      (hm : t ∈ s₀.specifiers w f) (hx : w.resolve f t = .ok x) (hk : x.kind ≠ .compiled)
      (hv : s.isValid f = false ∨ M.Doomed f ∨ M.Awaits f t)
      (hd : x.kind = .source ∨ s.graph.hasDeclaration x = false) : Chain s M x

/-- What is open is held, and what was walked and is not valid is at the end of a chain. -/
structure Chained (s : Session) (M : Ledger) : Prop where
  held : ∀ x ∈ M.opens, Held M x
  failed : ∀ x ∈ s₀.walkedSince s, s.isValid x = false → Chain w s₀ roots s M x

end

variable {w : Surroundings} {s₀ : Session} {roots : List Path} {c c' : Session × Ledger}

/-! ## Open walks -/

theorem Held.mono {M M' : Ledger} {x : Path} (h : Held M x)
    (hm : ∀ e ∈ M, ∀ y, e.stage.open? = some y → ∃ e' ∈ M', e'.owner = e.owner ∧ e'.stage.open? = some y) :
    Held M' x := by
  induction h with
  | root he ho hx =>
      obtain ⟨e', he', ho', hx'⟩ := hm _ he _ hx
      exact .root he' (ho'.trans ho) hx'
  | part _ he ho hx ih =>
      obtain ⟨e', he', ho', hx'⟩ := hm _ he _ hx
      exact .part ih he' (ho'.trans ho) hx'

/-- One post makes way for others, of which one keeps its walk open if it has one. -/
theorem Held.of_stage {M M' : Ledger} {o : Option Path} {g : Stage} {x : Path} (h : Held (M + {⟨o, g⟩}) x)
    (hM : ∀ e ∈ M, e ∈ M') (hg : ∀ y, g.open? = some y → ∃ g', ⟨o, g'⟩ ∈ M' ∧ g'.open? = some y) : Held M' x := by
  refine h.mono fun e he y hy => ?_
  rcases Multiset.mem_add.mp he with he | he
  · exact ⟨e, hM e he, rfl, hy⟩
  · obtain rfl := Multiset.mem_singleton.mp he
    obtain ⟨g', hm, hy'⟩ := hg y hy
    exact ⟨⟨o, g'⟩, hm, rfl, hy'⟩

theorem Held.of_post {M : Ledger} {e : Post} {x : Path} (he : e ∈ M) (hx : e.stage.open? = some x)
    (ho : ∀ f, e.owner = some f → Held M f) : Held M x := by
  cases h : e.owner with
  | none => exact .root he h hx
  | some f => exact .part (ho f h) he h hx

/-- When a walk ends the others stay held, since none of them was part of it. -/
theorem Held.of_end {M N : Ledger} (N' : Ledger) {o : Option Path} {g : Stage} {x y : Path}
    (h : Held (M + ({⟨o, g⟩} + N)) y) (hg : g.open? = some x) (hm : ∀ e ∈ M, e.owner ≠ some x)
    (hn : ∀ e ∈ N, e.stage.Closed) : y = x ∨ Held (M + N') y := by
  have hpost : ∀ e ∈ M + ({⟨o, g⟩} + N), ∀ y, e.stage.open? = some y → y = x ∨ e ∈ M := by
    intro e he y hy
    simp only [Multiset.mem_add, Multiset.mem_singleton] at he
    rcases he with he | rfl | he
    · exact .inr he
    · exact .inl (Option.some.inj (hy.symm.trans hg))
    · have := hn e he
      cases hs : e.stage <;> simp_all [Stage.Closed, Stage.open?]
  induction h with
  | root he ho hx =>
      rcases hpost _ he _ hx with heq | he
      · exact .inl heq
      · exact .inr (.root (Multiset.mem_add.mpr (.inl he)) ho hx)
  | @part e f y _ he ho hx ih =>
      rcases hpost _ he _ hx with heq | he
      · exact .inl heq
      · rcases ih with rfl | hf
        · exact absurd ho (hm e he)
        · exact .inr (.part hf (Multiset.mem_add.mpr (.inl he)) ho hx)

/-- The walk of the file has succeeded, and no chain goes through it any more. -/
structure Spent (c c' : Session × Ledger) (x : Path) : Prop where
  valid : c.1.isValid x = true
  valid' : c'.1.isValid x = true
  not_doomed : ¬c.2.Doomed x
  not_awaits : ∀ t, ¬c.2.Awaits x t

theorem not_awaits_of_no_parts {M : Ledger} {x : Path} (hs : ∀ e ∈ M, e.Sensible w s₀ roots)
    (ho : ∀ e ∈ M, e.owner ≠ some x) (hx : x ∉ M.opens) (t : String) : ¬M.Awaits x t := by
  rintro ⟨e, he, hl⟩
  cases hstage : e.stage with
  | seeking f u a =>
      rw [hstage] at hl
      obtain ⟨rfl, rfl⟩ := hl
      have hsense := hs e he
      rw [Post.Sensible, hstage] at hsense
      exact ho e he hsense.1
  | reading f registered =>
      rw [hstage] at hl
      obtain rfl : f = x := hl
      exact hx (Ledger.mem_opens.mpr ⟨e, he, by simp [hstage, Stage.open?]⟩)
  | scanning f registered =>
      rw [hstage] at hl
      obtain rfl : f = x := hl
      exact hx (Ledger.mem_opens.mpr ⟨e, he, by simp [hstage, Stage.open?]⟩)
  | _ => simp [hstage, Stage.LooksFor] at hl

theorem Spent.of_closed {x : Path} (ho : Orderly w s₀ roots c.1 c.2) (hv : c.1.isValid x = true)
    (hv' : c'.1.isValid x = true) (hx : x ∉ c.2.opens) : Spent c c' x := by
  have hparts : ∀ e ∈ c.2, e.owner ≠ some x := fun e he h => hx (ho.tidy.owner_open he h)
  exact ⟨hv, hv', fun ⟨e, he, h, _⟩ => hparts e he h, not_awaits_of_no_parts ho.sensible hparts hx⟩

theorem spent_of_succeed {s : Session} {M M' N : Ledger} {o : Option Path} {x : Path} {registered : Bool}
    (ho : Orderly w s₀ roots s (M + ({⟨o, .walking x registered⟩} + N))) (hopen : x ∉ M.opens)
    (hm : ∀ e ∈ M, e.owner ≠ some x) (hn : ∀ e ∈ N, e.stage = .passed) :
    Spent (s, M + ({⟨o, .walking x registered⟩} + N)) (s, M') x := by
  have hv := ho.tidy.valid x (Ledger.mem_opens.mpr ⟨⟨o, .walking x registered⟩, by simp, rfl⟩)
  have hclosed : ∀ e ∈ N, e.stage.Closed := fun e he => by simp [hn e he, Stage.Closed]
  refine ⟨hv, hv, ?_, fun t ha => ?_⟩
  · rintro ⟨e, he, howner, hf⟩
    simp only [Multiset.mem_add, Multiset.mem_singleton] at he
    rcases he with he | rfl | he
    · exact hm e he howner
    · exact hf
    · simp [hn e he, Stage.Failed] at hf
  · rw [Ledger.awaits_add, Ledger.awaits_add, Ledger.awaits_singleton] at ha
    rcases ha with ha | ha | ha
    · exact not_awaits_of_no_parts (fun e he => ho.sensible e (by simp [he])) hm hopen t ha
    · exact ha
    · exact Ledger.not_awaits_of_closed hclosed ha

theorem chain_of_failed {s s' : Session} {M N : Ledger} {o : Option Path} {g : Stage} {x : Path}
    {registered : Bool} {e : Failure} (ho : Orderly w s₀ roots s (M + ({⟨o, g⟩} + N)))
    (hheld : ∀ x ∈ (M + ({⟨o, g⟩} + N)).opens, Held (M + ({⟨o, g⟩} + N)) x) (hg : g.open? = some x)
    (haim : Aimed w s₀ roots o x registered) (hm : ∀ e ∈ M, e.owner ≠ some x)
    (hn : ∀ e ∈ N, e.stage.Closed) (hw : s₀.walkedSince s' = s₀.walkedSince s)
    (hd : registered = true → s'.graph.hasDeclaration x = false) :
    Chain w s₀ roots s' (M + {⟨o, .failed e⟩}) x := by
  have hpost : (⟨o, g⟩ : Post) ∈ M + ({⟨o, g⟩} + N) := by simp
  cases o with
  | none => exact .root haim.1
  | some f =>
      have hne : f ≠ x := fun h => ho.tidy.apart _ hpost x hg (by rw [h])
      have hf := (hheld f (ho.tidy.owner_open hpost rfl)).of_end {⟨some f, .failed e⟩} hg hm hn
      obtain ⟨-, hx, hk⟩ := haim
      obtain ⟨t, ht, hr⟩ := Session.mem_targets.mp hx
      refine .link (.held (hf.resolve_left hne)) (hw ▸ ho.owner_walked hpost rfl) ht hr ?_ (.inr (.inl ?_)) ?_
      · rcases hk with ⟨hk, -⟩ | ⟨hk, -⟩ <;> simp [hk]
      · rw [Ledger.doomed_add, Ledger.doomed_singleton]
        exact .inr ⟨rfl, trivial⟩
      · exact hk.imp (·.1) fun h => hd h.2.1

/-- Open walks stay held. One that ends leaves a chain, or nothing that a chain would need. -/
theorem LedgerStep.held (ht : LedgerStep w c c') (ho : Orderly w s₀ roots c.1 c.2)
    (hheld : ∀ x ∈ c.2.opens, Held c.2 x) {x : Path} (hx : Held c.2 x) :
    Held c'.2 x ∨ x ∉ c'.2.opens ∧ (Chain w s₀ roots c'.1 c'.2 x ∨ Spent c c' x) := by
  have htidy := ht.tidy ho.tidy
  cases ht with
  | note _ => exact .inl hx
  | @unreadable s M o y registered fault _ =>
      have hm := ho.tidy.owner_ne rfl (by simp)
      rw [← add_zero {_}] at hx ho hheld
      rcases hx.of_end {⟨o, .failed (.io y fault)⟩} rfl hm (by simp) with rfl | hx
      · refine .inr ⟨fun h => ?_, .inl ?_⟩
        · have := htidy.valid _ h
          simp [Path.Same.refl] at this
        · refine chain_of_failed ho hheld rfl (ho.sensible ⟨o, .reading x registered⟩ (by simp)) hm (by simp)
            rfl ?_
          rintro rfl
          simp [Path.Same.refl]
      · exact .inl hx
  | @scan s M o y registered found _ =>
      exact .inl (hx.of_stage (by simp +contextual) fun z hz => ⟨.walking y registered, by simp, hz⟩)
  | @succeed s M N o y registered hm hn =>
      have hclosed : ∀ e ∈ N, e.stage.Closed := fun e he => by simp [(hn e he).2, Stage.Closed]
      rcases hx.of_end {⟨o, .passed⟩} rfl hm hclosed with rfl | hx
      · have hopen : x ∉ M.opens := fun h =>
          ho.tidy.not_same h (Ledger.mem_opens.mpr ⟨⟨o, .walking x registered⟩, by simp, rfl⟩) (Path.Same.refl x)
        exact .inr ⟨by simpa [Stage.open?] using hopen, .inr (spent_of_succeed ho hopen hm fun e he => (hn e he).2)⟩
      · exact .inl hx
  | @fail s M N o y registered e hm hn _ =>
      have hclosed : ∀ e ∈ N, e.stage.Closed := fun e he => (hn e he).2
      rcases hx.of_end {⟨o, .failed e⟩} rfl hm hclosed with rfl | hx
      · refine .inr ⟨fun h => ?_, .inl ?_⟩
        · have := htidy.valid _ h
          simp [Path.Same.refl] at this
        · refine chain_of_failed ho hheld rfl (ho.sensible ⟨o, .walking x registered⟩ (by simp)) hm hclosed
            rfl ?_
          rintro rfl
          simp [Path.Same.refl]
      · exact .inl hx
  | @store s M o y registered text _ =>
      exact .inl (hx.of_stage (by simp +contextual) fun z hz => ⟨.scanning y registered, by simp, hz⟩)
  | _ => exact .inl (hx.of_stage (by simp +contextual) (by simp [Stage.open?]))

theorem LedgerStep.opens_back (ht : LedgerStep w c c') (htidy : Tidy c.1 c.2) {x : Path} (hx : x ∈ c'.2.opens) :
    x ∈ c.2.opens ∨ ∃ e ∈ c'.2, e.stage.open? = some x ∧ ∀ f, e.owner = some f → f ∈ c.2.opens := by
  cases ht with
  | note _ => exact .inl hx
  | @enter s M o y registered hv =>
      rw [Ledger.opens_add, Multiset.mem_add] at hx
      rcases hx with hx | hx
      · left
        rw [Ledger.opens_add]
        exact Multiset.mem_add.mpr (.inl hx)
      · right
        obtain ⟨e, he, ho⟩ := Ledger.mem_opens.mp hx
        obtain rfl := Multiset.mem_singleton.mp he
        exact ⟨_, Multiset.mem_add.mpr (.inr he), ho, fun f hf =>
          htidy.owner_open (e := ⟨o, .calling y registered⟩) (by simp) hf⟩
  | scan _ =>
      simp only [Ledger.opens_add, Ledger.opens_singleton, opens_seekers, Stage.open?, add_zero] at hx ⊢
      exact .inl hx
  | store _ => exact .inl (by simpa [Stage.open?] using hx)
  | _ =>
      simp only [Ledger.opens_add, Ledger.opens_singleton, Stage.open?, Option.elim_none, add_zero] at hx
      left
      rw [Ledger.opens_add]
      exact Multiset.mem_add.mpr (.inl hx)

theorem LedgerStep.held_opens (ht : LedgerStep w c c') (ho : Orderly w s₀ roots c.1 c.2)
    (hheld : ∀ x ∈ c.2.opens, Held c.2 x) : ∀ x ∈ c'.2.opens, Held c'.2 x := by
  intro x hx
  have htidy := ht.tidy ho.tidy
  have hkept : ∀ y ∈ c.2.opens, y ∈ c'.2.opens → Held c'.2 y := fun y hy hy' =>
    (ht.held ho hheld (hheld y hy)).resolve_right fun h => h.1 hy'
  rcases ht.opens_back ho.tidy hx with hx₀ | ⟨e, he, hopen, howner⟩
  · exact hkept x hx₀ hx
  · exact .of_post he hopen fun f hf => hkept f (howner f hf) (htidy.owner_open he hf)

/-! ## Chains -/

theorem Ledger.Calling.owner_open {s : Session} {M : Ledger} (htidy : Tidy s M) {f x : Path}
    (h : M.Calling (some f) x) : f ∈ M.opens := by
  obtain ⟨e, he, ho, -⟩ := h
  exact htidy.owner_open he ho

theorem Orderly.met_of_calling {s : Session} {M : Ledger} (h : Orderly w s₀ roots s M) {o : Option Path}
    {x : Path} (hx : M.Calling o x) : s₀.Met w roots x := by
  obtain ⟨e, he, -, hc⟩ := hx
  have hsense := h.sensible e he
  cases hs : e.stage with
  | calling y registered =>
      rw [hs] at hc
      obtain rfl : y = x := hc
      rw [Post.Sensible, hs] at hsense
      exact hsense.met
  | _ => simp [hs, Stage.Calls] at hc

/-- A declaration that a step registers is about to be checked. -/
theorem LedgerStep.undeclared_or_coming (ht : LedgerStep w c c') (ha : s₀.SpelledAlike w roots)
    (ho : Orderly w s₀ roots c.1 c.2) {x : Path} (hx : s₀.Met w roots x) (hd : c.1.graph.hasDeclaration x = false) :
    c'.1.graph.hasDeclaration x = false ∨ c'.2.Coming x := by
  cases hd' : c'.1.graph.hasDeclaration x with
  | false => exact .inl rfl
  | true =>
      rcases ht.declared ho hd' with h₀ | ⟨g, hg, y, hy, -, hs, hcall⟩
      · rw [hd] at h₀
        cases h₀
      · exact .inr (ha y x ((ho.reached g hg).target_met hy) hx hs ▸ hcall)

/-- A target that is followed is about to be checked, unless it was registered before. -/
theorem Followed.calling {f x : Path} (h : Followed c c' f x) (hk : x.kind ≠ .compiled)
    (hd : x.kind = .source ∨ c.1.graph.hasDeclaration x = false) : c'.2.Calling (some f) x := by
  unfold Followed at h
  split at h
  · next hc => exact absurd hc hk
  · next hdecl =>
    rcases h.2 with hreg | hcall
    · simp [hdecl, hreg] at hd
    · exact hcall
  · exact h.2

/-- The file of a link stays of the kind that chains go through, or the target is about to be checked. -/
theorem LedgerStep.passable_or_calling (ht : LedgerStep w c c') (ha : s₀.SpelledAlike w roots)
    (ho : Orderly w s₀ roots c.1 c.2) {f x : Path} {t : String} (hw : f ∈ s₀.walkedSince c.1)
    (hm : t ∈ s₀.specifiers w f) (hr : w.resolve f t = .ok x) (hk : x.kind ≠ .compiled)
    (hd : x.kind = .source ∨ c.1.graph.hasDeclaration x = false)
    (hv : c.1.isValid f = false ∨ c.2.Doomed f ∨ c.2.Awaits f t) :
    (c'.1.isValid f = false ∨ c'.2.Doomed f ∨ c'.2.Awaits f t) ∨ c'.2.Calling (some f) x := by
  rcases hv with hv | hdoom | hawait
  · cases hv' : c'.1.isValid f with
    | false => exact .inl (.inl rfl)
    | true =>
        rcases ht.valid_or_enters ha ho (ho.met_of_walked hw) hv' with hv₀ | henter
        · rw [hv] at hv₀
          cases hv₀
        · exact .inl (.inr (.inr (henter.awaits t)))
  · exact .inl ((ht.doomed hdoom).symm.imp_right .inl)
  · rcases ht.awaits_or_followed ho hm hr hawait with hawait | hfollow
    · exact .inl (.inr (.inr hawait))
    · exact .inr (hfollow.calling hk hd)

/-- A step on the ledger leaves every chain in place, but for the file whose walk has just succeeded. -/
theorem LedgerStep.chain (ht : LedgerStep w c c') (ha : s₀.SpelledAlike w roots) (ho : Orderly w s₀ roots c.1 c.2)
    (hheld : ∀ x ∈ c.2.opens, Held c.2 x) {x : Path} (hx : Chain w s₀ roots c.1 c.2 x) :
    Chain w s₀ roots c'.1 c'.2 x ∨ Spent c c' x := by
  have ho' := ht.orderly ha ho
  have hheld' := ht.held_opens ho hheld
  have hcalled : ∀ {f x}, c'.2.Calling (some f) x → Chain w s₀ roots c'.1 c'.2 x := fun h =>
    .called (hheld' _ (h.owner_open ho'.tidy)) h
  have hopen : ∀ {x}, Held c.2 x → Chain w s₀ roots c'.1 c'.2 x ∨ Spent c c' x := fun h =>
    (ht.held ho hheld h).elim (fun h => .inl (.held h)) (·.2)
  induction hx with
  | root hr => exact .inl (.root hr)
  | held h => exact hopen h
  | @called f x hf hx =>
      rcases ht.calling hx with hx' | hv'
      · exact .inl (hcalled hx')
      · rcases ht.valid_or_enters ha ho (ho.met_of_calling hx) hv' with hv | henter
        · by_cases hx₀ : x ∈ c.2.opens
          · exact hopen (hheld x hx₀)
          · exact .inr (.of_closed ho hv hv' hx₀)
        · exact .inl (.held (hheld' x henter.isOpen))
  | @link f x t hf hw hm hr hk hv hd ih =>
      have hx : s₀.Met w roots x := (ho.reached f hw).target_met (Session.mem_targets.mpr ⟨t, hm, hr⟩)
      rcases ih with hf' | hspent
      · rcases ht.passable_or_calling ha ho hw hm hr hk hd hv with hv' | hcall
        · have hlink : x.kind = .source ∨ c'.1.graph.hasDeclaration x = false → Chain w s₀ roots c'.1 c'.2 x :=
            .link hf' (ht.mem_walkedSince ho hw) hm hr hk hv'
          rcases hd with hsource | hd
          · exact .inl (hlink (.inl hsource))
          · rcases ht.undeclared_or_coming ha ho hx hd with hd' | ⟨g, hcall⟩
            · exact .inl (hlink (.inr hd'))
            · exact .inl (hcalled hcall)
        · exact .inl (hcalled hcall)
      · exfalso
        rcases hv with hv | hdoom | hawait
        · rw [hspent.valid] at hv
          cases hv
        · exact hspent.not_doomed hdoom
        · exact hspent.not_awaits t hawait

theorem LedgerStep.chained (ht : LedgerStep w c c') (ha : s₀.SpelledAlike w roots) (ho : Orderly w s₀ roots c.1 c.2)
    (h : Chained w s₀ roots c.1 c.2) : Chained w s₀ roots c'.1 c'.2 := by
  refine ⟨ht.held_opens ho h.held, fun x hx hv' => ?_⟩
  have hkept : Chain w s₀ roots c.1 c.2 x → Chain w s₀ roots c'.1 c'.2 x := fun hc =>
    (ht.chain ha ho h.held hc).resolve_right fun hs => by
      rw [hs.valid'] at hv'
      cases hv'
  have hx₀ : x ∈ s₀.walkedSince c.1 := by
    rcases ht.walkedSince ho with hw | ⟨y, henter, hw⟩
    · exact hw ▸ hx
    · rw [hw, List.mem_append, List.mem_singleton] at hx
      rcases hx with hx | rfl
      · exact hx
      · simp [henter.session, Path.Same.refl] at hv'
  cases hv : c.1.isValid x with
  | false => exact hkept (h.failed x hx₀ hv)
  | true =>
      obtain ⟨y, hy, hs, -⟩ := ht.invalidated ho hv hv'
      obtain rfl := ho.eq_of_same ha (ho.walked y hy) (ho.met_of_walked hx₀) hs
      exact hkept (.held (h.held y hy))

theorem chained_asked (w : Surroundings) (s : Session) (roots : List Path) :
    Chained w s roots s (.asked roots) := by
  have hw : s.walkedSince s = [] := by simp [Session.walkedSince]
  have hopens : (Ledger.asked roots).opens = 0 := Ledger.opens_of_not_open fun e he => by
    obtain ⟨r, -, rfl⟩ := Ledger.mem_asked.mp he
    rfl
  exact ⟨by simp [hopens], by simp [hw]⟩

end ImportCheck
