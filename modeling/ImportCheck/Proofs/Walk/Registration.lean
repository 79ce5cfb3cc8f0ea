import ImportCheck.Proofs.Walk.Failure

/-!
# Who registers a declaration

A declaration is registered by the one part of the work that goes on to check it, and only that part takes
the registration back. A root that is a declaration itself stays registered once it is: its own walk is open
for as long as anything is under way, so that no other one can fail.
-/

namespace ImportCheck

/-- The declaration that a post was registered for. -/
def Stage.registers? : Stage → Option Path
  | .calling x true => some x
  | .reading x true => some x
  | .scanning x true => some x
  | .walking x true => some x
  | _ => none

namespace Ledger

def registrations (M : Ledger) : Multiset Path := M.filterMap fun e => e.stage.registers?

/-- The check of the root is over, and something is under way all the same. -/
def Overrun (M : Ledger) : Prop :=
  (∀ e ∈ M, e.owner = none → e.stage.Closed) ∧ ∃ e ∈ M, e.owner ≠ none

variable {M N : Ledger}

@[simp] theorem registrations_add : (M + N).registrations = M.registrations + N.registrations :=
  Multiset.filterMap_add _ _ _

@[simp] theorem registrations_singleton (o : Option Path) (g : Stage) :
    registrations {⟨o, g⟩} = g.registers?.elim 0 fun x => {x} := by
  cases h : g.registers? <;> simp [registrations, ← Multiset.cons_zero, h]

theorem mem_registrations {x : Path} :
    x ∈ M.registrations ↔ ∃ e ∈ M, e.stage.registers? = some x :=
  Multiset.mem_filterMap (fun e : Post => e.stage.registers?) M

theorem registrations_of_none (h : ∀ e ∈ N, e.stage.registers? = none) : N.registrations = 0 := by
  rw [Multiset.eq_zero_iff_forall_notMem]
  intro x hx
  obtain ⟨e, he, hs⟩ := mem_registrations.mp hx
  rw [h e he] at hs
  cases hs

end Ledger

@[simp] theorem registrations_seekers {w : Surroundings} {f : Path} {specifiers : List String} :
    (w.seekers f specifiers).registrations = 0 :=
  Ledger.registrations_of_none fun e he => by
    obtain ⟨t, -, rfl⟩ := mem_seekers.mp he
    rfl

variable {w : Surroundings} {s₀ : Session} {roots : List Path} {c c' : Session × Ledger}

/-! ## The root is checked to the end -/

theorem Ledger.Overrun.replace {M N N' : Ledger} {o : Option Path} {g g' : Stage}
    (h : (M + ({⟨o, g⟩} + N)).Overrun) (hg : ¬g.Closed) (hn : ∀ e ∈ N', e.owner ≠ none) :
    (M + ({⟨o, g'⟩} + N')).Overrun := by
  have ho : o ≠ none := fun ho => hg (h.1 ⟨o, g⟩ (by simp) ho)
  refine ⟨?_, ⟨o, g'⟩, by simp, ho⟩
  simp only [Ledger.forall_add, Ledger.forall_singleton]
  exact ⟨fun e he => h.1 e (by simp [he]), fun h => absurd h ho, fun e he h => absurd h (hn e he)⟩

theorem LedgerStep.overrun (ht : LedgerStep w c c') (h : c.2.Overrun) : c'.2.Overrun := by
  cases ht with
  | note _ => exact h
  | scan _ =>
      rw [← add_zero {_}] at h
      refine h.replace (by simp [Stage.Closed]) fun e he => ?_
      obtain ⟨t, -, rfl⟩ := mem_seekers.mp he
      simp
  | succeed _ _ =>
      rw [← add_zero {_}]
      exact h.replace (by simp [Stage.Closed]) (by simp)
  | fail _ _ _ =>
      rw [← add_zero {_}]
      exact h.replace (by simp [Stage.Closed]) (by simp)
  | _ =>
      rw [← add_zero {_}] at h ⊢
      exact h.replace (by simp [Stage.Closed]) (by simp)

/-! ## Registrations come and go -/

theorem LedgerStep.registrations (ht : LedgerStep w c c') :
    c'.2.registrations ≤ c.2.registrations ∨ ∃ x, c'.2.registrations = c.2.registrations + {x} ∧
      c.1.graph.hasDeclaration x = false ∧ c'.1.graph.hasDeclaration x = true := by
  cases ht with
  | note _ => exact .inl le_rfl
  | @register s M o f x t hk hd =>
      exact .inr ⟨x, by simp [Stage.registers?], hd, by simp [Path.Same.refl]⟩
  | @enter s M o x registered hv =>
      left
      cases registered <;> simp only [Ledger.registrations_add, Ledger.registrations_singleton] <;>
        split <;> simp [Stage.registers?]
  | @store s M o x registered text _ =>
      left
      cases registered <;> simp [Stage.registers?]
  | @scan s M o x registered found _ =>
      left
      cases registered <;> simp only [Ledger.registrations_add, Ledger.registrations_singleton,
        registrations_seekers, add_zero] <;> exact le_rfl
  | _ =>
      left
      simp only [Ledger.registrations_add, Ledger.registrations_singleton, Stage.registers?,
        Option.elim_none, add_zero, Multiset.le_add_right, le_refl]

/-- A registration is taken back by the walk that was registered. -/
theorem LedgerStep.undeclared (ht : LedgerStep w c c') {p : Path} (hd : c.1.graph.hasDeclaration p = true)
    (hd' : c'.1.graph.hasDeclaration p = false) :
    ∃ e ∈ c.2, ∃ x, e.stage.registers? = some x ∧ e.stage.open? = some x ∧ x.Same p ∧
      c'.1.isValid x = false ∧ c'.2.registrations + {x} ≤ c.2.registrations := by
  cases ht with
  | note ha => rw [ha.graph, hd] at hd'; cases hd'
  | register _ _ => simp [hd] at hd'
  | link _ => simp [hd] at hd'
  | enter _ => simp [hd] at hd'
  | @unreadable s M o x registered fault _ =>
      simp only at hd
      cases registered with
      | false => simp [hd] at hd'
      | true =>
          refine ⟨⟨o, .reading x true⟩, by simp, x, rfl, rfl, by simpa [hd] using hd', ?_, ?_⟩
          · simp [Path.Same.refl]
          · simp [Stage.registers?]
  | @fail s M N o x registered e _ _ _ =>
      simp only at hd
      cases registered with
      | false => simp [hd] at hd'
      | true =>
          refine ⟨⟨o, .walking x true⟩, by simp, x, rfl, rfl, by simpa [hd] using hd', ?_, ?_⟩
          · simp [Path.Same.refl]
          · simp only [Ledger.registrations_add, Ledger.registrations_singleton, Stage.registers?,
              Option.elim_none, Option.elim_some, add_zero]
            exact add_le_add le_rfl (Multiset.le_add_right _ _)
  | _ => exact absurd (hd.symm.trans hd') (by simp)

theorem LedgerStep.calls_back (ht : LedgerStep w c c') (h : Orderly w s₀ roots c.1 c.2) {e : Post} {x : Path}
    (he : e ∈ c'.2) (ho : e.owner = none) (hx : e.stage.Calls x) :
    c'.2 = c.2 ∨ e ∈ c.2 ∧ 1 < c.2.card := by
  -- a post that is there besides the ones that the step takes away
  have hrest : ∀ {M N : Ledger}, e ∈ M → 0 < N.card → e ∈ M + N ∧ 1 < (M + N).card := by
    intro M N he hN
    have hM : 0 < M.card := Multiset.card_pos_iff_exists_mem.mpr ⟨e, he⟩
    rw [Multiset.card_add]
    exact ⟨Multiset.mem_add.mpr (.inl he), by omega⟩
  cases ht with
  | note _ => exact .inl rfl
  | @register s M o f y t hk hd =>
      rcases Multiset.mem_add.mp he with he | he
      · exact .inr (hrest he (by simp))
      · obtain rfl := Multiset.mem_singleton.mp he
        obtain ⟨ho', -⟩ := h.sensible ⟨o, .seeking f t (.ok y)⟩ (by simp)
        cases ho.symm.trans ho'
  | @link s M o f y t hk =>
      rcases Multiset.mem_add.mp he with he | he
      · exact .inr (hrest he (by simp))
      · obtain rfl := Multiset.mem_singleton.mp he
        obtain ⟨ho', -⟩ := h.sensible ⟨o, .seeking f t (.ok y)⟩ (by simp)
        cases ho.symm.trans ho'
  | enter _ =>
      rcases Multiset.mem_add.mp he with he | he
      · exact .inr (hrest he (by simp))
      · obtain rfl := Multiset.mem_singleton.mp he
        simp only at hx
        split at hx <;> exact hx.elim
  | scan _ =>
      rcases Multiset.mem_add.mp he with he | he
      · exact .inr (hrest he (by simp))
      · rcases Multiset.mem_add.mp he with he | he
        · obtain rfl := Multiset.mem_singleton.mp he
          exact hx.elim
        · obtain ⟨t, -, rfl⟩ := mem_seekers.mp he
          exact hx.elim
  | _ =>
      rcases Multiset.mem_add.mp he with he | he
      · exact .inr (hrest he (by simp))
      · obtain rfl := Multiset.mem_singleton.mp he
        exact hx.elim

/-! ## Registrations in the check of one root -/

section

variable (w) (s₀)

structure Registered (r : Path) (s : Session) (M : Ledger) : Prop where
  asked : ∀ e ∈ M, e.owner = none → ∀ x, e.stage.Calls x → M.card = 1
  posts : ∀ x ∈ M.registrations, s.graph.hasDeclaration x = true
  unique : M.registrations.Nodup
  complete : ∀ f ∈ s₀.walkedSince s, ∀ t ∈ s₀.specifiers w f, ∀ x, w.resolve f t = .ok x →
    x.kind = .declaration → s.graph.hasDeclaration x = true ∨ M.Awaits f t ∨
      x ∈ s₀.walkedSince s ∧ s.isValid x = false ∧ x ≠ r
  marked : ∀ x ∈ s₀.walkedSince s, x.kind = .declaration → x ≠ r → s.isValid x = true →
    s.graph.hasDeclaration x = true

end

variable {r : Path}

/-- A walk that belongs to another one is not that of the root, which is still open. -/
theorem Registered.ne_root {s : Session} {M : Ledger} (h : Registered w s₀ r s M)
    (ho : Orderly w s₀ [r] s M) (hover : ¬M.Overrun) {e : Post} (he : e ∈ M) (hown : e.owner ≠ none)
    {x : Path} (hx : e.stage.open? = some x) : x ≠ r := by
  have hroot : ∃ e' ∈ M, e'.owner = none ∧ ¬e'.stage.Closed := by
    by_contra hn
    push Not at hn
    exact hover ⟨hn, e, he, hown⟩
  obtain ⟨e', he', hnone, hclosed⟩ := hroot
  have hsense := ho.sensible e' he'
  have hchecks := ho.tidy.checks e' he'
  have hopen : ∀ y registered, Aimed w s₀ [r] none y registered → e'.stage.open? = some y → x ≠ r := by
    rintro y registered ⟨hy, -⟩ hy' rfl
    obtain rfl := List.mem_singleton.mp hy
    exact hown (ho.tidy.eq_of_open he he' hx hy' ▸ hnone)
  simp only [Post.Sensible, hnone] at hsense
  cases hs : e'.stage with
  | calling y registered =>
      have hcard := h.asked e' he' hnone y (by simp [hs, Stage.Calls])
      obtain ⟨a, rfl⟩ := Multiset.card_eq_one.mp hcard
      obtain rfl := Multiset.mem_singleton.mp he
      obtain rfl := Multiset.mem_singleton.mp he'
      exact absurd hnone hown
  | seeking f t answer =>
      rw [hs] at hsense
      cases hsense.1
  | reading y registered =>
      rw [hs] at hsense
      exact hopen y registered hsense (by simp [hs, Stage.open?])
  | scanning y registered =>
      rw [hs] at hsense
      exact hopen y registered hsense (by simp [hs, Stage.open?])
  | walking y registered =>
      rw [hs] at hsense
      exact hopen y registered hsense (by simp [hs, Stage.open?])
  | passed => simp [hs, Stage.Closed] at hclosed
  | failed e => simp [hs, Stage.Closed] at hclosed
  | foreign => exact absurd hs hchecks

/-- What is registered is aimed at by another file, which makes it a declaration. -/
theorem Orderly.aimed_of_registers {s : Session} {M : Ledger} (h : Orderly w s₀ roots s M) {e : Post}
    (he : e ∈ M) {x : Path} (hx : e.stage.registers? = some x) : Aimed w s₀ roots e.owner x true := by
  have hsense := h.sensible e he
  unfold Stage.registers? at hx
  split at hx <;> simp_all [Post.Sensible]

theorem Aimed.owner_ne_none {o : Option Path} {x : Path} (h : Aimed w s₀ roots o x true) : o ≠ none := by
  rintro rfl
  cases h.2

/-- A declaration other than the root is checked for being registered. -/
theorem Registered.declared_after_enter (h : Registered w s₀ r c.1 c.2) (ho : Orderly w s₀ [r] c.1 c.2)
    {x : Path} (henter : LedgerStep.Enters c c' x) (hk : x.kind = .declaration) (hr : x ≠ r) :
    c'.1.graph.hasDeclaration x = true := by
  rw [henter.session, Session.hasDeclaration_enter]
  obtain ⟨o, registered, hm⟩ := henter.called
  have haim : Aimed w s₀ [r] o x registered := ho.sensible _ hm
  cases registered with
  | true => exact h.posts x (Ledger.mem_registrations.mpr ⟨_, hm, rfl⟩)
  | false =>
      exfalso
      cases o with
      | none => exact hr (List.mem_singleton.mp haim.1)
      | some f =>
          obtain ⟨-, -, ⟨hs, -⟩ | ⟨-, hreg, -⟩⟩ := haim
          · rw [hk] at hs
            cases hs
          · cases hreg

/-- A registration that is taken back belongs to a walk of a file other than the root. -/
theorem Registered.lost_step {p : Path} (h : Registered w s₀ r c.1 c.2) (ht : LedgerStep w c c')
    (ha : s₀.SpelledAlike w [r]) (ho : Orderly w s₀ [r] c.1 c.2) (hover : ¬c'.2.Overrun) (hp : s₀.Met w [r] p)
    (hd : c.1.graph.hasDeclaration p = true) (hd' : c'.1.graph.hasDeclaration p = false) :
    p ∈ s₀.walkedSince c.1 ∧ c'.1.isValid p = false ∧ p ≠ r ∧ c'.2.registrations + {p} ≤ c.2.registrations := by
  have hover₀ : ¬c.2.Overrun := fun hn => hover (ht.overrun hn)
  obtain ⟨e, he, x, hreg, hopen, hs, hv, hle⟩ := ht.undeclared hd hd'
  have hx := ho.walked x (Ledger.mem_opens.mpr ⟨e, he, hopen⟩)
  obtain rfl := ho.eq_of_same ha hx hp hs
  exact ⟨hx, hv, h.ne_root ho hover₀ he (ho.aimed_of_registers he hreg).owner_ne_none hopen, hle⟩

theorem Registered.asked_step {e : Post} {x : Path} (h : Registered w s₀ r c.1 c.2) (ht : LedgerStep w c c')
    (ho : Orderly w s₀ [r] c.1 c.2) (he : e ∈ c'.2) (hnone : e.owner = none) (hx : e.stage.Calls x) :
    c'.2.card = 1 := by
  rcases ht.calls_back ho he hnone hx with heq | ⟨he, hcard⟩
  · rw [heq] at he ⊢
    exact h.asked e he hnone x hx
  · rw [h.asked e he hnone x hx] at hcard
    omega

theorem Registered.posts_step {x : Path} (h : Registered w s₀ r c.1 c.2) (ht : LedgerStep w c c')
    (ha : s₀.SpelledAlike w [r]) (ho : Orderly w s₀ [r] c.1 c.2) (hover : ¬c'.2.Overrun)
    (hx : x ∈ c'.2.registrations) : c'.1.graph.hasDeclaration x = true := by
  obtain ⟨e, he, hreg⟩ := Ledger.mem_registrations.mp hx
  have hmet : s₀.Met w [r] x := ((ht.orderly ha ho).aimed_of_registers he hreg).met
  have hbefore : x ∈ c.2.registrations → c'.1.graph.hasDeclaration x = true := by
    intro hx₀
    by_contra hn
    rw [Bool.not_eq_true] at hn
    obtain ⟨-, -, -, hle⟩ := h.lost_step ht ha ho hover hmet (h.posts x hx₀) hn
    have hnodup := Multiset.nodup_of_le hle h.unique
    rw [Multiset.nodup_add] at hnodup
    exact Multiset.disjoint_left.mp hnodup.2.2 hx (Multiset.mem_singleton_self x)
  rcases ht.registrations with hle | ⟨y, heq, -, hd'⟩
  · exact hbefore (Multiset.mem_of_le hle hx)
  · rw [heq, Multiset.mem_add, Multiset.mem_singleton] at hx
    rcases hx with hx | rfl
    · exact hbefore hx
    · exact hd'

theorem Registered.unique_step (h : Registered w s₀ r c.1 c.2) (ht : LedgerStep w c c') : c'.2.registrations.Nodup := by
  rcases ht.registrations with hle | ⟨y, heq, hd, -⟩
  · exact Multiset.nodup_of_le hle h.unique
  · rw [heq, Multiset.nodup_add]
    refine ⟨h.unique, Multiset.nodup_singleton y, Multiset.disjoint_singleton.mpr fun hy => ?_⟩
    rw [h.posts y hy] at hd
    cases hd

theorem Registered.complete_step {f x : Path} {t : String} (h : Registered w s₀ r c.1 c.2) (ht : LedgerStep w c c')
    (ha : s₀.SpelledAlike w [r]) (ho : Orderly w s₀ [r] c.1 c.2) (hover : ¬c'.2.Overrun)
    (hf : f ∈ s₀.walkedSince c'.1) (hm : t ∈ s₀.specifiers w f) (hr : w.resolve f t = .ok x)
    (hk : x.kind = .declaration) : c'.1.graph.hasDeclaration x = true ∨ c'.2.Awaits f t ∨
      x ∈ s₀.walkedSince c'.1 ∧ c'.1.isValid x = false ∧ x ≠ r := by
  rcases ht.walked_before ho hf with hf | hnew
  · have hx : s₀.Met w [r] x := (ho.reached f hf).target_met (Session.mem_targets.mpr ⟨t, hm, hr⟩)
    rcases h.complete f hf t hm x hr hk with hd | hawait | ⟨hw, hv, hne⟩
    · cases hd' : c'.1.graph.hasDeclaration x with
      | true => exact .inl rfl
      | false =>
          obtain ⟨hw, hv, hne, -⟩ := h.lost_step ht ha ho hover hx hd hd'
          exact .inr (.inr ⟨ht.mem_walkedSince ho hw, hv, hne⟩)
    · rcases ht.awaits_or_followed ho hm hr hawait with hawait | hfollow
      · exact .inr (.inl hawait)
      · simp only [Followed, hk] at hfollow
        exact .inl hfollow.1
    · cases hv' : c'.1.isValid x with
      | false => exact .inr (.inr ⟨ht.mem_walkedSince ho hw, rfl, hne⟩)
      | true =>
          rcases ht.valid_or_enters ha ho hx hv' with hv₀ | henter
          · rw [hv] at hv₀
            cases hv₀
          · exact .inl (h.declared_after_enter ho henter hk hne)
  · exact .inr (.inl (hnew t))

theorem Registered.marked_step {x : Path} (h : Registered w s₀ r c.1 c.2) (ht : LedgerStep w c c')
    (ha : s₀.SpelledAlike w [r]) (ho : Orderly w s₀ [r] c.1 c.2) (hover : ¬c'.2.Overrun)
    (hx : x ∈ s₀.walkedSince c'.1) (hk : x.kind = .declaration) (hne : x ≠ r) (hv : c'.1.isValid x = true) :
    c'.1.graph.hasDeclaration x = true := by
  have hmet : s₀.Met w [r] x := (ht.orderly ha ho).met_of_walked hx
  have hbefore : x ∈ s₀.walkedSince c.1 → c'.1.graph.hasDeclaration x = true := by
    intro hx₀
    rcases ht.valid_or_enters ha ho hmet hv with hv₀ | henter
    · have hd := h.marked x hx₀ hk hne hv₀
      by_contra hd'
      obtain ⟨-, hn, -⟩ := h.lost_step ht ha ho hover hmet hd (Bool.not_eq_true _ ▸ hd')
      rw [hv] at hn
      cases hn
    · exact h.declared_after_enter ho henter hk hne
  rcases ht.walkedSince ho with hw | ⟨y, henter, hw⟩
  · exact hbefore (hw ▸ hx)
  · rw [hw, List.mem_append, List.mem_singleton] at hx
    rcases hx with hx | rfl
    · exact hbefore hx
    · exact h.declared_after_enter ho henter hk hne

theorem LedgerStep.registered (ht : LedgerStep w c c') (ha : s₀.SpelledAlike w [r]) (ho : Orderly w s₀ [r] c.1 c.2)
    (hover : ¬c'.2.Overrun) (h : Registered w s₀ r c.1 c.2) : Registered w s₀ r c'.1 c'.2 where
  asked := fun _ he hnone _ => h.asked_step ht ho he hnone
  posts := fun _ => h.posts_step ht ha ho hover
  unique := h.unique_step ht
  complete := fun _ hf _ hm _ => h.complete_step ht ha ho hover hf hm
  marked := fun _ => h.marked_step ht ha ho hover

theorem registered_asked (w : Surroundings) (s : Session) (r : Path) :
    Registered w s r s (.asked [r]) := by
  have hw : s.walkedSince s = [] := by simp [Session.walkedSince]
  have hreg : (Ledger.asked [r]).registrations = 0 := Ledger.registrations_of_none fun e he => by
    obtain ⟨r, -, rfl⟩ := Ledger.mem_asked.mp he
    rfl
  constructor
  case asked => simp [Ledger.asked]
  case posts => simp [hreg]
  case unique => simp [hreg]
  case complete => simp [hw]
  case marked => simp [hw]

end ImportCheck
