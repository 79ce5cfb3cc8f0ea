import ImportCheck.Proofs.Walk.Effect

/-!
# Open walks

A file that is being walked is valid and walked once at a time, and the parts of a walk stay with it: no
post belongs to a file that is not being walked.
-/

namespace ImportCheck

structure Tidy (s : Session) (M : Ledger) : Prop where
  distinct : (M.opens.map Path.components).Nodup
  valid : ∀ x ∈ M.opens, s.isValid x = true
  owned : ∀ e ∈ M, ∀ f, e.owner = some f → ∃ e' ∈ M, ∃ registered, e'.stage = .walking f registered
  apart : ∀ e ∈ M, ∀ x, e.stage.open? = some x → e.owner ≠ some x
  checks : ∀ e ∈ M, e.stage ≠ .foreign

namespace Tidy

variable {s s' : Session} {M N : Ledger} {o : Option Path} {g g' : Stage} {x : Path} {registered : Bool}

theorem not_same (h : Tidy s (M + N)) {x y : Path} (hx : x ∈ M.opens) (hy : y ∈ N.opens) :
    ¬y.Same x := by
  have hd := h.distinct
  rw [Ledger.opens_add, Multiset.map_add, Multiset.nodup_add] at hd
  intro hs
  exact Multiset.disjoint_left.mp hd.2.2 (Multiset.mem_map_of_mem _ hx)
    (hs ▸ Multiset.mem_map_of_mem _ hy)

theorem eq_of_open (h : Tidy s M) {e e' : Post} (he : e ∈ M) (he' : e' ∈ M)
    (hx : e.stage.open? = some x) (hx' : e'.stage.open? = some x) : e = e' := by
  obtain ⟨N, rfl⟩ := Multiset.exists_cons_of_mem he
  rcases Multiset.mem_cons.mp he' with rfl | he'
  · rfl
  · rw [← Multiset.singleton_add, add_comm] at h
    have hn : x ∈ Ledger.opens N := Ledger.mem_opens.mpr ⟨e', he', hx'⟩
    exact absurd (Path.Same.refl x) (h.not_same hn (Ledger.mem_opens.mpr ⟨e, by simp, hx⟩))

theorem owner_open (h : Tidy s M) {e : Post} (he : e ∈ M) {f : Path} (ho : e.owner = some f) :
    f ∈ M.opens := by
  obtain ⟨e', he', registered, hs⟩ := h.owned e he f ho
  exact Ledger.mem_opens.mpr ⟨e', he', by simp [hs, Stage.open?]⟩

theorem owner_valid (h : Tidy s M) {e : Post} (he : e ∈ M) {f : Path} (ho : e.owner = some f) :
    s.isValid f = true := h.valid f (h.owner_open he ho)

/-- The same open walks, with the same owners: the rest of a post may change. -/
theorem of_opens_eq (h : Tidy s (M + N)) {N' : Ledger} (hv : ∀ p, s.isValid p = true → s'.isValid p = true)
    (ho : N'.opens = N.opens)
    (hk : ∀ e ∈ N, ∀ f registered, e.stage = .walking f registered →
      ∃ e' ∈ N', ∃ registered', e'.stage = .walking f registered')
    (hn : ∀ e ∈ N', ∀ f, e.owner = some f →
      (∃ e ∈ N, e.owner = some f) ∨ ∃ e ∈ N', ∃ registered, e.stage = .walking f registered)
    (ha : ∀ e ∈ N', ∀ x, e.stage.open? = some x → ∃ e' ∈ N, e'.stage.open? = some x ∧ e'.owner = e.owner)
    (hc : ∀ e ∈ N', e.stage ≠ .foreign) : Tidy s' (M + N') := by
  have hheld : ∀ e ∈ M + N, ∀ f, e.owner = some f →
      ∃ e' ∈ M + N', ∃ registered, e'.stage = .walking f registered := by
    intro e he f hf
    obtain ⟨e', he', registered, hs⟩ := h.owned e he f hf
    rcases Multiset.mem_add.mp he' with he' | he'
    · exact ⟨e', Multiset.mem_add.mpr (.inl he'), registered, hs⟩
    · obtain ⟨e', he', r, hs⟩ := hk e' he' f registered hs
      exact ⟨e', Multiset.mem_add.mpr (.inr he'), r, hs⟩
  refine ⟨?_, ?_, ?_, ?_, ?_⟩
  · rw [Ledger.opens_add, ho, ← Ledger.opens_add]
    exact h.distinct
  · intro x hx
    rw [Ledger.opens_add, ho, ← Ledger.opens_add] at hx
    exact hv x (h.valid x hx)
  · intro e he f hf
    rcases Multiset.mem_add.mp he with he | he
    · exact hheld e (Multiset.mem_add.mpr (.inl he)) f hf
    · rcases hn e he f hf with ⟨e', he', hf'⟩ | ⟨e', he', hw⟩
      · exact hheld e' (Multiset.mem_add.mpr (.inr he')) f hf'
      · exact ⟨e', Multiset.mem_add.mpr (.inr he'), hw⟩
  · intro e he x hx
    rcases Multiset.mem_add.mp he with he | he
    · exact h.apart e (Multiset.mem_add.mpr (.inl he)) x hx
    · obtain ⟨e', he', hx', ho'⟩ := ha e he x hx
      rw [← ho']
      exact h.apart e' (Multiset.mem_add.mpr (.inr he')) x hx'
  · intro e he
    rcases Multiset.mem_add.mp he with he | he
    · exact h.checks e (Multiset.mem_add.mpr (.inl he))
    · exact hc e he

/-- One post makes way for another that has the same file open, or nothing as before. -/
theorem of_post (h : Tidy s (M + {⟨o, g⟩})) (hv : ∀ p, s.isValid p = true → s'.isValid p = true)
    (ho : g'.open? = g.open?) (hw : ∀ f registered, g ≠ .walking f registered) (hf : g' ≠ .foreign) :
    Tidy s' (M + {⟨o, g'⟩}) := by
  refine h.of_opens_eq hv (by simp [ho]) ?_ ?_ ?_ ?_
  · intro e he f registered hs
    obtain rfl := Multiset.mem_singleton.mp he
    exact absurd hs (hw f registered)
  · simp only [Ledger.forall_singleton]
    exact fun f hf => .inl ⟨_, Multiset.mem_singleton_self _, hf⟩
  · simp only [Ledger.forall_singleton, Ledger.exists_singleton, and_true]
    exact fun x hx => ho ▸ hx
  · simpa using hf

theorem of_enter (h : Tidy s (M + {⟨o, .calling x registered⟩})) (hv : s.isValid x = false)
    (hg : g.open? = some x) (hf : g ≠ .foreign) : Tidy (s.enter x) (M + {⟨o, g⟩}) := by
  have hvalid : ∀ y ∈ M.opens, s.isValid y = true := fun y hy =>
    h.valid y (by rw [Ledger.opens_add]; exact Multiset.mem_add.mpr (.inl hy))
  refine ⟨?_, ?_, ?_, ?_, ?_⟩
  · have hd := h.distinct
    simp only [Ledger.opens_add, Ledger.opens_singleton, Stage.open?, Option.elim_none, add_zero] at hd
    simp only [Ledger.opens_add, Ledger.opens_singleton, hg, Option.elim_some, Multiset.map_add,
      Multiset.map_singleton, Multiset.nodup_add]
    refine ⟨hd, Multiset.nodup_singleton _, Multiset.disjoint_singleton.mpr fun hx => ?_⟩
    obtain ⟨y, hy, hs⟩ := Multiset.mem_map.mp hx
    have := hvalid y hy
    rw [s.isValid_congr hs, hv] at this
    cases this
  · intro y hy
    rw [Session.isValid_enter]
    rw [Ledger.opens_add, Ledger.opens_singleton, hg] at hy
    rcases Multiset.mem_add.mp hy with hy | hy
    · simp [hvalid y hy]
    · obtain rfl := Multiset.mem_singleton.mp hy
      simp [Path.Same.refl]
  · have howned := h.owned
    simp only [Ledger.exists_add, Ledger.exists_singleton, Ledger.forall_add, Ledger.forall_singleton,
      reduceCtorEq, exists_false, or_false] at howned ⊢
    exact ⟨fun e he f hf => .inl (howned.1 e he f hf), fun f hf => .inl (howned.2 f hf)⟩
  · have hapart := h.apart
    simp only [Ledger.forall_add, Ledger.forall_singleton] at hapart ⊢
    refine ⟨hapart.1, fun y hy ho => ?_⟩
    obtain rfl : x = y := by simpa [hg] using hy
    have := h.owner_valid (e := ⟨o, .calling x registered⟩) (by simp) ho
    rw [hv] at this
    cases this
  · have hchecks := h.checks
    simp only [Ledger.forall_add, Ledger.forall_singleton] at hchecks ⊢
    exact ⟨hchecks.1, hf⟩

theorem of_end (h : Tidy s (M + ({⟨o, g⟩} + N))) (hg : g.open? = some x)
    (hm : ∀ e ∈ M, e.owner ≠ some x) (hn : ∀ e ∈ N, e.owner = some x ∧ e.stage.Closed)
    (hv : ∀ p, ¬x.Same p → s.isValid p = true → s'.isValid p = true) (hc : g'.Closed) :
    Tidy s' (M + {⟨o, g'⟩}) := by
  have hN : N.opens = 0 := Ledger.opens_of_closed fun e he => (hn e he).2
  have hg' : g'.open? = none := by cases g' <;> simp_all [Stage.Closed, Stage.open?]
  have hopens : (M + ({⟨o, g⟩} + N)).opens = M.opens + {x} := by
    simp only [Ledger.opens_add, Ledger.opens_singleton, hN, hg, Option.elim_some, add_zero]
  refine ⟨?_, ?_, ?_, ?_, ?_⟩
  · have hd := h.distinct
    rw [hopens, Multiset.map_add, Multiset.nodup_add] at hd
    simpa [hg'] using hd.1
  · intro y hy
    have hy' : y ∈ M.opens := by simpa [hg'] using hy
    have hx : x ∈ Ledger.opens ({⟨o, g⟩} + N) :=
      Ledger.mem_opens.mpr ⟨⟨o, g⟩, Multiset.mem_add.mpr (.inl (Multiset.mem_singleton_self _)), hg⟩
    refine hv y (h.not_same hy' hx) (h.valid y ?_)
    rw [hopens]
    exact Multiset.mem_add.mpr (.inl hy')
  · -- who owns a post of the rest is not the file whose walk has ended
    have hheld : ∀ e ∈ M + ({⟨o, g⟩} + N), ∀ f, f ≠ x → e.owner = some f →
        ∃ e' ∈ M + {⟨o, g'⟩}, ∃ registered, e'.stage = .walking f registered := by
      intro e he f hne hf
      obtain ⟨e', he', registered, hs⟩ := h.owned e he f hf
      rcases Multiset.mem_add.mp he' with he' | he'
      · exact ⟨e', Multiset.mem_add.mpr (.inl he'), registered, hs⟩
      · exfalso
        rcases Multiset.mem_add.mp he' with he' | he'
        · obtain rfl := Multiset.mem_singleton.mp he'
          simp only at hs
          rw [hs] at hg
          exact hne (by simpa [Stage.open?] using hg)
        · have := (hn e' he').2
          rw [hs] at this
          exact this
    intro e he f hf
    rcases Multiset.mem_add.mp he with he | he
    · exact hheld e (Multiset.mem_add.mpr (.inl he)) f (fun hx => hm e he (hx ▸ hf)) hf
    · obtain rfl := Multiset.mem_singleton.mp he
      refine hheld ⟨o, g⟩ (by simp) f ?_ hf
      rintro rfl
      exact h.apart ⟨o, g⟩ (by simp) f hg hf
  · have hapart := h.apart
    simp only [Ledger.forall_add, Ledger.forall_singleton, hg', reduceCtorEq, false_imp_iff,
      implies_true, and_true] at hapart ⊢
    exact hapart.1
  · have hchecks := h.checks
    simp only [Ledger.forall_add, Ledger.forall_singleton] at hchecks ⊢
    refine ⟨hchecks.1, ?_⟩
    rintro rfl
    exact hc

theorem of_alike (h : Tidy s M) (ha : s.Alike s') : Tidy s' M :=
  ⟨h.distinct, fun x hx => by rw [ha.isValid_eq]; exact h.valid x hx, h.owned, h.apart, h.checks⟩

theorem owner_ne (h : Tidy s (M + {⟨o, g⟩})) (hg : g.open? = some x)
    (hw : ∀ f registered, g ≠ .walking f registered) : ∀ e ∈ M, e.owner ≠ some x := by
  intro e he hx
  obtain ⟨e', he', registered, hs⟩ := h.owned e (Multiset.mem_add.mpr (.inl he)) x hx
  rcases Multiset.mem_add.mp he' with he' | he'
  · exact h.not_same (Ledger.mem_opens.mpr ⟨e', he', by simp [hs, Stage.open?]⟩) (by simp [hg])
      (Path.Same.refl x)
  · obtain rfl := Multiset.mem_singleton.mp he'
    exact hw _ _ hs

end Tidy

theorem LedgerStep.tidy {w : Surroundings} {c c' : Session × Ledger} (ht : LedgerStep w c c') (h : Tidy c.1 c.2) :
    Tidy c'.1 c'.2 := by
  cases ht with
  | note ha => exact h.of_alike ha
  | unresolved => exact h.of_post (fun _ => id) rfl (by simp) (by simp)
  | compiled _ => exact h.of_post (fun _ => id) rfl (by simp) (by simp)
  | known _ _ => exact h.of_post (fun _ => id) rfl (by simp) (by simp)
  | register _ _ => exact h.of_post (fun _ => id) rfl (by simp) (by simp)
  | link _ => exact h.of_post (fun _ => id) rfl (by simp) (by simp)
  | trust _ => exact h.of_post (fun _ => id) rfl (by simp) (by simp)
  | enter hv =>
      refine h.of_enter hv ?_ ?_
      · split <;> rfl
      · split <;> simp
  | unreadable _ =>
      have hm := h.owner_ne rfl (by simp)
      rw [← add_zero {_}] at h
      exact h.of_end rfl hm (by simp) (fun p hp hv => by simp [hp, hv]) trivial
  | store _ => exact h.of_post (fun _ => id) rfl (by simp) (by simp)
  | @scan s M o x registered found _ =>
      have hopens : Ledger.opens ({⟨o, .walking x registered⟩} + w.seekers x (found.map (·.text))) =
          Ledger.opens {⟨o, .scanning x registered⟩} := by
        rw [Ledger.opens_add, opens_seekers, add_zero, Ledger.opens_singleton, Ledger.opens_singleton]
        rfl
      refine h.of_opens_eq (fun _ => id) hopens (by simp) ?_ ?_ ?_
      · intro e he f hf
        rcases Multiset.mem_add.mp he with he | he
        · obtain rfl := Multiset.mem_singleton.mp he
          exact .inl ⟨_, Multiset.mem_singleton_self _, hf⟩
        · obtain ⟨t, -, rfl⟩ := mem_seekers.mp he
          obtain rfl : x = f := by simpa using hf
          exact .inr ⟨_, Multiset.mem_add.mpr (.inl (Multiset.mem_singleton_self _)), registered, rfl⟩
      · intro e he y hy
        rcases Multiset.mem_add.mp he with he | he
        · obtain rfl := Multiset.mem_singleton.mp he
          exact ⟨_, Multiset.mem_singleton_self _, hy, rfl⟩
        · obtain ⟨t, -, rfl⟩ := mem_seekers.mp he
          simp [Stage.open?] at hy
      · intro e he
        rcases Multiset.mem_add.mp he with he | he
        · obtain rfl := Multiset.mem_singleton.mp he
          simp
        · obtain ⟨t, -, rfl⟩ := mem_seekers.mp he
          simp
  | succeed hm hn =>
      exact h.of_end rfl hm (fun e he => ⟨(hn e he).1, by simp [(hn e he).2, Stage.Closed]⟩)
        (fun p _ hv => hv) trivial
  | fail hm hn _ => exact h.of_end rfl hm hn (fun p hp hv => by simp [hp, hv]) trivial

theorem LedgerSteps.tidy {w : Surroundings} {c c' : Session × Ledger} (ht : LedgerSteps w c c')
    (h : Tidy c.1 c.2) : Tidy c'.1 c'.2 := by
  induction ht with
  | refl => exact h
  | tail _ ht ih => exact ht.tidy ih

end ImportCheck
