import ImportCheck.Proofs.Walk.Orderly
import ImportCheck.Proofs.Walk.Simulation
import Mathlib.Data.Finset.Lattice.Fold
import Mathlib.Data.Set.Finite.Basic

/-!
# Checks come to an end

A walk may be repeated, since a failure takes its mark back, so that marks alone do not bound the work. What
does is the tree: along a branch the open files are different ones that are reached, so that a branch is no
longer than there are such files, and a file has only so many specifiers.
-/

namespace ImportCheck

/-- The steps that a check takes at most when `k` files can still be opened below it and none has more than
`m` specifiers. -/
def checkBound (m : Nat) : Nat → Nat
  | 0 => 1
  | k + 1 => 3 + m * (checkBound m k + 5)

theorem checkBound_pos (m k : Nat) : 0 < checkBound m k := by
  cases k with
  | zero => exact Nat.one_pos
  | succ k => simp only [checkBound]; omega

namespace Task

mutual
/-- The steps that are left to a task at most. -/
def stepBound (m k : Nat) : Task → Nat
  | start (.check _) => checkBound m k
  | start _ => checkBound m k + 5
  | reading .. => 2 + m * (checkBound m (k - 1) + 5)
  | resolving _ _ _ rest _ _ => rest.length + 1 + checkBound m k
  | walk _ _ parts => 1 + stepBoundOf m (k - 1) parts
  | group parts => stepBoundOf m k parts
  | done _ => 0

def stepBoundOf (m k : Nat) : List Task → Nat
  | [] => 0
  | t :: ts => stepBound m k t + stepBoundOf m k ts
end

variable {w : Surroundings} {s₀ : Session} {roots : List Path} {m k : Nat}

theorem stepBoundOf_starts (f : Path) (specifiers : List String) :
    stepBoundOf m k (specifiers.map fun t => start (.follow f t)) = specifiers.length * (checkBound m k + 5) := by
  induction specifiers with
  | nil => simp [stepBoundOf]
  | cons t ts ih =>
      simp only [List.map_cons, stepBoundOf, stepBound, ih, List.length_cons]
      rw [Nat.succ_mul, Nat.add_comm]

theorem stepBoundOf_set_lt {ts : List Task} {i : Nat} {t t' : Task} (h : ts[i]? = some t)
    (ht : t'.stepBound m k < t.stepBound m k) : stepBoundOf m k (ts.set i t') < stepBoundOf m k ts := by
  induction ts generalizing i with
  | nil => simp at h
  | cons u us ih =>
      cases i with
      | zero =>
          obtain rfl : u = t := by simpa using h
          simpa [stepBoundOf] using ht
      | succ i =>
          have := ih (by simpa using h)
          simpa [stepBoundOf] using this

theorem stepBound_settle (s : Session) (f : Path) (registered : Bool) (parts : List Task) :
    (settle s f registered parts).2.stepBound m k ≤ 1 + stepBoundOf m (k - 1) parts := by
  unfold settle
  split
  · split <;> simp [failWalk, stepBound]
  · simp [stepBound]

section

variable {s : Session} {M : Ledger} {o : Option Path}

theorem stepBound_scan {f : Path} {registered : Bool}
    (h : Orderly w s₀ roots s (M + {⟨o, .scanning f registered⟩}))
    (hm : (s₀.specifiers w f).length ≤ m) :
    (scan s f registered).2.stepBound m k ≤ 1 + m * (checkBound m (k - 1) + 5) := by
  have hs : s.isTracked f = true := h.tracked ⟨o, .scanning f registered⟩ (by simp) f registered (.inl rfl)
  obtain ⟨found, hf, -⟩ := Session.findImports_of_tracked hs
  have hscan : (scan s f registered).2.stepBound m k ≤ 1 + found.length * (checkBound m (k - 1) + 5) := by
    unfold scan
    cases hi : s.findImports f with
    | mk s' r =>
        obtain rfl : r = .ok found := by simpa [hi] using hf
        refine (stepBound_settle ..).trans ?_
        rw [stepBoundOf_starts, List.length_map]
  have hlength : found.length ≤ m := by
    rw [← h.found_eq hf, List.length_map] at hm
    exact hm
  exact hscan.trans (Nat.add_le_add_left (Nat.mul_le_mul_right _ hlength) 1)

variable (now : Nat)

theorem stepBound_check {f : Path} {registered : Bool}
    (h : Orderly w s₀ roots s (M + {⟨o, .calling f registered⟩}))
    (hm : ∀ f, s₀.Reached w roots f → (s₀.specifiers w f).length ≤ m)
    (hk : ∀ f, s₀.Reached w roots f → s.isValid f = false → 0 < k) :
    (check w now s f registered).2.stepBound m k < checkBound m k := by
  rw [check_eq]
  by_cases hv : s.isValid f = true
  · rw [if_pos hv]
    exact checkBound_pos m k
  · rw [if_neg hv]
    rw [Bool.not_eq_true] at hv
    have hf : s₀.Reached w roots f :=
      (h.sensible ⟨o, .calling f registered⟩ (by simp)).reached (h.not_valid_before hv)
    obtain ⟨k, rfl⟩ : ∃ k', k = k' + 1 := ⟨k - 1, by have := hk f hf hv; omega⟩
    have henter := h.of_enter hv
    by_cases ht : s.isTracked f = true
    · rw [if_pos ht] at henter ⊢
      have := stepBound_scan (k := k + 1) henter (hm f hf)
      simp only [Nat.add_sub_cancel] at this
      simp only [checkBound]
      omega
    · rw [if_neg ht]
      simp only [startReading, stepBound, checkBound, Nat.add_sub_cancel]
      omega

theorem stepBound_reach {f x : Path} {t : String}
    (h : Orderly w s₀ roots s (M + {⟨o, .seeking f t (.ok x)⟩})) (ha : s₀.SpelledAlike w roots)
    (hm : ∀ f, s₀.Reached w roots f → (s₀.specifiers w f).length ≤ m)
    (hk : ∀ f, s₀.Reached w roots f → s.isValid f = false → 0 < k) :
    (reach w now s f t .follow x).2.stepBound m k < 1 + checkBound m k := by
  have hnote := h.of_alike (s.alike_report (.resolved f t x))
  rw [reach_follow]
  cases hkind : x.kind with
  | declaration =>
      simp only
      split
      · next hd =>
        have hstep : LedgerStep w (s.report (.resolved f t x), M + {⟨o, .seeking f t (.ok x)⟩}) _ :=
          .register hkind hd
        exact (stepBound_check now (hstep.orderly ha hnote) hm hk).trans (by omega)
      · simp only [stepBound]
        omega
  | compiled =>
      simp only [stepBound]
      omega
  | source =>
      have hstep : LedgerStep w (s.report (.resolved f t x), M + {⟨o, .seeking f t (.ok x)⟩}) _ := .link hkind
      have hcalled := hstep.orderly ha hnote
      exact (stepBound_check now (hcalled.of_alike (Session.alike_report _ (.linked f x))) hm hk).trans (by omega)

theorem stepBound_startResolving {f : Path} {t : String}
    (h : Orderly w s₀ roots s (M + {⟨o, .seeking f t (w.resolve f t)⟩})) (ha : s₀.SpelledAlike w roots)
    (hm : ∀ f, s₀.Reached w roots f → (s₀.specifiers w f).length ≤ m)
    (hk : ∀ f, s₀.Reached w roots f → s.isValid f = false → 0 < k) :
    (startResolving w now s f t .follow).2.stepBound m k < checkBound m k + 5 := by
  unfold startResolving
  unfold Surroundings.resolve at h
  cases hd : Specifier.direct? t with
  | some x =>
      simp only [hd] at h
      have := stepBound_reach now h ha hm hk
      simp only
      omega
  | none =>
      have hlength : (Specifier.candidates t).2.length ≤ 2 := by
        unfold Specifier.candidates
        split <;> simp
      simp only [call, stepBound]
      omega

theorem stepBound_finishCall {f : Path} {t c : String} {rest : List String}
    (h : Orderly w s₀ roots s (M + {⟨o, .seeking f t (w.resolver.first f.directory c rest)⟩}))
    (ha : s₀.SpelledAlike w roots) (hm : ∀ f, s₀.Reached w roots f → (s₀.specifiers w f).length ≤ m)
    (hk : ∀ f, s₀.Reached w roots f → s.isValid f = false → 0 < k) :
    (finishCall w now s f t c rest .follow).2.stepBound m k < rest.length + 1 + checkBound m k := by
  unfold finishCall
  have halike := s.alike_reportAll (w.resolver.answer f.directory c).reports
  simp only
  cases hr : (w.resolver.answer f.directory c).result with
  | ok x =>
      have hfirst : w.resolver.first f.directory c rest = .ok x := by
        cases rest <;> simp [Resolver.first, hr]
      rw [hfirst] at h
      have := stepBound_reach now (h.of_alike halike) ha hm fun g hg hv =>
        hk g hg ((halike.isValid_eq g).symm.trans hv)
      simp only
      omega
  | error cause =>
      cases rest with
      | nil =>
          simp only [stepBound, List.length_nil]
          omega
      | cons next rest =>
          simp only [call, stepBound, List.length_cons]
          omega

theorem stepBound_finishReading {f : Path} {registered : Bool}
    (h : Orderly w s₀ roots s (M + {⟨o, .reading f registered⟩})) (ha : s₀.SpelledAlike w roots)
    (hm : ∀ f, s₀.Reached w roots f → (s₀.specifiers w f).length ≤ m) :
    (finishReading w s f (.walk registered)).2.stepBound m k < 2 + m * (checkBound m (k - 1) + 5) := by
  have hf : s₀.Reached w roots f := h.reached f (h.walked f (by simp [Stage.open?]))
  unfold finishReading
  cases hr : w.disk.read f with
  | error fault =>
      simp only [failWalk, stepBound]
      omega
  | ok text =>
      have hstored := (LedgerStep.store (w := w) hr).orderly ha h
      have := stepBound_scan (k := k)
        (hstored.of_alike (Session.alike_report _ (.fileRead f (s.updateFile f text false).2))) (hm f hf)
      exact lt_of_le_of_lt this (by omega)

theorem stepBound_leaf {t : Task} (place : List Nat) (h : Orderly w s₀ roots s (M + posts w o t))
    (ha : s₀.SpelledAlike w roots) (hm : ∀ f, s₀.Reached w roots f → (s₀.specifiers w f).length ≤ m)
    (hk : ∀ f, s₀.Reached w roots f → s.isValid f = false → 0 < k)
    (hw : ∀ f registered parts, t ≠ walk f registered parts) (hg : ∀ parts, t ≠ group parts)
    (hd : ∀ outcome, t ≠ done outcome) : (advance w now place s t).2.stepBound m k < t.stepBound m k := by
  have hforeign : posts w o t ≠ {⟨o, .foreign⟩} := fun hp =>
    h.tidy.checks ⟨o, .foreign⟩ (by simp [hp]) rfl
  cases t with
  | start request =>
      have hadvance : advance w now place s (start request) = begin w now s request := by
        cases place <;> rfl
      rw [hadvance]
      cases request with
      | check f => exact stepBound_check now h hm hk
      | follow f t => exact stepBound_startResolving now h ha hm hk
      | _ => exact absurd rfl hforeign
  | reading f goal due =>
      have hadvance : advance w now place s (reading f goal due) = finishReading w s f goal := by
        cases place <;> rfl
      rw [hadvance]
      cases goal with
      | walk registered => exact stepBound_finishReading h ha hm
      | _ => exact absurd rfl hforeign
  | resolving f t c rest goal due =>
      have hadvance : advance w now place s (resolving f t c rest goal due) =
          finishCall w now s f t c rest goal := by
        cases place <;> rfl
      rw [hadvance]
      cases goal with
      | follow => exact stepBound_finishCall now h ha hm hk
      | deliver => exact absurd rfl hforeign
  | walk f registered parts => exact absurd rfl (hw f registered parts)
  | group parts => exact absurd rfl (hg parts)
  | done outcome => exact absurd rfl (hd outcome)

/-- A file that can still be opened is not on the chain of open ones, so that there is room for it. -/
theorem room {M N : Ledger} {reached chain : Finset Path} (h : Orderly w s₀ roots s (M + N))
    (hr : ∀ f, s₀.Reached w roots f → f ∈ reached) (hc : ∀ f ∈ chain, f ∈ M.opens)
    (hk : k + chain.card = reached.card) {f : Path} (hf : s₀.Reached w roots f) (hn : f ∉ chain) :
    0 < k := by
  have hchain : ∀ g ∈ chain, g ∈ reached := fun g hg =>
    hr g (h.reached g (h.walked g (by simp [hc g hg])))
  have : chain.card < reached.card :=
    Finset.card_lt_card ⟨hchain, fun hsub => hn (hsub (hr f hf))⟩
  omega

theorem room_of_not_valid {M N : Ledger} {reached chain : Finset Path}
    (h : Orderly w s₀ roots s (M + N)) (hr : ∀ f, s₀.Reached w roots f → f ∈ reached)
    (hc : ∀ f ∈ chain, f ∈ M.opens) (hk : k + chain.card = reached.card) :
    ∀ f, s₀.Reached w roots f → s.isValid f = false → 0 < k := by
  intro f hf hv
  refine room h hr hc hk hf fun hn => ?_
  rw [h.tidy.valid f (by simp [hc f hn])] at hv
  cases hv

theorem stepBound_advance (place : List Nat) (s : Session) (t : Task) (M : Ledger) (o : Option Path) (k : Nat)
    (chain : Finset Path) {reached : Finset Path} (h : Orderly w s₀ roots s (M + posts w o t))
    (ha : s₀.SpelledAlike w roots) (hm : ∀ f, s₀.Reached w roots f → (s₀.specifiers w f).length ≤ m)
    (hr : ∀ f, s₀.Reached w roots f → f ∈ reached) (hc : ∀ f ∈ chain, f ∈ M.opens)
    (hk : k + chain.card = reached.card) (hp : t.waitsAt place = true) :
    (advance w now place s t).2.stepBound m k < t.stepBound m k := by
  induction place generalizing s t M o k chain with
  | nil =>
      cases t with
      | walk f registered parts => simp [waitsAt] at hp
      | group parts => simp [waitsAt] at hp
      | done outcome => simp [waitsAt] at hp
      | _ => exact stepBound_leaf now [] h ha hm (room_of_not_valid h hr hc hk) (by simp) (by simp) (by simp)
  | cons i rest ih =>
      cases t with
      | done outcome => simp [waitsAt] at hp
      | walk f registered parts =>
          cases hi : parts[i]? with
          | none => simp [waitsAt, hi] at hp
          | some part =>
              have hparts : postsOf w (some f) parts =
                  postsOf w (some f) (parts.eraseIdx i) + posts w (some f) part := by
                rw [← postsOf_eq hi]
              have hf : f ∈ (M + posts w o (walk f registered parts)).opens :=
                Ledger.mem_opens.mpr ⟨⟨o, .walking f registered⟩, by simp [posts], rfl⟩
              have hn : f ∉ chain := fun hf' =>
                h.tidy.not_same (hc f hf')
                  (Ledger.mem_opens.mpr ⟨⟨o, .walking f registered⟩, by simp [posts], rfl⟩) (Path.Same.refl f)
              have hpos : 0 < k := room h hr hc hk (h.reached f (h.walked f hf)) hn
              have hlt := ih s part
                (M + {⟨o, .walking f registered⟩} + postsOf w (some f) (parts.eraseIdx i)) (some f)
                (k - 1) (Finset.cons f chain hn)
                (by simpa only [posts, hparts, ← add_assoc] using h) ?_ ?_ (by simpa [waitsAt, hi] using hp)
              · simp only [advance, hi]
                refine lt_of_le_of_lt (stepBound_settle ..) ?_
                simp only [stepBound]
                exact Nat.add_lt_add_left (stepBoundOf_set_lt hi hlt) 1
              · intro g hg
                simp only [Ledger.opens_add, Ledger.opens_singleton, Stage.open?, Option.elim_some,
                  Multiset.mem_add, Multiset.mem_singleton]
                rcases Finset.mem_cons.mp hg with rfl | hg
                · exact .inl (.inr rfl)
                · exact .inl (.inl (hc g hg))
              · rw [Finset.card_cons]
                omega
      | group parts =>
          cases hi : parts[i]? with
          | none => simp [waitsAt, hi] at hp
          | some part =>
              have hparts : postsOf w o parts = postsOf w o (parts.eraseIdx i) + posts w o part := by
                rw [← postsOf_eq hi]
              have hlt := ih s part (M + postsOf w o (parts.eraseIdx i)) o k chain
                (by simpa only [posts, hparts, ← add_assoc] using h) ?_ hk (by simpa [waitsAt, hi] using hp)
              · simp only [advance, hi, stepBound]
                exact stepBoundOf_set_lt hi hlt
              · intro g hg
                rw [Ledger.opens_add]
                exact Multiset.mem_add.mpr (.inl (hc g hg))
      | _ => exact stepBound_leaf now (i :: rest) h ha hm (room_of_not_valid h hr hc hk) (by simp) (by simp) (by simp)

end

section

variable {t : Task} {s : Session} {c : Session × Task}

theorem exists_specifiers_le (hfin : {f | s₀.Reached w roots f}.Finite) :
    ∃ m, ∀ f, s₀.Reached w roots f → (s₀.specifiers w f).length ≤ m :=
  ⟨hfin.toFinset.sup fun f => (s₀.specifiers w f).length, fun _ hf =>
    Finset.le_sup (f := fun f => (s₀.specifiers w f).length) (hfin.mem_toFinset.mpr hf)⟩

theorem Step.orderly (hs : Step w (s, t) c) (h : Orderly w s₀ roots s (posts w none t))
    (ha : s₀.SpelledAlike w roots) : Orderly w s₀ roots c.1 (posts w none c.2) :=
  LedgerSteps.orderly (Steps.ledgerSteps (.single hs) h.tidy) ha h

/-- Each step lowers the stepBound, as long as every file that is met is one of finitely many. -/
theorem Step.stepBound_lt {m : Nat} (hs : Step w (s, t) c) (h : Orderly w s₀ roots s (posts w none t))
    (ha : s₀.SpelledAlike w roots) (hm : ∀ f, s₀.Reached w roots f → (s₀.specifiers w f).length ≤ m)
    (hfin : {f | s₀.Reached w roots f}.Finite) :
    c.2.stepBound m hfin.toFinset.card < t.stepBound m hfin.toFinset.card := by
  obtain ⟨now, place, hplace, rfl⟩ := hs
  exact stepBound_advance now place s t 0 none hfin.toFinset.card ∅ (by simpa using h) ha hm
    (fun _ hf => hfin.mem_toFinset.mpr hf) (by simp) (by simp) hplace

/-- Whatever the order in which reads and answers come back, the work comes to an end when the files that
are reached are finitely many. -/
theorem returns_of_finite (h : Orderly w s₀ roots s (posts w none t))
    (hsettled : t.Settled) (ha : s₀.SpelledAlike w roots) (hfin : {f | s₀.Reached w roots f}.Finite) :
    Returns w (fun _ _ => True) (s, t) := by
  obtain ⟨m, hm⟩ := exists_specifiers_le hfin
  induction hn : t.stepBound m hfin.toFinset.card using Nat.strong_induction_on generalizing s t with
  | _ n ih =>
      cases ho : t.outcome? with
      | some outcome =>
          obtain ⟨o, rfl⟩ : ∃ o, t = done o := by cases t <;> simp_all [outcome?]
          exact .done trivial
      | none =>
          refine .work (hsettled.exists_step w (c := (s, t)) ho) fun c' hstep => ?_
          have hsettled' := hsettled.step (c := (s, t)) hstep
          exact ih _ (hn ▸ hstep.stepBound_lt h ha hm hfin) (hstep.orderly h ha) hsettled' rfl

end

end Task

end ImportCheck
