import ImportCheck.Proofs.Walk.Tidy
import Mathlib.Algebra.BigOperators.Group.List.Basic

/-!
# Work as steps on the ledger

Working at a task does nothing but what steps on the ledger do to the session and to the ledger of the task, whichever
leaf is worked at. What holds of all those steps holds of all runs.
-/

namespace ImportCheck

namespace Task

/-! ## One of several parts -/

section

variable {M : Type} [AddCommMonoid M] (g : Task → M) {ts : List Task} {i : Nat} {part : Task}

theorem sum_map_eq (h : ts[i]? = some part) : (ts.map g).sum = ((ts.eraseIdx i).map g).sum + g part := by
  obtain ⟨hi, rfl⟩ := List.getElem?_eq_some_iff.mp h
  have hsum := List.CommMonoid.add_sum_eraseIdx (l := ts.map g) (by simpa using hi)
  rw [← hsum, List.eraseIdx_map, List.getElem_map, add_comm]

theorem sum_map_set (h : ts[i]? = some part) (t : Task) :
    ((ts.set i t).map g).sum = ((ts.eraseIdx i).map g).sum + g t := by
  obtain ⟨hi, -⟩ := List.getElem?_eq_some_iff.mp h
  rw [sum_map_eq g (show (ts.set i t)[i]? = some t by simp [hi]), List.eraseIdx_set_eq]

variable {g} in
/-- Parts that are done count for nothing. -/
theorem sum_map_of_outcome (hg : ∀ o, g (done o) = 0) (h : ts.all (·.outcome?.isSome) = true) :
    (ts.map g).sum = 0 := by
  refine List.sum_eq_zero fun x hx => ?_
  obtain ⟨t, ht, rfl⟩ := List.mem_map.mp hx
  have hdone := List.all_eq_true.mp h t ht
  cases t with
  | done o => exact hg o
  | _ => cases hdone

end

/-! ## Posts of tasks -/

variable {w : Surroundings}

theorem mem_postsOf {o : Option Path} {ts : List Task} {e : Post} :
    e ∈ postsOf w o ts ↔ ∃ t ∈ ts, e ∈ posts w o t := by
  induction ts with
  | nil => simp [postsOf]
  | cons t ts ih => simp [postsOf, ih]

theorem postsOf_starts (f : Path) (specifiers : List String) :
    postsOf w (some f) (specifiers.map fun t => start (.follow f t)) = w.seekers f specifiers := by
  induction specifiers with
  | nil => rfl
  | cons t ts ih =>
      simp only [List.map_cons, postsOf, posts, ih, Surroundings.seekers]
      rfl

theorem postsOf_eq_sum (o : Option Path) (ts : List Task) : postsOf w o ts = (ts.map (posts w o)).sum := by
  induction ts with
  | nil => rfl
  | cons t ts ih => simp [postsOf, ih]

theorem postsOf_eq {o : Option Path} {ts : List Task} {i : Nat} {part : Task} (h : ts[i]? = some part) :
    postsOf w o ts = postsOf w o (ts.eraseIdx i) + posts w o part := by
  simp only [postsOf_eq_sum, ← sum_map_eq _ h]

theorem postsOf_set {o : Option Path} {ts : List Task} {i : Nat} {part : Task} (h : ts[i]? = some part)
    (t : Task) : postsOf w o (ts.set i t) = postsOf w o (ts.eraseIdx i) + posts w o t := by
  simp only [postsOf_eq_sum, sum_map_set _ h]

mutual
/-- A part belongs to what the whole belongs to, or to an open walk in it. -/
theorem owner_of_mem_posts {o : Option Path} {e : Post} : (t : Task) → e ∈ posts w o t →
    e.owner = o ∨ ∃ f ∈ (posts w o t).opens, e.owner = some f
  | start request, he => by
      left
      cases request <;> simp_all [posts]
  | reading f goal due, he => by
      left
      cases goal <;> simp_all [posts]
  | resolving f t c rest goal due, he => by
      left
      cases goal <;> simp_all [posts]
  | done outcome, he => by
      left
      cases outcome <;> simp_all [posts]
  | group parts, he => by
      simp only [posts] at he ⊢
      exact owner_of_mem_postsOf parts he
  | walk f registered parts, he => by
      simp only [posts, Ledger.opens_add, Ledger.opens_singleton, Stage.open?, Option.elim_some,
        Multiset.mem_add, Multiset.mem_singleton] at he ⊢
      rcases he with rfl | he
      · exact .inl rfl
      · rcases owner_of_mem_postsOf parts he with h | ⟨g, hg, h⟩
        · exact .inr ⟨f, .inl rfl, h⟩
        · exact .inr ⟨g, .inr hg, h⟩

theorem owner_of_mem_postsOf {o : Option Path} {e : Post} : (ts : List Task) → e ∈ postsOf w o ts →
    e.owner = o ∨ ∃ f ∈ (postsOf w o ts).opens, e.owner = some f
  | [], he => by simp [postsOf] at he
  | t :: ts, he => by
      simp only [postsOf, Ledger.opens_add, Multiset.mem_add] at he ⊢
      rcases he with he | he
      · exact (owner_of_mem_posts t he).imp id fun ⟨f, hf, h⟩ => ⟨f, .inl hf, h⟩
      · exact (owner_of_mem_postsOf ts he).imp id fun ⟨f, hf, h⟩ => ⟨f, .inr hf, h⟩
end

/-! ## Work as steps on the ledger -/

theorem firstFailure?_eq_some {parts : List Task} {e : Failure} (h : firstFailure? parts = some e) :
    done (.error e) ∈ parts := by
  obtain ⟨t, ht, he⟩ := List.exists_of_findSome?_eq_some h
  cases t with
  | done o =>
      cases o with
      | ok a => simp at he
      | error e' =>
          obtain rfl : e' = e := by simpa using he
          exact ht
  | _ => simp at he

theorem firstFailure?_eq_none {parts : List Task} (h : firstFailure? parts = none) {e : Failure} :
    done (.error e) ∉ parts := by
  intro hm
  have := List.findSome?_eq_none_iff.mp h _ hm
  simp at this

theorem stage_of_outcome {o : Option Path} {t : Task} (h : t.outcome?.isSome = true) {e : Post}
    (he : e ∈ posts w o t) :
    e.owner = o ∧ (e.stage = .passed ∨ ∃ e', e.stage = .failed e' ∧ t = done (.error e')) := by
  cases t with
  | done outcome =>
      cases outcome with
      | ok a =>
          obtain rfl : e = ⟨o, .passed⟩ := by simpa [posts] using he
          exact ⟨rfl, .inl rfl⟩
      | error e' =>
          obtain rfl : e = ⟨o, .failed e'⟩ := by simpa [posts] using he
          exact ⟨rfl, .inr ⟨e', rfl, rfl⟩⟩
  | _ => simp [outcome?] at h

theorem ledgerSteps_failWalk (s : Session) (f : Path) (registered : Bool) (e : Failure) (M : Ledger)
    (o : Option Path) {c : Session × Ledger} (h : LedgerStep w c (s.drop f registered, M + {⟨o, .failed e⟩})) :
    LedgerSteps w c ((failWalk s f registered e).1, M + posts w o (failWalk s f registered e).2) := by
  refine .tail (.single h) (.note ?_)
  cases registered with
  | false => exact Session.alike_report _ _
  | true => exact Session.alike_report _ _

theorem ledgerSteps_settle (s : Session) (f : Path) (registered : Bool) (parts : List Task) {M : Ledger}
    (o : Option Path) (hm : ∀ e ∈ M, e.owner ≠ some f) :
    LedgerSteps w (s, M + ({⟨o, .walking f registered⟩} + postsOf w (some f) parts))
      ((settle s f registered parts).1, M + posts w o (settle s f registered parts).2) := by
  unfold settle
  split
  · next hall =>
    rw [List.all_eq_true] at hall
    have hstage : ∀ e ∈ postsOf w (some f) parts, e.owner = some f ∧
        (e.stage = .passed ∨ ∃ e', e.stage = .failed e' ∧ done (.error e') ∈ parts) := by
      intro e he
      obtain ⟨t, ht, he⟩ := mem_postsOf.mp he
      obtain ⟨ho, h⟩ := stage_of_outcome (hall t ht) he
      exact ⟨ho, h.imp id fun ⟨e', hs, heq⟩ => ⟨e', hs, heq ▸ ht⟩⟩
    split
    · next e hfirst =>
      have hdone := firstFailure?_eq_some hfirst
      refine ledgerSteps_failWalk s f registered e M o (.fail hm (fun e he => ⟨(hstage e he).1, ?_⟩) ?_)
      · rcases (hstage e he).2 with h | ⟨e', h, -⟩ <;> simp [h, Stage.Closed]
      · exact ⟨⟨some f, .failed e⟩, mem_postsOf.mpr ⟨_, hdone, by simp [posts]⟩, rfl⟩
    · next hfirst =>
      refine .single (.succeed hm fun e he => ⟨(hstage e he).1, ?_⟩)
      rcases (hstage e he).2 with h | ⟨e', -, hdone⟩
      · exact h
      · exact absurd hdone (firstFailure?_eq_none hfirst)
  · exact .refl

theorem ledgerSteps_scan {s : Session} {f : Path} (hs : s.isTracked f = true) (registered : Bool)
    {M : Ledger} (o : Option Path) (hm : ∀ e ∈ M, e.owner ≠ some f) :
    LedgerSteps w (s, M + {⟨o, .scanning f registered⟩})
      ((scan s f registered).1, M + posts w o (scan s f registered).2) := by
  obtain ⟨found, hf, halike⟩ := Session.findImports_of_tracked hs
  have hscan : scan s f registered =
      settle ((s.findImports f).1.report (.checking f (found.map (·.text)).length)) f registered
        ((found.map (·.text)).map fun t => start (.follow f t)) := by
    unfold scan
    cases h : s.findImports f with
    | mk s' r =>
        rw [h] at hf
        subst hf
        rfl
  have hnote := halike.trans (Session.alike_report _ (.checking f (found.map (·.text)).length))
  rw [hscan]
  refine .head (.scan hf) (.head (.note hnote) ?_)
  rw [← postsOf_starts]
  exact ledgerSteps_settle _ _ _ _ _ hm

variable (now : Nat)

theorem check_eq (s : Session) (f : Path) (registered : Bool) :
    check w now s f registered =
      if s.isValid f then (s.report (.alreadyValid f), done (.ok .unit))
      else if s.isTracked f then scan (s.enter f) f registered
      else startReading w now (s.enter f) f (.walk registered) := rfl

theorem ledgerSteps_check {s : Session} (f : Path) (registered : Bool) {M : Ledger} (o : Option Path)
    (hm : ∀ e ∈ M, ∀ g, e.owner = some g → s.isValid g = true) :
    LedgerSteps w (s, M + {⟨o, .calling f registered⟩})
      ((check w now s f registered).1, M + posts w o (check w now s f registered).2) := by
  rw [check_eq]
  by_cases hv : s.isValid f = true
  · rw [if_pos hv]
    exact .head (.trust hv) (.single (.note (s.alike_report _)))
  · rw [if_neg hv]
    rw [Bool.not_eq_true] at hv
    refine .head (.enter hv) ?_
    by_cases ht : s.isTracked f = true
    · rw [if_pos ht, if_pos ht]
      have ht' : (s.enter f).isTracked f = true := ht
      refine ledgerSteps_scan ht' registered o fun e he hf => ?_
      rw [hm e he f hf] at hv
      cases hv
    · rw [if_neg ht, if_neg ht]
      exact .single (.note (Session.alike_record _ rfl))

theorem reach_follow (s : Session) (f : Path) (t : String) (x : Path) :
    reach w now s f t .follow x =
      match x.kind with
      | .declaration =>
        if s.graph.hasDeclaration x = false then
          check w now ((s.report (.resolved f t x)).register x) x true
        else ((s.report (.resolved f t x)).register x, done (.ok .unit))
      | .compiled => ((s.report (.resolved f t x)).report (.compiledSkipped f x), done (.ok .unit))
      | .source => check w now (((s.report (.resolved f t x)).link f x).report (.linked f x)) x false := by
  unfold reach
  simp only
  cases x.kind with
  | declaration =>
      cases h : s.graph.hasDeclaration x <;>
        simp [DependencyGraph.addDeclaration, Session.report, Session.record, Session.register,
          show s.graph.declarations.contains x = _ from h]
  | compiled => rfl
  | source => rfl

theorem ledgerSteps_reach {s : Session} (f : Path) (t : String) (x : Path) {M : Ledger} (o : Option Path)
    (hm : ∀ e ∈ M, ∀ g, e.owner = some g → s.isValid g = true) :
    LedgerSteps w (s, M + {⟨o, .seeking f t (.ok x)⟩})
      ((reach w now s f t .follow x).1, M + posts w o (reach w now s f t .follow x).2) := by
  rw [reach_follow]
  refine .head (.note (s.alike_report (.resolved f t x))) ?_
  have hd : (s.report (.resolved f t x)).graph.hasDeclaration x = s.graph.hasDeclaration x := rfl
  cases hk : x.kind with
  | declaration =>
      simp only
      split
      · next h => exact .head (.register hk (hd.trans h)) (ledgerSteps_check now x true o hm)
      · next h =>
        rw [Bool.not_eq_false] at h
        have hr : (s.report (.resolved f t x)).register x = s.report (.resolved f t x) := by
          have ha : s.graph.declarations.add x = s.graph.declarations := PathSet.add_of_contains h
          simp only [Session.register, DependencyGraph.addDeclaration, Session.report, Session.record, ha]
        rw [hr]
        exact .single (.known hk (hd.trans h))
  | compiled => exact .head (.compiled hk) (.single (.note (Session.alike_report _ _)))
  | source =>
      exact .head (.link hk) (.head (.note (Session.alike_report _ (.linked f x)))
        (ledgerSteps_check now x false o hm))

theorem ledgerSteps_startResolving {s : Session} (f : Path) (t : String) {M : Ledger} (o : Option Path)
    (hm : ∀ e ∈ M, ∀ g, e.owner = some g → s.isValid g = true) :
    LedgerSteps w (s, M + {⟨o, .seeking f t (w.resolve f t)⟩})
      ((startResolving w now s f t .follow).1, M + posts w o (startResolving w now s f t .follow).2) := by
  unfold startResolving Surroundings.resolve
  cases Specifier.direct? t with
  | some x => exact ledgerSteps_reach now f t x o hm
  | none => exact .single (.note (Session.alike_record _ rfl))

theorem ledgerSteps_finishCall {s : Session} (f : Path) (t c : String) (rest : List String) {M : Ledger}
    (o : Option Path) (hm : ∀ e ∈ M, ∀ g, e.owner = some g → s.isValid g = true) :
    LedgerSteps w (s, M + {⟨o, .seeking f t (w.resolver.first f.directory c rest)⟩})
      ((finishCall w now s f t c rest .follow).1,
        M + posts w o (finishCall w now s f t c rest .follow).2) := by
  unfold finishCall
  simp only
  have ha := s.alike_reportAll (w.resolver.answer f.directory c).reports
  refine .head (.note ha) ?_
  cases hr : (w.resolver.answer f.directory c).result with
  | ok x =>
      have hfirst : w.resolver.first f.directory c rest = .ok x := by
        cases rest <;> simp [Resolver.first, hr]
      rw [hfirst]
      exact ledgerSteps_reach now f t x o fun e he g hg => (ha.isValid_eq g).trans (hm e he g hg)
  | error cause =>
      cases rest with
      | nil =>
          rw [show w.resolver.first f.directory c [] = .error cause from hr]
          exact .single .unresolved
      | cons next rest =>
          have hfirst : w.resolver.first f.directory c (next :: rest) =
              w.resolver.first f.directory next rest := by
            simp [Resolver.first, hr]
          rw [hfirst]
          exact .single (.note (Session.alike_record _ rfl))

theorem ledgerSteps_finishReading (s : Session) (f : Path) (registered : Bool) {M : Ledger}
    (o : Option Path) (hm : ∀ e ∈ M, e.owner ≠ some f) :
    LedgerSteps w (s, M + {⟨o, .reading f registered⟩})
      ((finishReading w s f (.walk registered)).1,
        M + posts w o (finishReading w s f (.walk registered)).2) := by
  unfold finishReading
  cases hr : w.disk.read f with
  | error fault => exact ledgerSteps_failWalk s f registered _ M o (.unreadable hr)
  | ok text =>
      have ht : (storeRead s f text false).1.isTracked f = true := by
        have h := FileStore.contains_update s.files f text false f
        rw [decide_eq_true (Path.Same.refl f), Bool.true_or] at h
        exact h
      exact .head (.store hr) (.head (.note (Session.alike_report _ _)) (ledgerSteps_scan ht registered o hm))

theorem ledgerSteps_leaf {s : Session} {t : Task} {M : Ledger} {o : Option Path} (place : List Nat)
    (h : Tidy s (M + posts w o t))
    (hw : ∀ f registered parts, t ≠ walk f registered parts) (hg : ∀ parts, t ≠ group parts) :
    LedgerSteps w (s, M + posts w o t)
      ((advance w now place s t).1, M + posts w o (advance w now place s t).2) := by
  have hm : ∀ e ∈ M, ∀ f, e.owner = some f → s.isValid f = true := fun e he f hf =>
    h.owner_valid (Multiset.mem_add.mpr (.inl he)) hf
  have hforeign : posts w o t ≠ {⟨o, .foreign⟩} := fun hp => h.checks ⟨o, .foreign⟩ (by simp [hp]) rfl
  cases t with
  | start request =>
      have hadvance : advance w now place s (start request) = begin w now s request := by
        cases place <;> rfl
      rw [hadvance]
      cases request with
      | check f => exact ledgerSteps_check now f false o hm
      | follow f t => exact ledgerSteps_startResolving now f t o hm
      | _ => exact absurd rfl hforeign
  | reading f goal due =>
      have hadvance : advance w now place s (reading f goal due) = finishReading w s f goal := by
        cases place <;> rfl
      rw [hadvance]
      cases goal with
      | walk registered => exact ledgerSteps_finishReading s f registered o (h.owner_ne rfl (by simp))
      | _ => exact absurd rfl hforeign
  | resolving f t c rest goal due =>
      have hadvance : advance w now place s (resolving f t c rest goal due) =
          finishCall w now s f t c rest goal := by
        cases place <;> rfl
      rw [hadvance]
      cases goal with
      | follow => exact ledgerSteps_finishCall now f t c rest o hm
      | deliver => exact absurd rfl hforeign
  | walk f registered parts => exact absurd rfl (hw f registered parts)
  | group parts => exact absurd rfl (hg parts)
  | done outcome =>
      have hadvance : advance w now place s (done outcome) = (s, done outcome) := by
        cases place <;> rfl
      rw [hadvance]

/-- If the owners in a ledger are open in it, and so is the owner of some parts, the same holds with the posts of the
parts. -/
theorem owner_mem_opens {M : Ledger} {o : Option Path} (parts : List Task)
    (hM : ∀ e ∈ M, ∀ f, e.owner = some f → f ∈ M.opens) (ho : ∀ f, o = some f → f ∈ M.opens) :
    ∀ e ∈ M + postsOf w o parts, ∀ f, e.owner = some f → f ∈ (M + postsOf w o parts).opens := by
  intro e he f hf
  rw [Ledger.opens_add, Multiset.mem_add]
  rcases Multiset.mem_add.mp he with he | he
  · exact .inl (hM e he f hf)
  · rcases owner_of_mem_postsOf parts he with h | ⟨g, hg, h⟩
    · exact .inl (ho f (h ▸ hf))
    · obtain rfl : g = f := by simpa [h] using hf
      exact .inr hg

theorem ledgerSteps_advance (place : List Nat) (s : Session) (t : Task) (M : Ledger) (o : Option Path)
    (h : Tidy s (M + posts w o t)) (hM : ∀ e ∈ M, ∀ f, e.owner = some f → f ∈ M.opens)
    (ho : ∀ f, o = some f → f ∈ M.opens) :
    LedgerSteps w (s, M + posts w o t)
      ((advance w now place s t).1, M + posts w o (advance w now place s t).2) := by
  induction place generalizing s t M o with
  | nil =>
      cases t with
      | walk f registered parts => exact .refl
      | group parts => exact .refl
      | _ => exact ledgerSteps_leaf now [] h (by simp) (by simp)
  | cons i rest ih =>
      cases t with
      | walk f registered parts =>
          cases hp : parts[i]? with
          | none =>
              simp only [advance, hp]
              exact .refl
          | some part =>
              have hparts : postsOf w (some f) parts =
                  postsOf w (some f) (parts.eraseIdx i) + posts w (some f) part := by
                rw [← postsOf_eq hp]
              simp only [posts, hparts, advance, hp, ← add_assoc] at h ⊢
              have hopen : f ∈ Ledger.opens (M + {⟨o, .walking f registered⟩}) := by
                simp [Stage.open?]
              have hwalk : ∀ e ∈ M + {⟨o, .walking f registered⟩}, ∀ g, e.owner = some g →
                  g ∈ Ledger.opens (M + {⟨o, .walking f registered⟩}) := by
                intro e he g hg
                rw [Ledger.opens_add, Multiset.mem_add]
                rcases Multiset.mem_add.mp he with he | he
                · exact .inl (hM e he g hg)
                · obtain rfl := Multiset.mem_singleton.mp he
                  exact .inl (ho g hg)
              have hrun := ih s part (M + {⟨o, .walking f registered⟩} + postsOf w (some f) (parts.eraseIdx i))
                (some f) h (owner_mem_opens _ hwalk (by rintro g ⟨⟩; exact hopen)) (by rintro g ⟨⟩; simp [Stage.open?])
              refine hrun.trans ?_
              have hs := ledgerSteps_settle (w := w) (advance w now rest s part).1 f registered
                (parts.set i (advance w now rest s part).2) (M := M) o ?_
              · simpa only [postsOf_set hp, ← add_assoc] using hs
              · -- the walk that is settled is open once, so that it owns nothing else
                intro e he hf
                have htidy := hrun.tidy h
                simp only [add_assoc] at htidy
                refine htidy.not_same (hM e he f hf) ?_ (Path.Same.refl f)
                exact Ledger.mem_opens.mpr ⟨_, Multiset.mem_add.mpr (.inl (Multiset.mem_singleton_self _)), rfl⟩
      | group parts =>
          cases hp : parts[i]? with
          | none =>
              simp only [advance, hp]
              exact .refl
          | some part =>
              have hparts : postsOf w o parts = postsOf w o (parts.eraseIdx i) + posts w o part := by
                rw [← postsOf_eq hp]
              simp only [posts, hparts, advance, hp, ← add_assoc] at h ⊢
              have hrun := ih s part (M + postsOf w o (parts.eraseIdx i)) o h (owner_mem_opens _ hM ho)
                fun g hg => by simp [ho g hg]
              simpa only [postsOf_set hp, ← add_assoc] using hrun
      | _ => exact ledgerSteps_leaf now (i :: rest) h (by simp) (by simp)

end Task

/-- A run of a task is a run of steps on its ledger. -/
theorem Task.Steps.ledgerSteps {w : Surroundings} {c c' : Session × Task} (h : Task.Steps w c c')
    (hc : Tidy c.1 (Task.posts w none c.2)) :
    LedgerSteps w (c.1, Task.posts w none c.2) (c'.1, Task.posts w none c'.2) := by
  induction h with
  | refl => exact .refl
  | @tail b _ _ hs ih =>
      obtain ⟨now, place, -, rfl⟩ := hs
      have h := Task.ledgerSteps_advance now place b.1 b.2 0 none (by simpa using ih.tidy hc) (by simp) (by simp)
      simp only [zero_add] at h
      exact ih.trans h

end ImportCheck
