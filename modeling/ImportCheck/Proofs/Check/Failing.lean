import ImportCheck.Proofs.Check.Closure
import ImportCheck.Proofs.Check.Footprint
import ImportCheck.Proofs.Walk.Course

/-!
# A check that fails

The failure that a check returns is the one that was raised at some file, and it comes up unchanged by way of files
that are not valid in the end. At each of them it is the first failure in the order of the text, although the
other parts go on after it and files that have failed may be walked again.
-/

namespace ImportCheck

variable {w : Surroundings} {s s' : Session} {root : Path}

/-! ## Where a failure is raised -/

theorem Resolver.first_eq_error {r : Resolver} {d : Path} {c : String} {rest : List String}
    {cause : ResolverFault} (h : r.first d c rest = .error cause) :
    (∀ c' ∈ c :: rest, (r.answer d c').result.isOk = false) ∧
      (r.answer d ((c :: rest).getLast (List.cons_ne_nil c rest))).result = .error cause := by
  induction rest generalizing c with
  | nil =>
      have h : (r.answer d c).result = .error cause := h
      simp [h, Except.isOk, Except.toBool]
  | cons next rest ih =>
      unfold first at h
      split at h
      · cases h
      · next e he =>
        obtain ⟨hall, hlast⟩ := ih h
        refine ⟨fun c' hc => ?_, by simpa using hlast⟩
        rcases List.mem_cons.mp hc with rfl | hc
        · simp [he, Except.isOk, Except.toBool]
        · exact hall c' hc

theorem Surroundings.resolve_eq_error {f : Path} {t : String} {cause : ResolverFault}
    (h : w.resolve f t = .error cause) : Specifier.direct? t = none ∧
      (∀ c ∈ (Specifier.candidates t).1 :: (Specifier.candidates t).2,
        (w.resolver.answer f.directory c).result.isOk = false) ∧
      (w.resolver.answer f.directory
        (((Specifier.candidates t).1 :: (Specifier.candidates t).2).getLast (List.cons_ne_nil _ _))).result =
          .error cause := by
  unfold resolve at h
  split at h
  · cases h
  · next hd => exact ⟨hd, Resolver.first_eq_error h⟩

/-- The failure is raised at the file: none of the candidates for one of its specifiers is found, and what the
resolver says of the last one is the cause; or the file is not tracked and cannot be read. -/
def Session.RaisedAt (s : Session) (w : Surroundings) (s' : Session) (g : Path) (e : Failure) : Prop :=
  (∃ t ∈ s.specifiers w g, ∃ cause, Specifier.direct? t = none ∧
    (∀ c ∈ (Specifier.candidates t).1 :: (Specifier.candidates t).2,
      (w.resolver.answer g.directory c).result.isOk = false) ∧
    (w.resolver.answer g.directory
      (((Specifier.candidates t).1 :: (Specifier.candidates t).2).getLast (List.cons_ne_nil _ _))).result =
        .error cause ∧
    e = .resolution g cause ∧ e.message = cause.message ++ "\n    Required in " ++ g.toString) ∨
  ∃ fault, s.isTracked g = false ∧ s'.isTracked g = false ∧ w.disk.read g = .error fault ∧ e = .io g fault

namespace Course

/-- The failure that comes out is that of the first part that fails. -/
theorem firstFailure?_eq_some_iff {cs : List Course} {e : Failure} : firstFailure? cs = some e ↔
    ∃ before c after, cs = before ++ c :: after ∧ (∀ b ∈ before, b.failure? = none) ∧ c.failure? = some e := by
  induction cs with
  | nil => simp [firstFailure?]
  | cons c cs ih =>
      rw [firstFailure?, Option.or_eq_some_iff, ih]
      constructor
      · rintro (h | ⟨hc, before, c', after, rfl, hb, he⟩)
        · exact ⟨[], c, cs, rfl, by simp, h⟩
        · exact ⟨c :: before, c', after, rfl, by simpa [hc] using hb, he⟩
      · rintro ⟨before, c', after, heq, hb, he⟩
        cases before with
        | nil =>
            cases heq
            exact .inl he
        | cons b before =>
            cases heq
            exact .inr ⟨hb c (by simp), before, c', after, rfl, fun b hm => hb b (by simp [hm]), he⟩

theorem endings_le_endingsOf {c : Course} {cs : List Course} (h : c ∈ cs) : c.endings ≤ endingsOf cs := by
  induction cs with
  | nil => simp at h
  | cons c' cs ih =>
      rw [endingsOf]
      rcases List.mem_cons.mp h with rfl | h
      · exact Multiset.le_add_right _ _
      · exact (ih h).trans (Multiset.le_add_left _ _)

/-- A failure is never made up on the way: a specifier without a target or a file without a text is at its
start, and a walk of that file ended with it. -/
theorem Fits.origin {r : Request} {c : Course} (h : c.Fits s w r) {e : Failure} (he : c.failure? = some e) :
    (∃ g t cause, e = .resolution g cause ∧ w.resolve g t = .error cause ∧
      (r = .follow g t ∨ t ∈ s.specifiers w g ∧ ∃ o, (g, o) ∈ c.endings)) ∨
    ∃ g fault, e = .io g fault ∧ s.isTracked g = false ∧ w.disk.read g = .error fault ∧
      ∃ o, (g, o) ∈ c.endings := by
  induction h with
  | @unresolved f t cause hr =>
      cases he
      exact .inl ⟨f, t, cause, rfl, hr, .inl rfl⟩
  | passed _ => cases he
  | target _ _ _ ih =>
      rcases ih he with ⟨g, t, cause, rfl, hr, h | h⟩ | h
      · cases h
      · exact .inl ⟨g, t, cause, rfl, hr, .inr h⟩
      · exact .inr h
  | trusted => cases he
  | @unread x fault hu hr =>
      cases he
      exact .inr ⟨x, fault, rfl, hu, hr, _, Multiset.mem_singleton_self _⟩
  | @walked x parts hl hp ih =>
      obtain ⟨before, c, after, heq, -, he⟩ := firstFailure?_eq_some_iff.mp he
      have hc : c ∈ parts := by simp [heq]
      clear heq
      obtain ⟨i, hi, rfl⟩ := List.mem_iff_getElem.mp hc
      have hi' : i < (s.specifiers w x).length := hl ▸ hi
      have hzip : ((s.specifiers w x)[i], parts[i]) ∈ (s.specifiers w x).zip parts :=
        List.mem_iff_getElem.mpr ⟨i, by simp [hi, hi'], by simp⟩
      have hmem : ∀ {a}, a ∈ parts[i].endings → a ∈ (Course.walked x parts).endings := fun ha => by
        rw [endings]
        exact Multiset.mem_add.mpr (.inl (Multiset.mem_of_le (endings_le_endingsOf hc) ha))
      rcases ih _ hzip he with ⟨g, t, cause, rfl, hr, h | ⟨ht, o, ho⟩⟩ | ⟨g, fault, rfl, hu, hr, o, ho⟩
      · cases h
        exact .inl ⟨x, _, cause, rfl, hr, .inr ⟨List.getElem_mem hi',
          outcomeOf (firstFailure? parts), by simp [endings]⟩⟩
      · exact .inl ⟨g, t, cause, rfl, hr, .inr ⟨ht, o, hmem ho⟩⟩
      · exact .inr ⟨g, fault, rfl, hu, hr, o, hmem ho⟩

end Course

/-! ## The run -/

theorem Task.Steps.faithful {t : Task} (hs : Task.Steps w (s, .start (.check root)) (s', t))
    (ha : s.SpelledAlike w [root]) : Faithful s w [root] s'.bare := by
  have hsteps := hs.ledgerSteps (Task.posts_start_check (w := w) root ▸ tidy_asked s [root])
  rw [Task.posts_start_check] at hsteps
  have h := hsteps.orderly ha (orderly_asked w s [root])
  constructor
  case known =>
      intro x hx
      have hbare : s'.KnowAlike s'.bare w x := by
        apply Session.knowAlike_of_same_parts <;> rfl
      exact (h.known x (.inl hx)).trans hbare
  case valid => exact h.valid_old
  case declared => exact h.declared_old
  case tracked => exact fun x hx => hsteps.tracked hx

theorem Runs.tells {h : History} {t : Task} (hr : Runs (s, .start (.check root)) h (s', t))
    (ha : s.SpelledAlike w [root]) (hw : ∀ m ∈ h, m.around = w) :
    Tells s w [root] (.check root) t ↑h.endings := by
  generalize hc : (s', t) = c at hr
  induction hr generalizing s' t with
  | rest =>
      cases hc
      exact .check (by simp)
  | @step h m hr hp ih =>
      have hbefore : ∀ m' ∈ h, m'.around = w := fun m' hm => hw m' (by simp [hm])
      have hm : m.around = w := hw m (by simp)
      have htells := ih hbefore rfl
      have hwatched := hr.watched (asks_check root)
      have hstep := htells.advance m.now ((hr.steps hbefore).faithful ha)
        (fun x hx => (hwatched.kept.awaited x hx).2) hwatched.checking hp
      have hendings : History.endings (h ++ [m]) = h.endings ++ m.endings := by simp [History.endings]
      rw [hendings, ← Multiset.coe_add, Moment.endings, hm]
      rw [Moment.after, hm] at hc
      rw [← hc] at hstep
      exact hstep

theorem Stranded.chain {x : Path} (h : Stranded w s root s' x) (hx : s'.isValid x = false) :
    s'.isValid root = false ∧ Relation.ReflTransGen
      (fun f y => s.Imports w f y ∧ s'.isValid f = false ∧ s'.isValid y = false) root x := by
  induction h with
  | root => exact ⟨hx, .refl⟩
  | link _ _ hv hmem hk _ ih =>
      obtain ⟨hroot, hchain⟩ := ih hv
      exact ⟨hroot, hchain.tail ⟨⟨hmem, hk⟩, hv, hx⟩⟩

/-- What becomes of a check that fails. Its failure comes out of a course in which every walk follows all
specifiers of its file and fails with the first failure among them, and the walks of the course, with their
outcomes, are those of the run. The failure is the one that was raised at a walked file, and it comes from there
by a chain of imports along which no file is valid. In the end, a walked file is valid if and only if its last
walk succeeded. -/
theorem check_failure (s : Session) (w : Surroundings) (root : Path) (ha : s.SpelledAlike w [root])
    {h : History} {s' : Session} {e : Failure} (hr : Runs (s, .start (.check root)) h (s', .done (.error e)))
    (hw : ∀ m ∈ h, m.around = w) :
    (∃ c : Course, c.Fits s w (.check root) ∧ c.failure? = some e ∧ c.endings = ↑h.endings) ∧
    (h.endings.map Prod.fst).Perm (s.walkedSince s') ∧
    (∃ g ∈ s.walkedSince s', s.RaisedAt w s' g e ∧ s'.isValid root = false ∧ s'.isValid g = false ∧
      Relation.ReflTransGen
        (fun f x => s.Imports w f x ∧ s'.isValid f = false ∧ s'.isValid x = false) root g) ∧
    ∀ f ∈ s.walkedSince s', ∃ o, lastOutcome h.endings f = some o ∧ s'.isValid f = o.isOk := by
  have hsteps := hr.steps hw
  have hchecked := hsteps.checked ha
  have hwatched := hr.watched (asks_check root)
  obtain ⟨c, hfits, ho, hends⟩ := (hr.tells ha hw).course
  have hfailure : c.failure? = some e := by
    cases hc : c.failure? with
    | none =>
        rw [hc] at ho
        cases ho
    | some e' =>
        rw [hc] at ho
        cases ho
        rfl
  have hwalked : ∀ g o, (g, o) ∈ c.endings → g ∈ s.walkedSince s' := fun g o hg => by
    rw [hends] at hg
    exact hwatched.mem_walkedSince.mpr (.inl (List.mem_map_of_mem hg))
  refine ⟨⟨c, hfits, hfailure, hends⟩, ?_, ?_, ?_⟩
  · have hended := hwatched.traced.ended
    rw [Task.walking_done, add_zero] at hended
    have hsince : s.walkedSince s'.bare = s.walkedSince s' := by simp [Session.walkedSince]
    rw [hsince] at hended
    exact (Multiset.coe_eq_coe.mp hended).symm
  · obtain ⟨g, hg, hraised, hunsound⟩ : ∃ g ∈ s.walkedSince s', s.RaisedAt w s' g e ∧ ¬s.Sound w g := by
      rcases hfits.origin hfailure with ⟨g, t, cause, rfl, hres, hfollow | ⟨ht, o, hg⟩⟩ |
          ⟨g, fault, rfl, hu, hread, o, hg⟩
      · cases hfollow
      · obtain ⟨hd, hall, hlast⟩ := Surroundings.resolve_eq_error hres
        refine ⟨g, hwalked g o hg, .inl ⟨t, ht, cause, hd, hall, hlast, rfl, rfl⟩, fun hsound => ?_⟩
        · obtain ⟨x, hx⟩ := hsound.2 t ht
          rw [hres] at hx
          cases hx
      · have hnot : ¬s.Obtainable w g := by
          rintro (ht | ⟨text, ht⟩)
          · rw [hu] at ht
            cases ht
          · rw [hread] at ht
            cases ht
        refine ⟨g, hwalked g o hg, .inr ⟨fault, hu, ?_, hread, rfl⟩, fun hsound => hnot hsound.1⟩
        by_contra ht
        have hknown := hchecked.known g (.inl ((hchecked.walked g).mp (hwalked g o hg)).met)
        exact hnot (hknown.obtainable.mp (.inl (by simpa using ht)))
    have hreached := (hchecked.walked g).mp hg
    have hv : s'.isValid g = false := by
      by_contra hn
      exact hunsound (hchecked.sound g hreached (by simpa using hn)).2
    obtain ⟨hroot, hchain⟩ := (hchecked.stranded g hreached hv).chain hv
    exact ⟨g, hg, hraised, hroot, hv, hchain⟩
  · intro f hf
    have hv := hwatched.traced.valid f (by simp)
    cases hlast : lastOutcome h.endings f with
    | none =>
        obtain ⟨e, he, rfl⟩ := List.mem_map.mp ((hwatched.mem_walkedSince.mp hf).resolve_right (by simp))
        exact absurd (Path.Same.refl e.1) (lastOutcome_eq_none.mp hlast e he)
    | some o =>
        rw [hlast] at hv
        exact ⟨o, rfl, hv⟩

namespace Broken

/-- The second file is checked to its end before the first one fails. -/
def single : List (List Nat) := [[], [], [0], [0], [0], [0, 0], [0, 0], [1], [1], [1], [1]]

def refused : Task → Bool
  | .done (.error _) => true
  | _ => false

theorem failed_replay :
    refused (Task.replay surroundings single (Cycle.session, .start (.check Cycle.first))).2 = true := by
  decide +kernel

end Broken

/-- The first file of a cycle imports a module that does not exist, too, and takes the failure back with it. -/
theorem check_failure_broken : ∃ h s' e,
    Runs (Cycle.session, .start (.check Cycle.first)) h (s', .done (.error e)) ∧
      (∀ m ∈ h, m.around = Broken.surroundings) ∧ s'.isValid Cycle.first = false ∧
      ∃ g ∈ Cycle.session.walkedSince s', Cycle.session.RaisedAt Broken.surroundings s' g e := by
  have hreplay := Broken.failed_replay
  have hrun := Task.steps_replay Broken.surroundings Broken.single (Cycle.session, .start (.check Cycle.first))
  generalize Task.replay Broken.surroundings Broken.single (Cycle.session, .start (.check Cycle.first)) = c
    at hreplay hrun
  obtain ⟨s', t⟩ := c
  replace hreplay : Broken.refused t = true := hreplay
  unfold Broken.refused at hreplay
  split at hreplay
  · next e =>
    obtain ⟨h, hr, hw⟩ := Runs.of_steps hrun
    obtain ⟨-, -, ⟨g, hg, hraised, hroot, -⟩, -⟩ := check_failure Cycle.session Broken.surroundings Cycle.first
      (Cycle.spelledAlike Broken.targets_first Broken.targets_second) hr hw
    exact ⟨h, s', e, hr, hw, hroot, g, hg, hraised⟩
  · cases hreplay

end ImportCheck
