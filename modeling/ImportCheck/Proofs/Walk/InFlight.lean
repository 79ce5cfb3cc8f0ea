import ImportCheck.Proofs.Walk.Confined
import ImportCheck.Proofs.Walk.OutsideChecks
import Mathlib.Data.List.Induction

/-!
# Marks, links and the walks in flight

A file that is linked from is tracked, and one that is valid is tracked or its text is awaited. A file is walked again
while a walk of it is open only when its mark has gone, and a mark that goes with a walk makes up for it; so it takes
an invalidation to have one walk more.
-/

namespace ImportCheck

/-! ## Tracked files -/

/-- The files that are linked from are tracked, and so are those whose specifiers are resolved. A file that is valid and
not tracked is being read. -/
structure Anchored (s : Session) (L : Multiset Task) : Prop where
  linked : ∀ p q, s.graph.hasDependency p q = true → s.isTracked p = true
  askers : ∀ leaf ∈ L, leaf.Checks → ∀ f, leaf.asker? = some f → s.isTracked f = true
  marked : ∀ p, s.isValid p = true → s.isTracked p = true ∨ ∃ x ∈ L.filterMap Task.reads?, x.Same p

namespace Anchored

variable {w : Surroundings} {s s' : Session} {K L : Multiset Task} {x f : Path}

theorem of_session (h : Anchored s K)
    (hg : ∀ p q, s'.graph.hasDependency p q = true → s.graph.hasDependency p q = true)
    (hv : ∀ p, s'.isValid p = true → s.isValid p = true) (ht : ∀ p, s.isTracked p = true → s'.isTracked p = true) :
    Anchored s' K where
  linked p q hpq := ht p (h.linked p q (hg p q hpq))
  askers leaf hl hc f hf := ht f (h.askers leaf hl hc f hf)
  marked p hp := (h.marked p (hv p hp)).imp_left (ht p)

theorem of_same (h : Anchored s K) (hg : s'.graph.links = s.graph.links) (hv : s'.valid = s.valid)
    (hf : s'.files = s.files) : Anchored s' K := by
  refine h.of_session (fun p q hpq => ?_) (fun p hp => ?_) fun p hp => ?_
  · rwa [DependencyGraph.hasDependency, DependencyGraph.targets, hg] at hpq
  · rwa [Session.isValid, hv] at hp
  · rwa [Session.isTracked, hf]

theorem add (h : Anchored s K) {t : Task}
    (ht : ∀ leaf ∈ t.waiting, leaf.Checks → ∀ f, leaf.asker? = some f → s.isTracked f = true) :
    Anchored s (K + t.waiting) where
  linked := h.linked
  askers leaf hl := (Multiset.mem_add.mp hl).elim (h.askers leaf) (ht leaf)
  marked p hp := (h.marked p hp).imp_right fun ⟨y, hy, hs⟩ =>
    ⟨y, by rw [Multiset.filterMap_add]; exact Multiset.mem_add.mpr (.inl hy), hs⟩

theorem add_done (h : Anchored s K) (o : Outcome) : Anchored s (K + (Task.done o).waiting) := by
  simpa [Task.waiting] using h

/-- A leaf that is worked at is gone; if its file was being read, that has come to an end. -/
theorem remove {leaf : Task} (h : Anchored s (K + {leaf})) (hr : leaf.reads? = none) : Anchored s K where
  linked := h.linked
  askers l hl := h.askers l (by simp [hl])
  marked p hp := by simpa [Multiset.filterMap_add, hr] using h.marked p hp

theorem enter_tracked (h : Anchored s K) (hx : s.isTracked x = true) : Anchored (s.enter x) K where
  linked p q hpq := by
    rw [Session.hasDependency_enter, Bool.and_eq_true] at hpq
    exact h.linked p q hpq.2
  askers := h.askers
  marked p hp := by
    rw [Session.isValid_enter, Bool.or_eq_true, decide_eq_true_eq] at hp
    rcases hp with hs | hp
    · exact .inl ((s.files.contains_congr hs).symm.trans hx)
    · exact h.marked p hp

theorem enter_reading (h : Anchored s K) (registered : Bool) (due : Nat) :
    Anchored (s.enter x) (K + (Task.reading x (.walk registered) due).waiting) where
  linked p q hpq := by
    rw [Session.hasDependency_enter, Bool.and_eq_true] at hpq
    exact h.linked p q hpq.2
  askers leaf hl hc f hf := by
    rcases Multiset.mem_add.mp hl with hl | hl
    · exact h.askers leaf hl hc f hf
    · obtain rfl := Multiset.mem_singleton.mp hl
      cases hf
  marked p hp := by
    rw [Multiset.filterMap_add, Task.reads?_reading]
    rw [Session.isValid_enter, Bool.or_eq_true, decide_eq_true_eq] at hp
    rcases hp with hs | hp
    · exact .inr ⟨x, by simp, hs⟩
    · exact (h.marked p hp).imp_right fun ⟨y, hy, hs⟩ => ⟨y, by simp [hy], hs⟩

theorem link (h : Anchored s K) (hf : s.isTracked f = true) : Anchored (s.link f x) K where
  linked p q hpq := by
    rw [Session.hasDependency_link, Bool.or_eq_true, decide_eq_true_eq] at hpq
    rcases hpq with hpq | ⟨hs, -⟩
    · exact h.linked p q hpq
    · exact (s.files.contains_congr hs).symm.trans hf
  askers := h.askers
  marked := h.marked

theorem drop (h : Anchored s K) (registered : Bool) : Anchored (s.drop x registered) K := by
  refine h.of_session (fun p q hpq => ?_) (fun p hp => ?_) fun _ => id
  · rwa [Session.hasDependency_drop] at hpq
  · rw [Session.isValid_drop, Bool.and_eq_true] at hp
    exact hp.2

/-- A file that could not be read is not valid any more. -/
theorem unread {registered : Bool} {due : Nat} (h : Anchored s (K + {.reading x (.walk registered) due})) :
    Anchored (s.drop x registered) K where
  linked p q hpq := h.linked p q (by rwa [Session.hasDependency_drop] at hpq)
  askers leaf hl := h.askers leaf (by simp [hl])
  marked p hp := by
    rw [Session.isValid_drop, Bool.and_eq_true, Bool.not_eq_true', decide_eq_false_iff_not] at hp
    refine (h.marked p hp.2).imp_right fun ⟨y, hy, hs⟩ => ⟨y, ?_, hs⟩
    rw [Multiset.filterMap_add] at hy
    rcases Multiset.mem_add.mp hy with hy | hy
    · exact hy
    · obtain rfl : y = x := by simpa [Task.reads?, ← Multiset.cons_zero] using hy
      exact absurd hs hp.1

/-- A file that was read is tracked. -/
theorem store {registered : Bool} {due : Nat} (h : Anchored s (K + {.reading x (.walk registered) due}))
    (text : String) : Anchored (s.updateFile x text false).1 K where
  linked p q hpq := by
    rw [Session.isTracked_updateFile, h.linked p q hpq, Bool.or_true]
  askers leaf hl hc f hf := by
    rw [Session.isTracked_updateFile, h.askers leaf (by simp [hl]) hc f hf, Bool.or_true]
  marked p hp := by
    rw [Session.isTracked_updateFile, Bool.or_eq_true, decide_eq_true_eq, or_assoc]
    rcases h.marked p hp with ht | ⟨y, hy, hs⟩
    · exact .inr (.inl ht)
    · rw [Multiset.filterMap_add] at hy
      rcases Multiset.mem_add.mp hy with hy | hy
      · exact .inr (.inr ⟨y, hy, hs⟩)
      · obtain rfl : y = x := by simpa [Task.reads?, ← Multiset.cons_zero] using hy
        exact .inl hs

theorem falls {c c' : Session × Multiset Path} {E : List (Path × Outcome)} (hf : Task.Falls c E c')
    (h : Anchored c.1 K) : Anchored c'.1 K := by
  induction hf with
  | rest => exact h
  | pass _ ih => exact ih
  | fail _ ih => exact ih.drop _

theorem askers_follows {registered : Bool} {specifiers : List String} (hx : s.isTracked x = true) :
    ∀ leaf ∈ (Task.walk x registered (Task.follows x specifiers)).waiting, leaf.Checks →
      ∀ f, leaf.asker? = some f → s.isTracked f = true := by
  intro leaf hl _ f hf
  obtain ⟨t, -, rfl⟩ := Task.mem_waiting_follows.mp hl
  cases hf
  exact hx

theorem entered {registered : Bool} {t' : Task} (h : Anchored s K) (he : Task.Entered x registered s s' t') :
    Anchored s' (K + t'.waiting) := by
  cases he with
  | trusted _ => exact h.add_done _
  | scanned _ ht _ =>
      have hscanned : Anchored ((s.enter x).parsed x) K :=
        (h.enter_tracked ht).of_same rfl rfl rfl
      exact hscanned.add (askers_follows ht)
  | begun _ _ => exact (h.enter_reading registered _).of_same rfl rfl rfl

theorem leafStep {leaf t' : Task} (h : Anchored s (K + {leaf})) (hd : Task.LeafStep w s leaf s' t') (hc : leaf.Checks) :
    Anchored s' (K + t'.waiting) := by
  have hasker : ∀ {f t a}, leaf.Seeks w f t a → s.isTracked f = true := fun hs =>
    h.askers leaf (by simp) hc _ hs.asker?
  cases hd with
  | check he => exact (h.remove rfl).entered he
  | @ask _ f _ c _ _ _ hs _ _ =>
      have hcall : Anchored (s.record (.call f.directory c)) K :=
        (h.remove hs.reads?).of_same rfl rfl rfl
      refine hcall.add fun l hl _ g hg => ?_
      obtain rfl := Multiset.mem_singleton.mp hl
      cases hg
      exact hasker hs
  | unresolved hs _ => exact (h.remove hs.reads?).add_done _
  | pass hs _ _ => exact (h.remove hs.reads?).add_done _
  | @register _ _ y _ _ _ hs _ _ _ he =>
      have hregistered : Anchored (s.register y) K :=
        (h.remove hs.reads?).of_same rfl rfl rfl
      exact hregistered.entered he
  | link hs _ _ he => exact ((h.remove hs.reads?).link (hasker hs)).entered he
  | unread _ => exact h.unread.add_done _
  | @store y _ _ text _ _ hf =>
      have hstored : Anchored ((s.updateFile y text false).1.parsed y) K :=
        (h.store text).of_same rfl rfl rfl
      have htracked : (s.updateFile y text false).1.isTracked y = true := Session.tracked_of_found hf
      exact hstored.add (askers_follows htracked)
  | notice => cases hc
  | keep _ => cases hc
  | refresh _ _ => cases hc

theorem outsideChecks {leaf : Task} {c : Session × Task} (h : Anchored s (K + {leaf}))
    (he : Task.OutsideChecks w s leaf c) (hr : leaf.reads? = none) : Anchored c.1 (K + c.2.waiting) := by
  have hclear : Anchored (if leaf.clears w s then s.invalidateAll else s) K := by
    split
    · exact (h.remove hr).of_session (fun _ _ => id) (fun p hp => by cases hp) fun _ => id
    · exact h.remove hr
  have hsteady : Anchored c.1 K := by
    refine hclear.of_session (fun p q => ?_) (fun p => ?_) he.steady.tracked
    · rw [he.steady.graph]
      exact id
    · rw [Session.isValid, he.steady.valid]
      exact id
  exact hsteady.add fun l hl hc => absurd hc (he.aside l hl)

end Anchored

/-! ## Walks in flight -/

/-- With so many invalidations, no file has more open walks than those, and one more if it is valid. -/
def Tallied (r : Nat) (s : Session) (O : Multiset Path) : Prop :=
  ∀ f, (O.filter (Path.Same · f)).card ≤ r + if s.isValid f then 1 else 0

/-- The files of the walks that have passed. -/
def passed (E : List (Path × Outcome)) : Multiset Path := ↑((E.filter (·.2.isOk)).map Prod.fst)

theorem passed_append (E E' : List (Path × Outcome)) : passed (E ++ E') = passed E + passed E' := by
  simp [passed]

theorem passed_append_ok (E : List (Path × Outcome)) (f : Path) (a : Answer) :
    passed (E ++ [(f, .ok a)]) = passed E + {f} := passed_append ..

theorem passed_append_error (E : List (Path × Outcome)) (f : Path) (e : Failure) :
    passed (E ++ [(f, .error e)]) = passed E := by
  rw [passed_append]
  exact add_zero _

theorem mem_passed {E : List (Path × Outcome)} {x : Path} : x ∈ passed E ↔ ∃ o, (x, o) ∈ E ∧ o.isOk = true := by
  simp [passed]

/-- The walks of a file that have ended are those that have failed and those that have passed. -/
theorem countP_ended (E : List (Path × Outcome)) (p : Path) : (E.map Prod.fst).countP (Path.Same · p) =
    E.countP (fun e => decide (e.1.Same p) && !e.2.isOk) + (passed E).countP (Path.Same · p) := by
  induction E using List.reverseRecOn with
  | nil => simp [passed]
  | append_singleton E e ih =>
      obtain ⟨x, o⟩ := e
      rw [List.map_append, List.countP_append, List.countP_append, ih]
      cases o with
      | ok a =>
          rw [passed_append_ok, Multiset.countP_add, ← Multiset.coe_singleton, Multiset.coe_countP]
          simp [Except.isOk, Except.toBool, add_assoc]
      | error e =>
          rw [passed_append_error]
          simp [Except.isOk, Except.toBool, List.countP_singleton, add_right_comm]

namespace Tallied

variable {w : Surroundings} {r : Nat} {s s' : Session} {O : Multiset Path} {x : Path}

theorem of_valid (h : Tallied r s O) (hv : ∀ p, s'.isValid p = s.isValid p) : Tallied r s' O := by
  intro f
  rw [hv]
  exact h f

theorem countP_le (h : Tallied r s O) (p : Path) : O.countP (Path.Same · p) ≤ r + 1 := by
  have hcard := h p
  rw [← Multiset.countP_eq_card_filter] at hcard
  split at hcard <;> omega

/-- A file that is not valid is not being walked, and all its walks so far have failed. -/
theorem failed {E : List (Path × Outcome)} (h : Tallied 0 s (passed E + O)) (hv : s.isValid x = false) :
    (∀ y ∈ O, ¬y.Same x) ∧ ∀ e ∈ E, e.1.Same x → e.2.isOk = false := by
  have hnone : ∀ y ∈ passed E + O, ¬y.Same x := by
    have hcard := h x
    rw [hv] at hcard
    simpa [Multiset.filter_eq_nil, or_imp, forall_and] using hcard
  refine ⟨fun y hy => hnone y (by simp [hy]), fun e he hs => ?_⟩
  by_contra hok
  rw [Bool.not_eq_false] at hok
  exact hnone e.1 (Multiset.mem_add.mpr (.inl (mem_passed.mpr ⟨e.2, he, hok⟩))) hs

/-- A file is walked when it is not valid, and then it is. -/
theorem enter (h : Tallied r s O) (hv : s.isValid x = false) : Tallied r (s.enter x) (O + {x}) := by
  intro f
  have hf := h f
  rw [Multiset.filter_add, Multiset.card_add, Session.isValid_enter]
  by_cases hs : x.Same f
  · rw [← s.isValid_congr hs, hv] at hf
    simpa [hs, Multiset.filter_singleton] using hf
  · simpa [hs, Multiset.filter_singleton] using hf

theorem mono (h : Tallied r s O) {O' : Multiset Path} (hle : O' ≤ O) : Tallied r s O' := fun f =>
  (Multiset.card_le_card (Multiset.filter_le_filter _ hle)).trans (h f)

/-- A walk that fails takes the mark back, whichever walk has set it. -/
theorem fail (h : Tallied r s (O + {x})) (registered : Bool) : Tallied r (s.drop x registered) O := by
  intro f
  by_cases hs : x.Same f
  · have hf := h f
    rw [Multiset.filter_add, Multiset.card_add] at hf
    simp only [Multiset.filter_singleton, hs, if_true, Multiset.card_singleton] at hf
    have hmark : (if s.isValid f then 1 else 0) ≤ 1 := by split <;> omega
    omega
  · rw [Session.isValid_drop, decide_eq_false hs]
    exact h.mono (Multiset.le_add_right O {x}) f

theorem clear (h : Tallied r s O) : Tallied (r + 1) s.invalidateAll O := by
  intro f
  have hf := h f
  have hmark : (if s.isValid f then 1 else 0) ≤ 1 := by split <;> omega
  omega

/-- A walk that passes leaves its mark, so it goes on to count. -/
theorem falls {c c' : Session × Multiset Path} {E : List (Path × Outcome)} (hf : Task.Falls c E c')
    (h : Tallied r c.1 (O + c.2)) : Tallied r c'.1 (O + passed E + c'.2) := by
  induction hf with
  | rest => simpa [passed] using h
  | pass _ ih =>
      rw [passed_append_ok]
      simpa only [add_assoc, add_comm, add_left_comm] using ih
  | fail _ ih =>
      rw [passed_append_error]
      exact fail (by simpa only [add_assoc] using ih) _

theorem entered {registered : Bool} {t' : Task} (h : Tallied r s O) (he : Task.Entered x registered s s' t') :
    Tallied r s' (O + t'.walking) := by
  cases he with
  | trusted _ => simpa using h
  | scanned hv _ _ =>
      rw [Task.walking_walk_follows]
      exact (h.enter hv).of_valid fun _ => rfl
  | begun hv _ =>
      rw [Task.walking_reading_walk]
      exact (h.enter hv).of_valid fun _ => rfl

theorem leafStep {leaf t' : Task} (h : Tallied r s (O + leaf.walking)) (hd : Task.LeafStep w s leaf s' t')
    (hc : leaf.Checks) : Tallied r s' (O + t'.walking) := by
  have hseeks : ∀ {f t a}, leaf.Seeks w f t a → Tallied r s O := fun hs => by simpa [hs.walking] using h
  cases hd with
  | check he => exact entered (by simpa using h) he
  | ask hs _ _ =>
      rw [Task.walking_resolving, add_zero]
      exact (hseeks hs).of_valid fun _ => rfl
  | unresolved hs _ => simpa using hseeks hs
  | pass hs _ _ => simpa using hseeks hs
  | @register _ _ y _ _ _ hs _ _ _ he =>
      have hregistered : Tallied r (s.register y) O := (hseeks hs).of_valid fun _ => rfl
      exact hregistered.entered he
  | @link _ f y _ _ _ hs _ _ he =>
      have hlinked : Tallied r (s.link f y) O := (hseeks hs).of_valid fun _ => rfl
      exact hlinked.entered he
  | unread _ => simpa using fail (by simpa using h) _
  | @store y _ _ text _ _ _ =>
      rw [Task.walking_reading_walk] at h
      rw [Task.walking_walk_follows]
      exact h.of_valid fun _ => rfl
  | notice => cases hc
  | keep _ => cases hc
  | refresh _ _ => cases hc

/-- No walk passes by the work at its own leaf. -/
theorem passed_cut {leaf t' : Task} (hd : Task.LeafStep w s leaf s' t') (hc : leaf.Checks) :
    passed (leaf.cut t') = 0 := by
  cases hd with
  | unread _ => rfl
  | store _ _ => rfl
  | check _ => rfl
  | ask hs _ _ => simp [Task.cut, hs.reads?, passed]
  | unresolved hs _ => simp [Task.cut, hs.reads?, passed]
  | pass hs _ _ => simp [Task.cut, hs.reads?, passed]
  | register hs _ _ _ _ => simp [Task.cut, hs.reads?, passed]
  | link hs _ _ _ => simp [Task.cut, hs.reads?, passed]
  | notice => cases hc
  | keep _ => cases hc
  | refresh _ _ => cases hc

theorem outsideChecks {leaf : Task} {c : Session × Task} (h : Tallied r s O) (he : Task.OutsideChecks w s leaf c) :
    Tallied (r + if leaf.clears w s then 1 else 0) c.1 O := by
  have hvalid : ∀ p, c.1.isValid p = (if leaf.clears w s then s.invalidateAll else s).isValid p := fun p => by
    rw [Session.isValid, he.steady.valid, Session.isValid]
  refine of_valid ?_ hvalid
  split
  · exact h.clear
  · exact h

/-- What is done at a leaf of a check keeps the tally, with the walks that have passed meanwhile. -/
theorem after {m : Moment} {leaf : Task} (hl : m.leaf? = some leaf) (hc : leaf.Checks)
    (h : Tallied r m.session (O + m.task.walking)) :
    Tallied r m.after.1 (O + passed m.endings + m.after.2.walking) := by
  obtain ⟨s', t', R, E, hd, hw, hw', he, hfalls⟩ := Task.worked m.now m.session hl (.inl hc) (w := m.around)
  have hself : leaf.waiting = {leaf} ∧ leaf.parents = 0 := by cases hc <;> exact ⟨rfl, rfl⟩
  have hopen : Tallied r m.session.bare (O + m.task.parents + R.filterMap Task.reads? + leaf.walking) := by
    have hbare : Tallied r m.session.bare (O + m.task.walking) := h.of_valid fun _ => rfl
    simpa [Task.walking, hw, hself, Multiset.filterMap_add, add_assoc] using hbare
  have hdone := hopen.leafStep hd hc
  have hend := falls (O := O + R.filterMap Task.reads? + t'.waiting.filterMap Task.reads?) hfalls
    (by simpa [Task.walking, add_assoc, add_comm, add_left_comm] using hdone)
  have hclosed : Tallied r m.after.1 (O + R.filterMap Task.reads? + t'.waiting.filterMap Task.reads? + passed E +
      m.after.2.parents) := hend.of_valid fun _ => rfl
  have hendings : passed m.endings = passed E := by
    rw [show m.endings = leaf.cut t' ++ E from he, passed_append, passed_cut hd hc, zero_add]
  have hwaiting : m.after.2.waiting = R + t'.waiting := hw'
  rw [hendings, Task.walking, hwaiting, Multiset.filterMap_add]
  simpa only [add_assoc, add_comm, add_left_comm] using hclosed

end Tallied

end ImportCheck
