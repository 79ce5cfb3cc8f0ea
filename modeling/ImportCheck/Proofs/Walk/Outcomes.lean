import ImportCheck.Proofs.Walk.History
import ImportCheck.Proofs.Walk.Orderly

/-!
# How walks end

A file is walked once at a time, and valid while it is. When no walk of it is open any more, its mark is what the
last walk left: a walk that passed keeps it, and one that failed takes it back.
-/

namespace ImportCheck

namespace Task

variable {w : Surroundings} {s s' : Session} {leaf t' : Task}

/-! ## The files that are being walked -/

theorem reads?_follows (x : Path) (specifiers : List String) :
    (waitingIn (follows x specifiers)).filterMap reads? = 0 := by
  rw [waitingIn_follows, Multiset.filterMap_coe]
  have : (follows x specifiers).filterMap reads? = [] := by
    simp [follows, reads?]
  rw [this]
  rfl

@[simp] theorem walking_walk_follows (x : Path) (registered : Bool) (specifiers : List String) :
    (walk x registered (follows x specifiers)).walking = {x} := by
  simp [walking, parents, parentsIn_follows, waiting, reads?_follows]

@[simp] theorem walking_done (o : Outcome) : (done o).walking = 0 := by simp [walking, parents, waiting]

theorem reads?_reading (x : Path) (registered : Bool) (due : Nat) :
    (reading x (.walk registered) due).waiting.filterMap reads? = {x} := by
  simp [waiting, reads?, ← Multiset.cons_zero]

@[simp] theorem walking_reading_walk (x : Path) (registered : Bool) (due : Nat) :
    (reading x (.walk registered) due).walking = {x} := by
  rw [walking, reads?_reading]
  simp [parents]

@[simp] theorem walking_resolving (f : Path) (t c : String) (rest : List String) (goal : ResolveGoal)
    (due : Nat) : (resolving f t c rest goal due).walking = 0 := by
  simp only [walking, parents, waiting]
  rfl

@[simp] theorem walking_start (request : Request) : (start request).walking = 0 := by
  simp only [walking, parents, waiting]
  rfl

theorem Seeks.walking {f : Path} {t : String} {a : Except ResolverFault Path} (h : leaf.Seeks w f t a) :
    leaf.walking = 0 := by
  cases h <;> simp

/-! ## Leaves of checks -/

/-- All that waits in the task belongs to checks. -/
def Checking (t : Task) : Prop := ∀ leaf ∈ t.waiting, leaf.Checks

theorem checking_follows (x : Path) (registered : Bool) (specifiers : List String) :
    (walk x registered (follows x specifiers)).Checking := by
  intro leaf hl
  obtain ⟨t, -, rfl⟩ := mem_waiting_follows.mp hl
  exact .follow x t

theorem Entered.checking {x : Path} {registered : Bool} (h : Entered x registered s s' t') : t'.Checking := by
  cases h with
  | trusted _ => simp [Checking, waiting]
  | scanned _ _ _ => exact checking_follows _ _ _
  | begun _ _ => simpa [Checking, waiting] using .reading x registered _

theorem LeafStep.checking (h : LeafStep w s leaf s' t') (hc : leaf.Checks) : t'.Checking := by
  cases h with
  | check h => exact h.checking
  | ask _ _ _ => simpa [Checking, waiting] using .resolving ..
  | register _ _ _ _ he => exact he.checking
  | link _ _ _ he => exact he.checking
  | store _ _ => exact checking_follows _ _ _
  | notice => cases hc
  | _ => simp [Checking, waiting]

end Task

theorem Moment.checking_after (m : Moment) (hp : m.task.waitsAt m.place = true) (hc : m.task.Checking) :
    m.after.2.Checking := by
  obtain ⟨leaf, s', t', R, E, -, hleaf, hd, hw, hw', -, -⟩ := m.leafStep hp fun l hl => .inl (hc l hl)
  intro l hl
  rw [hw', Multiset.mem_add] at hl
  rcases hl with hl | hl
  · exact hc l (by simp [hw, hl])
  · exact hd.checking (hc leaf hleaf) l hl

/-! ## Open walks -/

/-- The files are different places, and all valid. -/
structure Apart (s : Session) (O : Multiset Path) : Prop where
  distinct : (O.map Path.components).Nodup
  valid : ∀ x ∈ O, s.isValid x = true

namespace Apart

variable {s s' : Session} {O : Multiset Path} {x : Path}

theorem of_valid (h : Apart s O) (hv : ∀ p, s'.isValid p = s.isValid p) : Apart s' O :=
  ⟨h.distinct, fun x hx => (hv x).trans (h.valid x hx)⟩

theorem not_same (h : Apart s (O + {x})) {y : Path} (hy : y ∈ O) : ¬x.Same y := by
  have hd := h.distinct
  rw [Multiset.map_add, Multiset.nodup_add] at hd
  intro hs
  exact Multiset.disjoint_left.mp hd.2.2 (Multiset.mem_map_of_mem _ hy)
    (Multiset.mem_map.mpr ⟨x, by simp, hs⟩)

theorem enter (h : Apart s O) (hv : s.isValid x = false) : Apart (s.enter x) (O + {x}) := by
  constructor
  case distinct =>
      rw [Multiset.map_add, Multiset.map_singleton, Multiset.nodup_add]
      refine ⟨h.distinct, Multiset.nodup_singleton _, Multiset.disjoint_singleton.mpr fun hx => ?_⟩
      obtain ⟨y, hy, hs⟩ := Multiset.mem_map.mp hx
      rw [← s.isValid_congr hs, h.valid y hy] at hv
      cases hv
  case valid =>
      intro y hy
      rw [Session.isValid_enter]
      rcases Multiset.mem_add.mp hy with hy | hy
      · simp [h.valid y hy]
      · simp [Multiset.mem_singleton.mp hy, Path.Same.refl]

theorem leave (h : Apart s (O + {x})) (hv : ∀ p, ¬x.Same p → s'.isValid p = s.isValid p) : Apart s' O := by
  constructor
  case distinct =>
      have hd := h.distinct
      rw [Multiset.map_add, Multiset.nodup_add] at hd
      exact hd.1
  case valid =>
      intro y hy
      rw [hv y (h.not_same hy)]
      exact h.valid y (Multiset.mem_add.mpr (.inl hy))

end Apart

/-- The outcome of the last walk of a file, if one has ended. -/
def lastOutcome (E : List (Path × Outcome)) (p : Path) : Option Outcome :=
  (E.filter fun e => decide (e.1.Same p)).getLast?.map Prod.snd

theorem lastOutcome_eq_none {E : List (Path × Outcome)} {p : Path} :
    lastOutcome E p = none ↔ ∀ e ∈ E, ¬e.1.Same p := by
  simp [lastOutcome]

theorem lastOutcome_append (E : List (Path × Outcome)) (x : Path) (o : Outcome) (p : Path) :
    lastOutcome (E ++ [(x, o)]) p = if x.Same p then some o else lastOutcome E p := by
  by_cases h : x.Same p <;> simp [lastOutcome, h]

/-- The walks since an earlier moment: those that have ended, each with its outcome, and the open ones. -/
structure Traced (s₀ : Session) (E : List (Path × Outcome)) (s : Session) (O : Multiset Path) : Prop where
  apart : Apart s O
  walks : s.walks = s₀.walks ++ s₀.walkedSince s
  ended : (↑(s₀.walkedSince s) : Multiset Path) = ↑(E.map Prod.fst) + O
  valid : ∀ p, (∀ x ∈ O, ¬x.Same p) → s.isValid p = (lastOutcome E p).elim (s₀.isValid p) Except.isOk

namespace Traced

variable {w : Surroundings} {s₀ s s' : Session} {E : List (Path × Outcome)} {O : Multiset Path} {x : Path}

theorem of_same (h : Traced s₀ E s O) (hw : s'.walks = s.walks) (hv : ∀ p, s'.isValid p = s.isValid p) :
    Traced s₀ E s' O := by
  have hsince : s₀.walkedSince s' = s₀.walkedSince s := by simp only [Session.walkedSince, hw]
  exact ⟨h.apart.of_valid hv, by rw [hsince, hw]; exact h.walks, by rw [hsince]; exact h.ended,
    fun p hp => (hv p).trans (h.valid p hp)⟩

theorem enter (h : Traced s₀ E s O) (hv : s.isValid x = false) : Traced s₀ E (s.enter x) (O + {x}) := by
  have hsince := Session.walkedSince_enter h.walks x
  constructor
  case apart => exact h.apart.enter hv
  case walks => rw [hsince, Session.walks_enter, h.walks]; simp
  case ended => rw [hsince, ← Multiset.coe_add, h.ended, add_assoc]; rfl
  case valid =>
      intro p hp
      have hx : ¬x.Same p := hp x (by simp)
      rw [Session.isValid_enter, decide_eq_false hx, Bool.false_or]
      exact h.valid p fun y hy => hp y (by simp [hy])

/-- An open walk ends and leaves its mark if it has passed, and takes it back if not. -/
theorem leave (h : Traced s₀ E s (O + {x})) {o : Outcome} (hw : s'.walks = s.walks)
    (hx : s'.isValid x = o.isOk) (hv : ∀ p, ¬x.Same p → s'.isValid p = s.isValid p) :
    Traced s₀ (E ++ [(x, o)]) s' O := by
  have hsince : s₀.walkedSince s' = s₀.walkedSince s := by simp only [Session.walkedSince, hw]
  constructor
  case apart => exact h.apart.leave hv
  case walks => rw [hsince, hw]; exact h.walks
  case ended =>
      rw [hsince, h.ended, List.map_append, ← Multiset.coe_add, add_comm O, ← add_assoc]
      rfl
  case valid =>
      intro p hp
      rw [lastOutcome_append]
      by_cases hs : x.Same p
      · rw [if_pos hs, ← s'.isValid_congr hs, hx]
        rfl
      · rw [if_neg hs, hv p hs]
        refine h.valid p fun y hy => ?_
        rcases Multiset.mem_add.mp hy with hy | hy
        · exact hp y hy
        · exact Multiset.mem_singleton.mp hy ▸ hs

theorem pass (h : Traced s₀ E s (O + {x})) (a : Answer) : Traced s₀ (E ++ [(x, .ok a)]) s O :=
  h.leave rfl (h.apart.valid x (by simp)) fun _ _ => rfl

theorem fail (h : Traced s₀ E s (O + {x})) (registered : Bool) (e : Failure) :
    Traced s₀ (E ++ [(x, .error e)]) (s.drop x registered) O :=
  h.leave rfl (by simp [Path.Same.refl]; rfl) fun p hp => by simp [hp]

theorem falls {c c' : Session × Multiset Path} {E' : List (Path × Outcome)} (hf : Task.Falls c E' c')
    (h : Traced s₀ E c.1 (O + c.2)) : Traced s₀ (E ++ E') c'.1 (O + c'.2) := by
  induction hf with
  | rest => simpa using h
  | pass _ ih =>
      rw [← List.append_assoc]
      exact pass (by simpa only [add_assoc] using ih) .unit
  | @fail _ _ _ _ registered e _ ih =>
      rw [← List.append_assoc]
      exact fail (by simpa only [add_assoc] using ih) registered e

theorem entered {registered : Bool} {t' : Task} (h : Traced s₀ E s O)
    (he : Task.Entered x registered s s' t') : Traced s₀ E s' (O + t'.walking) := by
  cases he with
  | trusted _ => simpa using h
  | scanned hv _ _ =>
      rw [Task.walking_walk_follows]
      exact (h.enter hv).of_same rfl fun _ => rfl
  | begun hv _ => simpa using (h.enter hv).of_same (Session.walks_record _ rfl) fun _ => rfl

theorem leafStep {leaf t' : Task} (h : Traced s₀ E s (O + leaf.walking)) (hd : Task.LeafStep w s leaf s' t')
    (hc : leaf.Checks) : Traced s₀ (E ++ leaf.cut t') s' (O + t'.walking) := by
  have hseeks : ∀ {f t a}, leaf.Seeks w f t a → Traced s₀ E s O := fun hs => by simpa [hs.walking] using h
  cases hd with
  | check he => simpa [Task.cut, Task.reads?] using entered (by simpa using h) he
  | ask hs _ _ =>
      simpa [Task.cut, hs.reads?] using (hseeks hs).of_same (Session.walks_record _ rfl) fun _ => rfl
  | unresolved hs _ => simpa [Task.cut, hs.reads?] using hseeks hs
  | pass hs _ _ => simpa [Task.cut, hs.reads?] using hseeks hs
  | @register _ _ y _ _ _ hs _ _ _ he =>
      have hr : Traced s₀ E (s.register y) O := (hseeks hs).of_same rfl fun _ => rfl
      simpa [Task.cut, hs.reads?] using hr.entered he
  | @link _ f y _ _ _ hs _ _ he =>
      have hl : Traced s₀ E (s.link f y) O := (hseeks hs).of_same rfl fun _ => rfl
      simpa [Task.cut, hs.reads?] using hl.entered he
  | @unread y registered _ fault _ =>
      simpa [Task.cut, Task.reads?, Task.ended] using fail (by simpa using h) registered (.io y fault)
  | @store x _ _ text _ _ _ =>
      have hopen : Traced s₀ E s (O + {x}) := by simpa using h
      have hstored : Traced s₀ E ((s.updateFile x text false).1.parsed x) (O + {x}) :=
        hopen.of_same rfl fun _ => rfl
      rw [Task.walking_walk_follows]
      simpa [Task.cut, Task.reads?, Task.ended] using hstored
  | notice => cases hc
  | keep _ => cases hc
  | refresh _ _ => cases hc

end Traced

theorem Moment.traced (m : Moment) {s₀ : Session} {E : List (Path × Outcome)}
    (hp : m.task.waitsAt m.place = true) (hc : m.task.Checking)
    (h : Traced s₀ E m.session.bare m.task.walking) :
    Traced s₀ (E ++ m.endings) m.after.1.bare m.after.2.walking := by
  obtain ⟨leaf, s', t', R, E', -, hmem, hd, hw, hw', he, hfalls⟩ := m.leafStep hp fun l hl => .inl (hc l hl)
  have hleaf := hc leaf hmem
  have hparents : leaf.parents = 0 := by cases hleaf <;> rfl
  have hstart : Traced s₀ E m.session.bare
      (m.task.parents + R.filterMap Task.reads? + leaf.walking) := by
    have hleafwaiting : leaf.waiting = {leaf} := by cases hleaf <;> rfl
    simpa [Task.walking, hw, hparents, hleafwaiting, add_assoc] using h
  have hdone := hstart.leafStep hd hleaf
  have hend := Traced.falls (O := R.filterMap Task.reads? + t'.waiting.filterMap Task.reads?) hfalls
    (E := E ++ leaf.cut t') (by simpa [Task.walking, add_assoc, add_comm, add_left_comm] using hdone)
  rw [he, ← List.append_assoc]
  simpa [Task.walking, hw', add_comm, add_left_comm] using hend

end ImportCheck
