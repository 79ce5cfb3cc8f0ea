import ImportCheck.Proofs.Walk.Confined
import Mathlib.Data.Multiset.Bind

/-!
# What the resolver is asked

A walk puts the questions for each specifier of its file, once. So what has been asked, and what the leaves have
still to ask, is at every moment what the walks that have started ask for.
-/

namespace ImportCheck

namespace Session

/-- The questions that were put to the resolver since an earlier moment. -/
def callsSince (s₀ s : Session) : List (Path × String) := s.calls.drop s₀.calls.length

/-- The questions that a walk of a file puts to the resolver. -/
def inquiries (s : Session) (w : Surroundings) (x : Path) : List (Path × String) :=
  (s.specifiers w x).flatMap (w.questions x)

/-- The questions that are still to come from a leaf: its own, and those of the walk that it will begin. -/
def owes (s : Session) (w : Surroundings) (leaf : Task) : Multiset (Path × String) :=
  ↑(leaf.owed w ++ leaf.reads?.toList.flatMap (s.inquiries w))

variable (s : Session) (x f : Path)

@[simp] theorem calls_enter : (s.enter x).calls = s.calls := by
  simp [enter, calls, record, Occurrence.call?]

@[simp] theorem calls_record_read : (s.record (.read x)).calls = s.calls := by
  simp [calls, record, Occurrence.call?]

@[simp] theorem calls_record_call (d : Path) (c : String) :
    (s.record (.call d c)).calls = s.calls ++ [(d, c)] := by
  simp [calls, record, Occurrence.call?]

theorem alike_bare : s.Alike s.bare := ⟨rfl, rfl, rfl, rfl, rfl, s.walks_bare⟩

end Session

variable {w : Surroundings} {s₀ s s' : Session} {roots : List Path} {x : Path} {R K L : Multiset Task}

theorem owes_follows (s : Session) (x : Path) (registered : Bool) (specifiers : List String) :
    (Task.walk x registered (Task.follows x specifiers)).waiting.bind (s.owes w) =
      ↑(specifiers.flatMap (w.questions x)) := by
  rw [Task.waiting, Task.waitingIn_follows]
  induction specifiers with
  | nil => rfl
  | cons t ts ih =>
      rw [Task.follows, List.map_cons, ← Multiset.cons_coe, Multiset.cons_bind, List.flatMap_cons,
        ← Multiset.coe_add]
      refine congrArg₂ (· + ·) ?_ ih
      simp [Session.owes, Task.owed, Task.reads?]

/-- The questions that were put and those still to come are those of the walks that have started. -/
structure Asked (s₀ : Session) (w : Surroundings) (s : Session) (L : Multiset Task) : Prop where
  walks : s.walks = s₀.walks ++ s₀.walkedSince s
  calls : s.calls = s₀.calls ++ s₀.callsSince s
  count : ↑(s₀.callsSince s) + L.bind (s₀.owes w) =
    (↑((s₀.walkedSince s).flatMap (s₀.inquiries w)) : Multiset (Path × String))

namespace Asked

theorem of_leaves (h : Asked s₀ w s K) (hw : s'.walks = s.walks) (hc : s'.calls = s.calls)
    (hl : L.bind (s₀.owes w) = K.bind (s₀.owes w)) : Asked s₀ w s' L := by
  have hwalked : s₀.walkedSince s' = s₀.walkedSince s := by simp only [Session.walkedSince, hw]
  have hcalled : s₀.callsSince s' = s₀.callsSince s := by simp only [Session.callsSince, hc]
  constructor
  case walks => rw [hwalked, hw]; exact h.walks
  case calls => rw [hcalled, hc]; exact h.calls
  case count =>
      rw [hwalked, hcalled, hl]
      exact h.count

/-- A walk starts, and owes all of its questions. -/
theorem walk (h : Asked s₀ w s R) (hw : s'.walks = s.walks ++ [x]) (hc : s'.calls = s.calls)
    (hl : L.bind (s₀.owes w) = ↑(s₀.inquiries w x)) : Asked s₀ w s' (R + L) := by
  have hwalked : s₀.walkedSince s' = s₀.walkedSince s ++ [x] := by
    rw [Session.walkedSince, hw, h.walks]
    simp
  have hcalled : s₀.callsSince s' = s₀.callsSince s := by simp only [Session.callsSince, hc]
  constructor
  case walks => rw [hwalked, hw, h.walks]; simp
  case calls => rw [hcalled, hc]; exact h.calls
  case count =>
      rw [hwalked, hcalled, Multiset.add_bind, hl, ← add_assoc, h.count]
      simp

/-- A leaf puts the first of the questions that it owes. -/
theorem ask {leaf leaf' : Task} {d : Path} {c : String} (h : Asked s₀ w s (R + {leaf}))
    (ho : s₀.owes w leaf = (d, c) ::ₘ s₀.owes w leaf') :
    Asked s₀ w (s.record (.call d c)) (R + {leaf'}) := by
  have hwalks : (s.record (.call d c)).walks = s.walks := Session.walks_record _ rfl
  have hwalked : s₀.walkedSince (s.record (.call d c)) = s₀.walkedSince s := by
    simp only [Session.walkedSince, hwalks]
  have hcalled : s₀.callsSince (s.record (.call d c)) = s₀.callsSince s ++ [(d, c)] := by
    rw [Session.callsSince, Session.calls_record_call, h.calls]
    simp
  constructor
  case walks => rw [hwalked, hwalks]; exact h.walks
  case calls => rw [hcalled, Session.calls_record_call, h.calls]; simp
  case count =>
      have hcount := h.count
      rw [Multiset.add_bind, Multiset.singleton_bind, ho, ← Multiset.singleton_add] at hcount
      rw [hwalked, hcalled, ← hcount, Multiset.add_bind, Multiset.singleton_bind, ← Multiset.coe_add,
        Multiset.coe_singleton, add_assoc, add_left_comm {(d, c)}]

theorem falls {c c' : Session × Multiset Path} {E : List (Path × Outcome)} (hf : Task.Falls c E c')
    (h : Asked s₀ w c.1 L) : Asked s₀ w c'.1 L := by
  induction hf with
  | rest => exact h
  | pass _ ih => exact ih
  | fail _ ih => exact ih.of_leaves rfl rfl rfl

theorem entered {M : Ledger} {o : Option Path} {registered : Bool} {t' : Task} (h : Asked s₀ w s R)
    (ho : Orderly w s₀ roots s (M + {⟨o, .calling x registered⟩}))
    (he : Task.Entered x registered s s' t') : Asked s₀ w s' (R + t'.waiting) := by
  cases he with
  | trusted _ => simpa [Task.waiting] using h
  | @scanned found hv ht hf =>
      have henter := ho.of_enter hv
      rw [if_pos ht] at henter
      refine h.walk (Session.walks_enter s x) (Session.calls_enter s x) ?_
      rw [owes_follows, henter.found_eq hf]
      rfl
  | @begun due hv _ =>
      refine h.walk (x := x) ?_ (by simp) ?_
      · rw [Session.walks_record _ rfl, Session.walks_enter]
      · rw [Task.waiting, Multiset.singleton_bind]
        simp [Session.owes, Task.owed, Task.reads?]

theorem leafStep {M : Ledger} {o : Option Path} {leaf t' : Task} (h : Asked s₀ w s (R + {leaf}))
    (ha : s₀.SpelledAlike w roots) (ho : Orderly w s₀ roots s (M + Task.posts w o leaf))
    (hd : Task.LeafStep w s leaf s' t') (hc : leaf.Checks) : Asked s₀ w s' (R + t'.waiting) := by
  have hempty : s₀.owes w leaf = 0 → Asked s₀ w s R := fun hn => by
    exact h.of_leaves rfl rfl (by simp [hn])
  have howes : ∀ {f t a}, leaf.Seeks w f t a → s₀.owes w leaf = ↑(leaf.owed w) := fun hs => by
    simp [Session.owes, hs.reads?]
  have hposts : ∀ {f t a}, leaf.Seeks w f t a → Task.posts w o leaf = {⟨o, .seeking f t a⟩} := fun hs => by
    cases hs <;> rfl
  cases hd with
  | check he => exact (hempty (by simp [Session.owes, Task.owed, Task.reads?])).entered ho he
  | ask hs hn howed =>
      refine h.ask ?_
      rw [howes hs, howed, Session.owes, hn.reads?]
      simp
  | unresolved hs howed => simpa [Task.waiting] using hempty (by simp [howes hs, howed])
  | pass hs howed _ => simpa [Task.waiting] using hempty (by simp [howes hs, howed])
  | @register _ f x t _ _ hs howed hk hdecl he =>
      rw [hposts hs] at ho
      have hstep : LedgerStep w (s, M + {⟨o, .seeking f t (.ok x)⟩}) _ := .register hk hdecl
      have hr : Asked s₀ w (s.register x) R := (hempty (by simp [howes hs, howed])).of_leaves rfl rfl rfl
      exact hr.entered (hstep.orderly ha ho) he
  | @link _ f x t _ _ hs howed hk he =>
      rw [hposts hs] at ho
      have hstep : LedgerStep w (s, M + {⟨o, .seeking f t (.ok x)⟩}) _ := .link hk
      have hl : Asked s₀ w (s.link f x) R := (hempty (by simp [howes hs, howed])).of_leaves rfl rfl rfl
      exact hl.entered (hstep.orderly ha ho) he
  | @unread x registered due _ hr =>
      have hnone : s₀.inquiries w x = [] := by
        simp [Session.inquiries, Session.specifiers_of_not_obtainable (ho.not_obtainable hr)]
      exact h.of_leaves rfl rfl (by simp [Task.waiting, Session.owes, Task.owed, Task.reads?, hnone])
  | @store x registered due text found hr hf =>
      have hstep : LedgerStep w (s, M + {⟨o, .reading x registered⟩}) _ := .store hr
      refine h.of_leaves rfl rfl ?_
      rw [Multiset.add_bind, Multiset.add_bind, owes_follows, (hstep.orderly ha ho).found_eq hf,
        Multiset.singleton_bind]
      simp [Session.owes, Task.owed, Task.reads?, Session.inquiries]
  | notice => cases hc
  | keep _ => cases hc
  | refresh _ _ => cases hc

end Asked

/-! ## Runs -/

namespace Task

mutual
theorem posts_of_mem_waiting {o : Option Path} {leaf : Task} : (t : Task) → leaf ∈ t.waiting →
    ∃ (M : Ledger) (o' : Option Path), posts w o t = M + posts w o' leaf
  | start request, hl => ⟨0, o, by simp [Multiset.mem_singleton.mp hl]⟩
  | reading f goal due, hl => ⟨0, o, by simp [Multiset.mem_singleton.mp hl]⟩
  | resolving f t c rest goal due, hl => ⟨0, o, by simp [Multiset.mem_singleton.mp hl]⟩
  | done outcome, hl => absurd hl (Multiset.notMem_zero leaf)
  | group parts, hl => posts_of_mem_waitingIn parts hl
  | walk f registered parts, hl => by
      obtain ⟨M, o', hm⟩ := posts_of_mem_waitingIn (o := some f) parts hl
      exact ⟨{⟨o, .walking f registered⟩} + M, o', by rw [posts, hm, add_assoc]⟩

theorem posts_of_mem_waitingIn {o : Option Path} {leaf : Task} : (ts : List Task) → leaf ∈ waitingIn ts →
    ∃ (M : Ledger) (o' : Option Path), postsOf w o ts = M + posts w o' leaf
  | [], hl => absurd hl (Multiset.notMem_zero leaf)
  | t :: ts, hl => by
      rcases Multiset.mem_add.mp hl with hl | hl
      · obtain ⟨M, o', hm⟩ := posts_of_mem_waiting (o := o) t hl
        exact ⟨M + postsOf w o ts, o', by rw [postsOf, hm, add_right_comm]⟩
      · obtain ⟨M, o', hm⟩ := posts_of_mem_waitingIn (o := o) ts hl
        exact ⟨posts w o t + M, o', by rw [postsOf, hm, add_assoc]⟩
end

end Task

theorem Asked.start {t : Task} (ht : t.Asks roots) (s : Session) (w : Surroundings) :
    Asked s w s.bare t.waiting := by
  have hwalked : s.walkedSince s.bare = [] := by simp [Session.walkedSince]
  have hcalled : s.callsSince s.bare = [] := by simp [Session.callsSince]
  have howes : t.waiting.bind (s.owes w) = 0 := by
    rw [Multiset.eq_zero_iff_forall_notMem]
    intro q hq
    obtain ⟨leaf, hl, hq⟩ := Multiset.mem_bind.mp hq
    obtain ⟨r, -, rfl⟩ := ht.waiting leaf hl
    simp [Session.owes, Task.owed, Task.reads?] at hq
  exact ⟨by simp [hwalked], by simp [hcalled], by simp [hwalked, hcalled, howes]⟩

/-- Checks of some roots, while the disk and the resolver stay as they are. -/
theorem Runs.asked {t : Task} {h : History} {c : Session × Task} (hr : Runs (s, t) h c) (ht : t.Asks roots)
    (hposts : Task.posts w none t = .asked roots) (ha : s.SpelledAlike w roots)
    (hw : ∀ m ∈ h, m.around = w) : Asked s w c.1.bare c.2.waiting := by
  induction hr with
  | rest => exact .start ht s w
  | @step h m hr hp ih =>
      have hbefore : ∀ m' ∈ h, m'.around = w := fun m' hm => hw m' (by simp [hm])
      have hm : m.around = w := hw m (by simp)
      have hsteps := (hr.steps hbefore).ledgerSteps (hposts ▸ tidy_asked s roots)
      rw [hposts] at hsteps
      have horderly := (hsteps.orderly ha (orderly_asked w s roots)).of_alike m.session.alike_bare
      have hchecking := (hr.watched ht).checking
      obtain ⟨leaf, s', t', R, E, -, hmem, hd, hwait, hwait', -, hfalls⟩ :=
        m.leafStep hp fun l hl => .inl (hchecking l hl)
      rw [hm] at hd
      obtain ⟨M, o, hM⟩ := Task.posts_of_mem_waiting (w := w) (o := none) m.task hmem
      have hasked := ih hbefore
      rw [hwait] at hasked
      rw [hM] at horderly
      have hleaf' := hasked.leafStep ha horderly hd (hchecking leaf hmem)
      rw [← hwait'] at hleaf'
      exact Asked.falls hfalls hleaf'

end ImportCheck
