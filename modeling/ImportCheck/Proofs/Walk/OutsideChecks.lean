import ImportCheck.Proofs.Walk.History

/-!
# Work that belongs to no check

Requests that read, store, emit or look something up leave links, registrations and walks alone. Marks they leave
alone too, unless a change is noticed or all marks are asked to go.
-/

namespace ImportCheck

namespace Session

/-- Links, registrations, marks and walks are as they were, and what was tracked still is. -/
structure Steady (s s' : Session) : Prop where
  graph : s'.graph = s.graph
  valid : s'.valid = s.valid
  walks : s'.walks = s.walks
  tracked : ∀ p, s.isTracked p = true → s'.isTracked p = true

variable {s s' s'' : Session}

theorem Steady.refl (s : Session) : s.Steady s := ⟨rfl, rfl, rfl, fun _ => id⟩

theorem Steady.trans (h : s.Steady s') (h' : s'.Steady s'') : s.Steady s'' :=
  ⟨h'.graph.trans h.graph, h'.valid.trans h.valid, h'.walks.trans h.walks, fun p hp => h'.tracked p (h.tracked p hp)⟩

theorem Alike.steady (h : s.Alike s') : s.Steady s' :=
  ⟨h.graph, h.valid, h.walks, fun p hp => (h.isTracked_eq p).trans hp⟩

variable (s)

theorem steady_parsed (f : Path) : s.Steady (s.parsed f) := ⟨rfl, rfl, rfl, fun _ => id⟩

theorem steady_updateFile (f : Path) (text : String) (checked : Bool) : s.Steady (s.updateFile f text checked).1 :=
  ⟨rfl, rfl, rfl, fun p hp => by rw [isTracked_updateFile, hp, Bool.or_true]⟩

theorem steady_addFile (f : Path) (text : String) : s.Steady (s.addFile f text) :=
  ⟨rfl, rfl, rfl, fun p hp => by
    rw [isTracked, FileStore.contains_eq_isSome] at hp ⊢
    by_cases h : f.Same p <;> simp [addFile, FileStore.get?_add, h, hp]⟩

theorem steady_findImports (f : Path) : s.Steady (s.findImports f).1 := by
  cases ht : s.isTracked f with
  | true =>
      obtain ⟨-, -, halike⟩ := findImports_of_tracked ht
      exact (s.steady_parsed f).trans halike.steady
  | false =>
      have he : (s.findImports f).1 = s := by simp [findImports, sourceTree_of_untracked ht]
      rw [he]
      exact .refl s

theorem steady_emit (f : Path) : s.Steady (s.emit f).1 := by
  have hwarm : s.Steady s.warmUp := by
    unfold warmUp
    split
    · exact .refl s
    · exact ⟨rfl, rfl, walks_record _ rfl, fun _ => id⟩
  have hprogram : s.warmUp.Steady s.warmUp.currentProgram.1 := by
    unfold currentProgram
    split
    · exact .refl _
    · exact ⟨rfl, rfl, rfl, fun _ => id⟩
  refine (hwarm.trans hprogram).trans ?_
  unfold emit
  simp only
  split
  · exact (alike_report _ _).steady
  · split
    · exact .refl _
    · exact (alike_report _ _).steady

theorem steady_logMessage (message : String) : s.Steady (s.logMessage message) := by
  unfold logMessage
  split
  · exact (s.alike_report _).steady
  · exact .refl s

theorem steady_storeRead (f : Path) (text : String) (checked : Bool) :
    s.Steady (Task.storeRead s f text checked).1 :=
  (s.steady_updateFile f text checked).trans (alike_report _ _).steady

end Session

namespace Task

variable (w : Surroundings) (now : Nat) (s : Session)

/-- Whether all marks go when the leaf is worked at. -/
def clears : Task → Bool
  | start .invalidateAll => true
  | reading f .refresh _ => (w.disk.read f).toOption.any fun text => (s.updateFile f text true).2
  | _ => false

theorem reads?_of_not_checks {leaf : Task} (h : ¬leaf.Checks) : leaf.reads? = none := by
  cases leaf with
  | reading x goal due =>
      cases goal with
      | walk registered => exact absurd (.reading x registered due) h
      | _ => rfl
  | _ => rfl

/-- What work at a leaf leaves that belongs to no check. -/
structure OutsideChecks (leaf : Task) (c : Session × Task) : Prop where
  steady : (if leaf.clears w s then s.invalidateAll else s).Steady c.1
  parents : c.2.parents = 0
  aside : ∀ l ∈ c.2.waiting, ¬l.Checks

namespace OutsideChecks

variable {w s} {leaf : Task} {s' : Session}

theorem reads {c : Session × Task} (h : OutsideChecks w s leaf c) : c.2.waiting.filterMap reads? = 0 :=
  filterMap_reads?_eq_zero fun l hl => reads?_of_not_checks (h.aside l hl)

theorem of_done {o : Outcome} (h : (if leaf.clears w s then s.invalidateAll else s).Steady s') :
    OutsideChecks w s leaf (s', done o) :=
  ⟨h, rfl, by simp [waiting]⟩

theorem of_reading {f : Path} {goal : ReadGoal} {due : Nat} (hc : leaf.clears w s = false)
    (hg : ∀ registered, goal ≠ .walk registered) :
    OutsideChecks w s leaf (s.record (.read f), reading f goal due) := by
  refine ⟨by simpa [hc] using (s.alike_record rfl).steady, rfl, fun l hl => ?_⟩
  obtain rfl := Multiset.mem_singleton.mp hl
  rintro ⟨⟩
  exact hg _ rfl

theorem of_call {f : Path} {t c : String} {rest : List String} (hc : leaf.clears w s = false) (h : s.Steady s')
    (now : Nat) : OutsideChecks w s leaf (call w now s' f t c rest .deliver) := by
  refine ⟨?_, rfl, fun l hl => ?_⟩
  · rw [hc]
    exact h.trans (s'.alike_record rfl).steady
  · obtain rfl := Multiset.mem_singleton.mp hl
    rintro ⟨⟩

end OutsideChecks

/-- What is found at a place is a leaf. -/
theorem leafAt?_leaf {place : List Nat} {t leaf : Task} (h : t.leafAt? place = some leaf) :
    leaf.leafAt? [] = some leaf := by
  induction place generalizing t with
  | nil => exact eq_of_leafAt?_nil h ▸ h
  | cons i rest ih =>
      cases t with
      | walk f registered parts =>
          obtain ⟨part, -, hl⟩ := Option.bind_eq_some_iff.mp h
          exact ih hl
      | group parts =>
          obtain ⟨part, -, hl⟩ := Option.bind_eq_some_iff.mp h
          exact ih hl
      | _ => simp [leafAt?] at h

theorem startResolving_outsideChecks (f : Path) (t : String) :
    OutsideChecks w s (start (.resolve f t)) (startResolving w now s f t .deliver) := by
  unfold startResolving
  split
  · exact .of_done (s.alike_report _).steady
  · exact .of_call rfl (.refl s) now

theorem finishCall_outsideChecks (f : Path) (t c : String) (rest : List String) (due : Nat) :
    OutsideChecks w s (resolving f t c rest .deliver due) (finishCall w now s f t c rest .deliver) := by
  have hreports := (s.alike_reportAll (w.resolver.answer f.directory c).reports).steady
  unfold finishCall
  simp only
  split
  · exact .of_done (hreports.trans (Session.alike_report _ _).steady)
  · exact .of_call rfl hreports now
  · exact .of_done hreports

theorem finishReading_outsideChecks (f : Path) (goal : ReadGoal) (due : Nat)
    (hg : ∀ registered, goal ≠ .walk registered) :
    OutsideChecks w s (reading f goal due) (finishReading w s f goal) := by
  cases hr : w.disk.read f with
  | error fault =>
      have hkept : (reading f goal due).clears w s = false := by
        cases goal <;> simp [clears, hr, Except.toOption]
      have hsteady : (if (reading f goal due).clears w s then s.invalidateAll else s).Steady s := by
        rw [hkept]
        exact .refl s
      cases goal with
      | walk registered => exact absurd rfl (hg registered)
      | _ => simpa only [finishReading, hr] using .of_done hsteady
  | ok text =>
      cases goal with
      | walk registered => exact absurd rfl (hg registered)
      | deliver => simpa only [finishReading, hr] using .of_done (.refl s)
      | add => simpa only [finishReading, hr] using .of_done (s.steady_addFile f text)
      | update checked => simpa only [finishReading, hr] using .of_done (s.steady_storeRead f text checked)
      | refresh =>
          have hkept : (reading f .refresh due).clears w s = (storeRead s f text true).2 := by
            simp [clears, hr, Except.toOption, storeRead]
          have hstored := s.steady_storeRead f text true
          simp only [finishReading, hr]
          refine .of_done ?_
          rw [hkept]
          generalize storeRead s f text true = stored at hstored ⊢
          obtain ⟨s₁, changed⟩ := stored
          cases changed with
          | true => exact ⟨hstored.graph, rfl, (Session.walks_record _ rfl).trans hstored.walks, hstored.tracked⟩
          | false => exact hstored

theorem begin_outsideChecks (request : Request) (h : ¬(start request).Checks) :
    OutsideChecks w s (start request) (begin w now s request) := by
  cases request with
  | check f => exact absurd (.check f) h
  | follow f t => exact absurd (.follow f t) h
  | resolve f t => exact startResolving_outsideChecks w now s f t
  | findImports f => exact .of_done (s.steady_findImports f)
  | readText f => exact .of_reading rfl (by simp)
  | readTextNow f =>
      have hread := finishReading_outsideChecks w (s.record (.read f)) f .deliver 0 (by simp)
      exact ⟨(s.alike_record rfl).steady.trans hread.steady, hread.parents, hread.aside⟩
  | readAndAdd f => exact .of_reading rfl (by simp)
  | readAndUpdate f checked => exact .of_reading rfl (by simp)
  | readAndUpdateNow f checked =>
      have hread : s.Steady (s.record (.read f)) := (s.alike_record rfl).steady
      simp only [begin]
      split
      · exact .of_done hread
      · exact .of_done (hread.trans (Session.steady_updateFile ..))
  | fileChanged f => exact .of_reading rfl (by simp)
  | emit f => exact .of_done (s.steady_emit f)
  | addFile f text => exact .of_done (s.steady_addFile f text)
  | updateFile f text checked => exact .of_done (s.steady_updateFile f text checked)
  | invalidateAll => exact .of_done (.refl _)
  | resetProgram => exact .of_done ⟨rfl, rfl, rfl, fun _ => id⟩
  | resetService => exact .of_done ⟨rfl, rfl, Session.walks_record _ rfl, fun _ => id⟩
  | sourceTree f => exact .of_done (s.steady_parsed f)
  | logMessage message => exact .of_done (s.steady_logMessage message)

/-- Whatever leaf it is, if it belongs to no check. -/
theorem advance_outsideChecks {place : List Nat} {t leaf : Task} (hl : t.leafAt? place = some leaf)
    (hc : ¬leaf.Checks) : OutsideChecks w s leaf (advance w now [] s leaf) := by
  have hself := leafAt?_leaf hl
  cases leaf with
  | start request => exact begin_outsideChecks w now s request hc
  | reading f goal due =>
      refine finishReading_outsideChecks w s f goal due fun registered he => hc ?_
      rw [he]
      exact .reading f registered due
  | resolving f t c rest goal due =>
      cases goal with
      | deliver => exact finishCall_outsideChecks w now s f t c rest due
      | follow => exact absurd (.resolving f t c rest due) hc
  | _ => simp [leafAt?] at hself

end Task

end ImportCheck
