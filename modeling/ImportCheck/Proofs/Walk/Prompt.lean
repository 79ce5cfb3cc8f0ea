import ImportCheck.Proofs.Walk.History

/-!
# Requests that are done in a step or two

A request that has nothing to wait for is done as soon as it is begun. A notice of a change reads the file once,
and nothing can come between.
-/

namespace ImportCheck

variable {s s' : Session} {f : Path} {request : Request} {h : History} {o : Outcome}

/-- Work at a task that is a leaf. -/
theorem Moment.after_leaf {m : Moment} {t : Task} (he : (m.session, m.task) = (s, t))
    (hp : m.task.waitsAt m.place = true) (hl : t.leafAt? [] = some t) :
    m.after = t.advance m.around m.now [] s := by
  obtain ⟨rfl, rfl⟩ := Prod.mk.inj he
  cases hplace : m.place with
  | nil => rw [Moment.after, hplace]
  | cons i rest =>
      rw [hplace] at hp
      cases ht : m.task <;> simp_all [Task.waitsAt, Task.leafAt?]

theorem Runs.of_begun (hb : ∀ w now, ∃ s' o, Task.begin w now s request = (s', .done o))
    (hr : Runs (s, .start request) h (s', .done o)) :
    ∃ m ∈ h, (s', .done o) = Task.begin m.around m.now s request := by
  have hall : ∀ h c, Runs (s, .start request) h c →
      c = (s, .start request) ∨ ∃ m ∈ h, c = Task.begin m.around m.now s request := by
    intro h c hr
    induction hr with
    | rest => exact .inl rfl
    | @step h m hr hp ih =>
        rcases ih with he | ⟨m', -, he⟩
        · exact .inr ⟨m, by simp, Moment.after_leaf he hp rfl⟩
        · obtain ⟨s₁, o₁, hdone⟩ := hb m'.around m'.now
          rw [(Prod.mk.inj (he.trans hdone)).2, Task.waitsAt_done] at hp
          cases hp
  exact (hall h _ hr).resolve_left (by simp)

/-! ## Notices of changes -/

theorem Task.storeRead_alike (s : Session) (f : Path) (text : String) (checked : Bool) :
    (s.updateFile f text checked).1.Alike (storeRead s f text checked).1 := Session.alike_report _ _

theorem Session.updateFile_of_unchanged {text : String} {checked : Bool} (h : (s.updateFile f text checked).2 = false) :
    (s.updateFile f text checked).1 = s :=
  congrArg (fun files => { s with files }) (FileStore.update_of_unchanged h)

/-- A change that is found starts a new pass and drops the program. Otherwise nothing is left but a report. -/
theorem Task.finishReading_refresh (w : Surroundings) (s : Session) (f : Path) :
    ∃ s' o, finishReading w s f .refresh = (s', done o) ∧
      (o ≠ .ok (.flag true) ∧ s'.program = s.program ∧ s.Alike s' ∨
        o = .ok (.flag true) ∧ s'.program = none ∧
          ∃ text, (s.updateFile f text true).1.invalidateAll.Alike s') := by
  cases hr : w.disk.read f with
  | error fault => exact ⟨s, .error (.io f fault), by simp only [finishReading, hr], .inl ⟨by simp, rfl, .refl s⟩⟩
  | ok text =>
      have hstored := storeRead_alike s f text true
      have hprogram : (storeRead s f text true).1.program = s.program := rfl
      have hflag : (storeRead s f text true).2 = (s.updateFile f text true).2 := rfl
      simp only [finishReading, hr]
      generalize storeRead s f text true = stored at hstored hprogram hflag ⊢
      obtain ⟨s₁, changed⟩ := stored
      cases changed with
      | true =>
          refine ⟨_, _, rfl, .inr ⟨rfl, rfl, text, ?_⟩⟩
          have hnew : (s.updateFile f text true).1.invalidateAll.Alike s₁.invalidateAll.resetProgram :=
            ⟨hstored.cwd, hstored.files, hstored.graph, rfl, hstored.service, hstored.walks⟩
          exact hnew.trans (Session.alike_report _ _)
      | false =>
          rw [Session.updateFile_of_unchanged hflag.symm] at hstored
          exact ⟨_, _, rfl, .inl ⟨by simp, hprogram, hstored⟩⟩

theorem Runs.of_fileChanged (hr : Runs (s, .start (.fileChanged f)) h (s', .done o)) :
    ∃ m ∈ h, (s', .done o) = Task.finishReading m.around (s.record (.read f)) f .refresh := by
  have hall : ∀ h c, Runs (s, .start (.fileChanged f)) h c → c = (s, .start (.fileChanged f)) ∨
      (∃ due, c = (s.record (.read f), .reading f .refresh due)) ∨
      ∃ m ∈ h, c = Task.finishReading m.around (s.record (.read f)) f .refresh := by
    intro h c hr
    induction hr with
    | rest => exact .inl rfl
    | @step h m hr hp ih =>
        rcases ih with he | ⟨due, he⟩ | ⟨m', -, he⟩
        · exact .inr (.inl ⟨_, Moment.after_leaf he hp rfl⟩)
        · exact .inr (.inr ⟨m, by simp, Moment.after_leaf he hp rfl⟩)
        · obtain ⟨s₁, o₁, hdone, -⟩ := Task.finishReading_refresh m'.around (s.record (.read f)) f
          rw [(Prod.mk.inj (he.trans hdone)).2, Task.waitsAt_done] at hp
          cases hp
  rcases hall h _ hr with he | ⟨due, he⟩ | he
  · cases he
  · cases he
  · exact he

/-- What a notice of a change leaves. -/
theorem Runs.fileChanged (hr : Runs (s, .start (.fileChanged f)) h (s', .done o)) :
    o ≠ .ok (.flag true) ∧ s'.program = s.program ∧ s.Alike s' ∨
      o = .ok (.flag true) ∧ s'.program = none ∧
        ∃ text, (s.updateFile f text true).1.invalidateAll.Alike s' := by
  have hread : s.Alike (s.record (.read f)) := s.alike_record rfl
  obtain ⟨m, -, hm⟩ := hr.of_fileChanged
  obtain ⟨s₁, o₁, hdone, hcases⟩ := Task.finishReading_refresh m.around (s.record (.read f)) f
  obtain ⟨rfl, ho⟩ := Prod.mk.inj (hm.trans hdone)
  obtain rfl : o = o₁ := Task.done.inj ho
  rcases hcases with ⟨hne, hprogram, halike⟩ | ⟨rfl, hprogram, text, halike⟩
  · exact .inl ⟨hne, hprogram, hread.trans halike⟩
  · exact .inr ⟨rfl, hprogram, text, halike.cwd, halike.files, halike.graph, halike.valid, halike.service,
      halike.walks.trans hread.walks⟩

end ImportCheck
