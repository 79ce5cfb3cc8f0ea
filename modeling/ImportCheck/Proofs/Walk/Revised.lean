import ImportCheck.Proofs.Walk.History
import ImportCheck.Proofs.Walk.Parsed

/-!
# What any work does to the texts and to their parses

Whatever is asked of a session, the store and the service's memory change in few ways: a text is updated, a tracked
file is parsed, and the memory is given up. Only a seeding does more, for it starts the count of versions again.
-/

namespace ImportCheck

namespace Session

variable {s s' : Session} {p x : Path}

/-- One change to the store or to the remembered parses, whatever else changes. -/
inductive Revision : Session → Session → Prop
  | none {s s' : Session} (hc : s'.cwd = s.cwd) (hf : s'.files = s.files) (hs : s'.service.parsed = s.service.parsed) :
      Revision s s'
  | update (s : Session) (x : Path) (text : String) (checked : Bool) :
      Revision s (s.updateFile x text checked).1
  | parse {s : Session} {x : Path} (hx : s.isTracked x = true) : Revision s (s.parsed x)
  | forget {s s' : Session} (hc : s'.cwd = s.cwd) (hf : s'.files = s.files) (hs : s'.service.parsed = ∅) :
      Revision s s'

abbrev Revised : Session → Session → Prop := Relation.ReflTransGen Revision

theorem Revised.of_same (hc : s'.cwd = s.cwd) (hf : s'.files = s.files)
    (hs : s'.service.parsed = s.service.parsed) : s.Revised s' :=
  .single (.none hc hf hs)

theorem Alike.revised (h : s.Alike s') : s.Revised s' := .of_same h.cwd h.files (by rw [h.service])

theorem Revised.of_updateFile (s : Session) (x : Path) (text : String) (checked : Bool) :
    s.Revised (s.updateFile x text checked).1 :=
  .single (.update s x text checked)

/-- A text that the session was given, or that was read for it, is seeded. -/
def seeded (s : Session) : Option (Path × String) → Session
  | none => s
  | some (x, text) => s.addFile x text

/-! ## Coherence -/

theorem Revision.coherentAt (h : s.Revision s') (hc : s.CoherentAt p) : s'.CoherentAt p := by
  cases h with
  | none _ hf hs => exact coherentAt_of_same hc (by rw [hf]) (by rw [hs])
  | update x text checked => exact hc.updateFile x text checked
  | parse hx => exact hc.parsed hx
  | forget _ _ hs => exact coherentAt_of_no_parse (by rw [hs]; rfl)

theorem Revised.coherentAt (h : s.Revised s') (hc : s.CoherentAt p) : s'.CoherentAt p := by
  induction h with
  | refl => exact hc
  | tail _ h ih => exact h.coherentAt ih

theorem Revision.cwd_eq (h : s.Revision s') : s'.cwd = s.cwd := by
  cases h with
  | none hc => exact hc
  | forget hc => exact hc
  | _ => rfl

theorem Revised.cwd_eq (h : s.Revised s') : s'.cwd = s.cwd := by
  induction h with
  | refl => rfl
  | tail _ h ih => exact h.cwd_eq.trans ih

/-- A seeding keeps the place coherent if it is about another one, or agrees with what is remembered of it. -/
theorem CoherentAt.addFile (hc : s.CoherentAt p) {text : String}
    (hn : x.Same p → ∀ version tree, s.service.parsed.get? p = some (version, tree) →
      version = 0 ∧ tree.IsParse p text) : (s.addFile x text).CoherentAt p := by
  by_cases hs : x.Same p
  · intro version tree hp
    obtain ⟨rfl, htree⟩ := hn hs version tree hp
    have hget : (s.addFile x text).files.get? p = some { path := x, text, version := 0 } := by
      simp [Session.addFile, FileStore.get?_add, hs]
    exact ⟨_, hget, le_rfl, fun _ => htree⟩
  · exact coherentAt_of_same hc (by simp [Session.addFile, FileStore.get?_add, hs]) rfl

end Session

namespace Task

/-! ## Work that seeds nothing -/

variable (w : Surroundings) (now : Nat) (s : Session)

theorem revised_findImports (f : Path) : s.Revised (s.findImports f).1 := by
  cases ht : s.isTracked f with
  | true =>
      obtain ⟨-, -, halike⟩ := Session.findImports_of_tracked ht
      exact .head (.parse ht) halike.revised
  | false =>
      have he : (s.findImports f).1 = s := by simp [Session.findImports, Session.sourceTree_of_untracked ht]
      rw [he]

theorem revised_sourceTree (f : Path) : s.Revised (s.sourceTree f).1 := by
  cases ht : s.isTracked f with
  | true => exact .single (.parse ht)
  | false => rw [Session.sourceTree_of_untracked ht]

theorem revised_failWalk (f : Path) (registered : Bool) (e : Failure) :
    s.Revised (failWalk s f registered e).1 := by
  cases registered <;> exact .of_same rfl rfl rfl

theorem revised_settle (f : Path) (registered : Bool) (parts : List Task) :
    s.Revised (settle s f registered parts).1 := by
  unfold settle
  split
  · split
    · exact revised_failWalk ..
    · exact .refl
  · exact .refl

theorem revised_scan (f : Path) (registered : Bool) : s.Revised (scan s f registered).1 := by
  have hfound := revised_findImports s f
  unfold scan
  split
  · next s' e h =>
    rw [h] at hfound
    exact hfound.trans (revised_failWalk ..)
  · next s' found h =>
    rw [h] at hfound
    exact (hfound.trans (Session.alike_report s' _).revised).trans (revised_settle ..)

theorem revised_check (f : Path) (registered : Bool) : s.Revised (check w now s f registered).1 := by
  rw [check_eq]
  have henter : s.Revised (s.enter f) := .of_same rfl rfl rfl
  split
  · exact (s.alike_report _).revised
  · split
    · exact henter.trans (revised_scan ..)
    · exact henter.trans (Session.alike_record _ rfl).revised

theorem revised_reach (f : Path) (t : String) (goal : ResolveGoal) (x : Path) :
    s.Revised (reach w now s f t goal x).1 := by
  have hreport : s.Revised (s.report (.resolved f t x)) := (s.alike_report _).revised
  cases goal with
  | deliver => exact hreport
  | follow =>
      rw [reach_follow]
      refine hreport.trans ?_
      generalize s.report (.resolved f t x) = s₁
      have hregister : s₁.Revised (s₁.register x) := .of_same rfl rfl rfl
      have hlink : s₁.Revised ((s₁.link f x).report (.linked f x)) := .of_same rfl rfl rfl
      cases x.kind with
      | declaration =>
          simp only
          split
          · exact hregister.trans (revised_check ..)
          · exact hregister
      | compiled => exact (Session.alike_report _ _).revised
      | source => exact hlink.trans (revised_check ..)

theorem revised_startResolving (f : Path) (t : String) (goal : ResolveGoal) :
    s.Revised (startResolving w now s f t goal).1 := by
  unfold startResolving
  split
  · exact revised_reach ..
  · exact (Session.alike_record _ rfl).revised

theorem revised_finishCall (f : Path) (t c : String) (rest : List String) (goal : ResolveGoal) :
    s.Revised (finishCall w now s f t c rest goal).1 := by
  have hreports : s.Revised (s.reportAll (w.resolver.answer f.directory c).reports) :=
    (s.alike_reportAll _).revised
  unfold finishCall
  simp only
  split
  · exact hreports.trans (revised_reach ..)
  · exact hreports.trans (Session.alike_record _ rfl).revised
  · exact hreports

theorem revised_storeRead (f : Path) (text : String) (checked : Bool) :
    s.Revised (storeRead s f text checked).1 :=
  (Session.Revised.of_updateFile s f text checked).trans (Session.alike_report _ _).revised

theorem revised_emit (f : Path) : s.Revised (s.emit f).1 := by
  have hwarm : s.Revised s.warmUp := by
    unfold Session.warmUp
    split
    · exact .refl
    · exact Session.Revised.of_same rfl rfl rfl
  have hbuilt : s.warmUp.Revised s.warmUp.currentProgram.1 := by
    unfold Session.currentProgram
    split
    · exact .refl
    · exact Session.Revised.of_same rfl rfl rfl
  refine (hwarm.trans hbuilt).trans ?_
  unfold Session.emit
  simp only
  split
  · exact (Session.alike_report _ _).revised
  · split
    · exact .refl
    · exact (Session.alike_report _ _).revised

theorem revised_logMessage (message : String) : s.Revised (s.logMessage message) := by
  unfold Session.logMessage
  split
  · exact (Session.alike_report _ _).revised
  · exact .refl

/-! ## Any work -/

/-- The text that is seeded when the leaf is worked at, and the place where it is. -/
def seeds? : Task → Option (Path × String)
  | start (.addFile x text) => some (x, text)
  | reading x .add _ => (w.disk.read x).toOption.map (x, ·)
  | _ => none

theorem revised_finishReading (f : Path) (goal : ReadGoal) (due : Nat) :
    (s.seeded ((reading f goal due).seeds? w)).Revised (finishReading w s f goal).1 := by
  cases hr : w.disk.read f with
  | error fault =>
      have hseeded : s.seeded ((reading f goal due).seeds? w) = s := by
        cases goal <;> simp [seeds?, hr, Session.seeded, Except.toOption]
      rw [hseeded]
      cases goal with
      | walk registered => simpa only [finishReading, hr] using revised_failWalk s f registered _
      | _ => simpa only [finishReading, hr] using .refl
  | ok text =>
      cases goal with
      | add => simpa [seeds?, finishReading, hr, Session.seeded, Except.toOption] using .refl
      | deliver => simpa [seeds?, finishReading, hr, Session.seeded] using .refl
      | update checked => simpa [seeds?, finishReading, hr, Session.seeded] using revised_storeRead s f text checked
      | walk registered =>
          simpa [seeds?, finishReading, hr, Session.seeded] using
            (revised_storeRead s f text false).trans (revised_scan ..)
      | refresh =>
          simp only [seeds?, finishReading, hr, Session.seeded]
          refine (revised_storeRead s f text true).trans ?_
          split
          · exact Session.Revised.of_same rfl rfl rfl
          · exact .refl

theorem revised_begin (request : Request) :
    (s.seeded ((start request).seeds? w)).Revised (begin w now s request).1 := by
  cases request with
  | check f => exact revised_check ..
  | follow f t => exact revised_startResolving ..
  | resolve f t => exact revised_startResolving ..
  | findImports f => exact revised_findImports ..
  | readTextNow f =>
      exact (Session.alike_record s rfl).revised.trans (revised_finishReading w _ f .deliver 0)
  | readAndUpdateNow f checked =>
      refine (Session.alike_record s (o := .read f) rfl).revised.trans ?_
      simp only [begin]
      split
      · exact .refl
      · exact Session.Revised.of_updateFile ..
  | emit f => exact revised_emit s f
  | addFile f text => exact .refl
  | updateFile f text checked => exact .of_updateFile ..
  | resetService => exact .single (.forget rfl rfl rfl)
  | sourceTree f => exact revised_sourceTree ..
  | logMessage message => exact revised_logMessage s message
  | _ => exact .of_same rfl rfl rfl

variable {w s}

theorem revised_leaf {leaf : Task} (hp : leaf.waitsAt [] = true) :
    (s.seeded (leaf.seeds? w)).Revised (leaf.advance w now [] s).1 := by
  cases leaf with
  | start request => exact revised_begin ..
  | reading f goal due => exact revised_finishReading ..
  | resolving f t c rest goal due => exact revised_finishCall ..
  | _ => simp [waitsAt] at hp

/-- Whichever leaf is worked at, and whatever it is. -/
theorem revised_advance {t : Task} {place : List Nat} (hp : t.waitsAt place = true) :
    (s.seeded ((t.leafAt? place).bind (seeds? w))).Revised (t.advance w now place s).1 := by
  induction place generalizing t with
  | nil =>
      have hl : t.leafAt? [] = some t := by cases t <;> simp_all [waitsAt, leafAt?]
      rw [hl]
      exact revised_leaf now hp
  | cons i rest ih =>
      cases t with
      | walk f registered parts =>
          cases hi : parts[i]? with
          | none => simp [waitsAt, hi] at hp
          | some part =>
              simp only [leafAt?, advance, hi, Option.bind_some]
              exact (ih (by simpa [waitsAt, hi] using hp)).trans (revised_settle ..)
      | group parts =>
          cases hi : parts[i]? with
          | none => simp [waitsAt, hi] at hp
          | some part =>
              simp only [leafAt?, advance, hi, Option.bind_some]
              exact ih (by simpa [waitsAt, hi] using hp)
      | _ => simp [waitsAt] at hp

end Task

/-! ## Runs -/

namespace Moment

/-- The text that is seeded, and the place where it is. -/
def seeds? (m : Moment) : Option (Path × String) := m.leaf?.bind (Task.seeds? m.around)

theorem revised_after (m : Moment) (hp : m.task.waitsAt m.place = true) :
    (m.session.seeded m.seeds?).Revised m.after.1 :=
  Task.revised_advance m.now hp

end Moment

/-- What is seeded at the place agrees with what is remembered of it: no parse, or one of that text at version 0. -/
def History.SeedsInStep (h : History) (p : Path) : Prop :=
  ∀ m ∈ h, ∀ x text, m.seeds? = some (x, text) → x.Same p → ∀ version tree,
    m.session.service.parsed.get? p = some (version, tree) → version = 0 ∧ tree.IsParse p text

namespace Runs

variable {c c' : Session × Task} {h : History} {p : Path}

theorem cwd_eq (hr : Runs c h c') : c'.1.cwd = c.1.cwd := by
  induction hr with
  | rest => rfl
  | @step h m hr hp ih =>
      have hseeded : (m.session.seeded m.seeds?).cwd = m.session.cwd := by
        cases m.seeds? <;> rfl
      exact ((m.revised_after hp).cwd_eq.trans hseeded).trans ih

/-- What is remembered of a place stays coherent with what is stored there, in a run of any requests. -/
theorem coherentAt (hr : Runs c h c') (hseeds : h.SeedsInStep p) (hc : c.1.CoherentAt p) :
    c'.1.CoherentAt p := by
  induction hr with
  | rest => exact hc
  | @step h m hr hp ih =>
      have hm : m.session.CoherentAt p := ih fun m' hm' => hseeds m' (List.mem_append.mpr (.inl hm'))
      refine (m.revised_after hp).coherentAt ?_
      cases hseed : m.seeds? with
      | none => exact hm
      | some e => exact hm.addFile (hseeds m (by simp) e.1 e.2 hseed)

end Runs

end ImportCheck
