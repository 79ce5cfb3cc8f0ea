import ImportCheck.Proofs.Walk.Simulation

/-!
# One leaf at a time

Seen from outside, a task is the walks that wait for their parts and the leaves that can be worked at. `LeafStep`
says once what work at a leaf of a check or of a notice does, whatever the disk and the resolver are then;
after it, walks end that have nothing more to wait for.
-/

namespace ImportCheck

/-! ## Sessions without their reports -/

/-- Whether it is more than a report. -/
def Occurrence.counts : Occurrence → Bool
  | .report _ => false
  | _ => true

def Occurrence.read? : Occurrence → Option Path
  | .read path => some path
  | _ => none

def Occurrence.call? : Occurrence → Option (Path × String)
  | .call directory specifier => some (directory, specifier)
  | _ => none

namespace Session

/-- The session without its reports. -/
def bare (s : Session) : Session := { s with trace := (s.trace.toList.filter Occurrence.counts).toArray }

/-- The places at which the disk was asked for a text, in order. -/
def reads (s : Session) : List Path := s.trace.toList.filterMap Occurrence.read?

/-- The questions that were put to the resolver, in order. -/
def calls (s : Session) : List (Path × String) := s.trace.toList.filterMap Occurrence.call?

variable (s : Session)

@[simp] theorem bare_report (e : Event) : (s.report e).bare = s.bare := by
  simp [bare, report, record, Occurrence.counts]

@[simp] theorem bare_reportAll (es : List Event) : (s.reportAll es).bare = s.bare := by
  induction es generalizing s with
  | nil => rfl
  | cons e es ih => exact (ih (s.report e)).trans (s.bare_report e)

theorem bare_record {o : Occurrence} (h : o.counts = true) : (s.record o).bare = s.bare.record o := by
  simp [bare, record, h]

@[simp] theorem bare_bare : s.bare.bare = s.bare := by simp [bare]

theorem bare_enter (x : Path) : (s.enter x).bare = s.bare.enter x := bare_record _ rfl

theorem bare_register (x : Path) : (s.register x).bare = s.bare.register x := rfl

theorem bare_link (f x : Path) : (s.link f x).bare = s.bare.link f x := rfl

theorem bare_parsed (x : Path) : (s.parsed x).bare = s.bare.parsed x := rfl

@[simp] theorem walks_bare : s.bare.walks = s.walks := by
  simp only [walks, bare, List.filterMap_filter]
  exact List.filterMap_congr fun o _ => by cases o <;> rfl

@[simp] theorem walks_record {o : Occurrence} (h : o.walk? = none) : (s.record o).walks = s.walks :=
  (s.alike_record h).walks

@[simp] theorem reads_bare : s.bare.reads = s.reads := by
  simp only [reads, bare, List.filterMap_filter]
  exact List.filterMap_congr fun o _ => by cases o <;> rfl

@[simp] theorem calls_bare : s.bare.calls = s.calls := by
  simp only [calls, bare, List.filterMap_filter]
  exact List.filterMap_congr fun o _ => by cases o <;> rfl

end Session

namespace Task

/-! ## Leaves and open walks -/

mutual
/-- The leaves that are not done. -/
def waiting : Task → Multiset Task
  | walk _ _ parts => waitingIn parts
  | group parts => waitingIn parts
  | done _ => 0
  | start request => {start request}
  | reading file goal due => {reading file goal due}
  | resolving file specifier candidate rest goal due => {resolving file specifier candidate rest goal due}

def waitingIn : List Task → Multiset Task
  | [] => 0
  | t :: ts => waiting t + waitingIn ts
end

mutual
/-- The files whose walks wait for their parts. -/
def parents : Task → Multiset Path
  | walk file _ parts => {file} + parentsIn parts
  | group parts => parentsIn parts
  | _ => 0

def parentsIn : List Task → Multiset Path
  | [] => 0
  | t :: ts => parents t + parentsIn ts
end

/-- The file of a walk that waits for its text. -/
def reads? : Task → Option Path
  | reading file (.walk _) _ => some file
  | _ => none

/-- The files that are being walked. -/
def walking (t : Task) : Multiset Path := t.parents + t.waiting.filterMap reads?

/-- The leaf that a list of positions leads to. -/
def leafAt? : List Nat → Task → Option Task
  | i :: rest, walk _ _ parts => parts[i]?.bind (leafAt? rest)
  | i :: rest, group parts => parts[i]?.bind (leafAt? rest)
  | [], start request => some (start request)
  | [], reading file goal due => some (reading file goal due)
  | [], resolving file specifier candidate rest goal due =>
      some (resolving file specifier candidate rest goal due)
  | _, _ => none

/-- The leaves that a walk of `x` starts with. -/
def follows (x : Path) (specifiers : List String) : List Task :=
  specifiers.map fun t => start (.follow x t)

/-- A walk that has nothing to wait for is done. -/
def trimmed : Task → Task
  | walk _ _ [] => done (.ok .unit)
  | t => t

end Task

/-! ## What work at a leaf does -/

/-- The candidates that are put to the resolver: each after the failure of the one before. -/
def Resolver.asks (r : Resolver) (directory : Path) (candidate : String) : List String → List String
  | [] => [candidate]
  | next :: rest =>
    match (r.answer directory candidate).result with
    | .ok _ => [candidate]
    | .error _ => candidate :: r.asks directory next rest

/-- The questions that the resolver is asked for a specifier of a file. -/
def Surroundings.questions (w : Surroundings) (file : Path) (specifier : String) : List (Path × String) :=
  match Specifier.direct? specifier with
  | some _ => []
  | none =>
    let (candidate, rest) := Specifier.candidates specifier
    (w.resolver.asks file.directory candidate rest).map (file.directory, ·)

namespace Task

variable (w : Surroundings)

/-- The questions that a leaf has still to ask. -/
def owed : Task → List (Path × String)
  | start (.follow file specifier) => w.questions file specifier
  | resolving file _ candidate rest _ _ =>
      (w.resolver.asks file.directory candidate rest).tail.map (file.directory, ·)
  | _ => []

/-- The leaf looks for the target of a specifier, and this is what it will find. -/
inductive Seeks : Task → Path → String → Except ResolverFault Path → Prop
  | follow (f : Path) (t : String) : Seeks (start (.follow f t)) f t (w.resolve f t)
  | resolving (f : Path) (t c : String) (rest : List String) (due : Nat) :
      Seeks (resolving f t c rest .follow due) f t (w.resolver.first f.directory c rest)

/-- What a check of `x` does before it has to wait. -/
inductive Entered (x : Path) (registered : Bool) (s : Session) : Session → Task → Prop
  | trusted (hv : s.isValid x = true) : Entered x registered s s (done (.ok .unit))
  | scanned {found : List Dependency} (hv : s.isValid x = false) (ht : s.isTracked x = true)
      (hf : ((s.enter x).findImports x).2 = .ok found) :
      Entered x registered s ((s.enter x).parsed x) (walk x registered (follows x (found.map (·.text))))
  | begun {due : Nat} (hv : s.isValid x = false) (ht : s.isTracked x = false) :
      Entered x registered s ((s.enter x).record (.read x)) (reading x (.walk registered) due)

/-- What work at a leaf does to a session without its reports, and what the leaf becomes. -/
inductive LeafStep (s : Session) : Task → Session → Task → Prop
  | check {x : Path} {s' : Session} {t' : Task} (h : Entered x false s s' t') :
      LeafStep s (start (.check x)) s' t'
  | ask {leaf : Task} {f : Path} {t c : String} {a : Except ResolverFault Path} {rest : List String}
      {due : Nat} (h : leaf.Seeks w f t a) (hn : (resolving f t c rest .follow due).Seeks w f t a)
      (ho : leaf.owed w = (f.directory, c) :: (resolving f t c rest .follow due).owed w) :
      LeafStep s leaf (s.record (.call f.directory c)) (resolving f t c rest .follow due)
  | unresolved {leaf : Task} {f : Path} {t : String} {cause : ResolverFault}
      (h : leaf.Seeks w f t (.error cause)) (ho : leaf.owed w = []) :
      LeafStep s leaf s (done (.error (.resolution f cause)))
  | pass {leaf : Task} {f x : Path} {t : String} (h : leaf.Seeks w f t (.ok x)) (ho : leaf.owed w = [])
      (hk : x.kind = .compiled ∨ x.kind = .declaration ∧ s.graph.hasDeclaration x = true) :
      LeafStep s leaf s (done (.ok .unit))
  | register {leaf : Task} {f x : Path} {t : String} {s' : Session} {t' : Task}
      (h : leaf.Seeks w f t (.ok x)) (ho : leaf.owed w = []) (hk : x.kind = .declaration)
      (hd : s.graph.hasDeclaration x = false) (he : Entered x true (s.register x) s' t') : LeafStep s leaf s' t'
  | link {leaf : Task} {f x : Path} {t : String} {s' : Session} {t' : Task}
      (h : leaf.Seeks w f t (.ok x)) (ho : leaf.owed w = []) (hk : x.kind = .source)
      (he : Entered x false (s.link f x) s' t') : LeafStep s leaf s' t'
  | unread {x : Path} {registered : Bool} {due : Nat} {fault : IoFault}
      (hr : w.disk.read x = .error fault) :
      LeafStep s (reading x (.walk registered) due) (s.drop x registered) (done (.error (.io x fault)))
  | store {x : Path} {registered : Bool} {due : Nat} {text : String} {found : List Dependency}
      (hr : w.disk.read x = .ok text)
      (hf : ((s.updateFile x text false).1.findImports x).2 = .ok found) :
      LeafStep s (reading x (.walk registered) due) ((s.updateFile x text false).1.parsed x)
        (walk x registered (follows x (found.map (·.text))))
  | notice {x : Path} {due : Nat} :
      LeafStep s (start (.fileChanged x)) (s.record (.read x)) (reading x .refresh due)
  | keep {x : Path} {due : Nat} {o : Outcome}
      (h : ∀ text, w.disk.read x = .ok text → s.files.text? x = some text) :
      LeafStep s (reading x .refresh due) s (done o)
  | refresh {x : Path} {due : Nat} {text : String} {o : Outcome} (hr : w.disk.read x = .ok text)
      (hc : s.files.text? x ≠ some text) :
      LeafStep s (reading x .refresh due) ((s.updateFile x text true).1.invalidateAll.resetProgram) (done o)

/-- The leaf belongs to a check. -/
inductive Checks : Task → Prop
  | check (x : Path) : Checks (start (.check x))
  | follow (f : Path) (t : String) : Checks (start (.follow f t))
  | reading (x : Path) (registered : Bool) (due : Nat) : Checks (reading x (.walk registered) due)
  | resolving (f : Path) (t c : String) (rest : List String) (due : Nat) :
      Checks (resolving f t c rest .follow due)

/-- The leaf belongs to a notice that a file has changed. -/
inductive Refreshes : Task → Prop
  | fileChanged (x : Path) : Refreshes (start (.fileChanged x))
  | reading (x : Path) (due : Nat) : Refreshes (reading x .refresh due)

variable {w : Surroundings}

theorem settle_follows (s : Session) (f : Path) (registered : Bool) (specifiers : List String) :
    settle s f registered (follows f specifiers) = (s, (walk f registered (follows f specifiers)).trimmed) := by
  cases specifiers with
  | nil => rfl
  | cons t ts => rfl

/-- A tracked file is looked at in one go. -/
theorem scan_eq {s : Session} {f : Path} (hs : s.isTracked f = true) (registered : Bool) :
    ∃ found, (s.findImports f).2 = .ok found ∧ (scan s f registered).1.bare = s.bare.parsed f ∧
      (scan s f registered).2 = (walk f registered (follows f (found.map (·.text)))).trimmed := by
  obtain ⟨tree, ht⟩ := Session.sourceTree_of_tracked hs
  have hscan : ∃ (found : List Dependency) (es : List Event), (s.findImports f) =
      ((s.parsed f).reportAll es, .ok found) := by
    unfold Session.findImports
    split
    · next hn => simp [hn] at ht
    · next s' t hs =>
      have hp : s.parsed f = s' := by simp [Session.parsed, hs]
      exact ⟨_, _, by rw [hp]⟩
  obtain ⟨found, es, he⟩ := hscan
  refine ⟨found, by rw [he], ?_⟩
  have hsettle := settle_follows (((s.parsed f).reportAll es).report (.checking f (found.map (·.text)).length))
    f registered (found.map (·.text))
  unfold scan
  simp only [he]
  unfold follows at hsettle
  rw [hsettle]
  exact ⟨by simp [Session.bare_parsed], rfl⟩

theorem findImports_bare (s : Session) (f : Path) : (s.bare.findImports f).2 = (s.findImports f).2 := by
  rw [Session.findImports_snd, Session.findImports_snd]
  rfl

variable (now : Nat)

theorem check_entered (s : Session) (x : Path) (registered : Bool) :
    ∃ t', Entered x registered s.bare (check w now s x registered).1.bare t' ∧
      (check w now s x registered).2 = t'.trimmed := by
  rw [check_eq]
  by_cases hv : s.isValid x = true
  · rw [if_pos hv]
    exact ⟨_, by simpa using .trusted hv, rfl⟩
  · rw [if_neg hv]
    rw [Bool.not_eq_true] at hv
    by_cases ht : s.isTracked x = true
    · rw [if_pos ht]
      obtain ⟨found, hf, hs, h⟩ := scan_eq (s := s.enter x) (f := x) ht registered
      rw [hs, Session.bare_enter]
      refine ⟨_, .scanned hv ht ?_, h⟩
      rw [← Session.bare_enter, findImports_bare, hf]
    · rw [if_neg ht]
      rw [Bool.not_eq_true] at ht
      refine ⟨reading x (.walk registered) (now + w.disk.delay x), ?_, rfl⟩
      rw [startReading, Session.bare_record _ rfl, Session.bare_enter]
      exact .begun hv ht

theorem reach_leafStep {s : Session} {leaf : Task} {f x : Path} {t : String}
    (h : leaf.Seeks w f t (.ok x)) (ho : leaf.owed w = []) :
    ∃ t', LeafStep w s.bare leaf (reach w now s f t .follow x).1.bare t' ∧
      (reach w now s f t .follow x).2 = t'.trimmed := by
  rw [reach_follow]
  cases hk : x.kind with
  | declaration =>
      simp only
      split
      · next hd =>
        obtain ⟨t', he, ht⟩ := check_entered (w := w) now ((s.report (.resolved f t x)).register x) x true
        rw [Session.bare_register, Session.bare_report] at he
        exact ⟨t', .register h ho hk hd he, ht⟩
      · next hd =>
        rw [Bool.not_eq_false] at hd
        have ha : s.graph.declarations.add x = s.graph.declarations := PathSet.add_of_contains hd
        have hr : ((s.report (.resolved f t x)).register x).bare = s.bare := by
          rw [Session.bare_register, Session.bare_report]
          simp only [Session.register, DependencyGraph.addDeclaration, Session.bare, ha]
        rw [hr]
        exact ⟨_, .pass h ho (.inr ⟨hk, hd⟩), rfl⟩
  | compiled => exact ⟨_, by simpa using .pass h ho (.inl hk), rfl⟩
  | source =>
      obtain ⟨t', he, ht⟩ := check_entered (w := w) now
        (((s.report (.resolved f t x)).link f x).report (.linked f x)) x false
      rw [Session.bare_report, Session.bare_link, Session.bare_report] at he
      exact ⟨t', .link h ho hk he, ht⟩

theorem startResolving_leafStep (s : Session) (f : Path) (t : String) :
    ∃ t', LeafStep w s.bare (start (.follow f t)) (startResolving w now s f t .follow).1.bare t' ∧
      (startResolving w now s f t .follow).2 = t'.trimmed := by
  have h := Seeks.follow (w := w) f t
  unfold startResolving
  cases hd : Specifier.direct? t with
  | some x =>
      have hr : w.resolve f t = .ok x := by simp [Surroundings.resolve, hd]
      rw [hr] at h
      exact reach_leafStep now h (by simp [owed, Surroundings.questions, hd])
  | none =>
      obtain ⟨c, rest, hc⟩ : ∃ c rest, Specifier.candidates t = (c, rest) := ⟨_, _, rfl⟩
      simp only [hc]
      have hr : w.resolve f t = w.resolver.first f.directory c rest := by simp [Surroundings.resolve, hd, hc]
      rw [hr] at h
      refine ⟨resolving f t c rest .follow _, ?_, rfl⟩
      rw [call, Session.bare_record _ rfl]
      refine .ask h (.resolving ..) ?_
      simp only [owed, Surroundings.questions, hd, hc]
      cases rest with
      | nil => rfl
      | cons next rest =>
          unfold Resolver.asks
          split <;> rfl

theorem finishCall_leafStep (s : Session) (f : Path) (t c : String) (rest : List String) (due : Nat) :
    ∃ t', LeafStep w s.bare (resolving f t c rest .follow due) (finishCall w now s f t c rest .follow).1.bare t' ∧
      (finishCall w now s f t c rest .follow).2 = t'.trimmed := by
  have h := Seeks.resolving (w := w) f t c rest due
  unfold finishCall
  simp only
  cases hr : (w.resolver.answer f.directory c).result with
  | ok x =>
      have hfirst : w.resolver.first f.directory c rest = .ok x := by
        cases rest <;> simp [Resolver.first, hr]
      have ho : (resolving f t c rest .follow due).owed w = [] := by
        cases rest <;> simp [owed, Resolver.asks, hr]
      rw [hfirst] at h
      have hreach := reach_leafStep (s := s.reportAll (w.resolver.answer f.directory c).reports) now h ho
      rwa [Session.bare_reportAll] at hreach
  | error cause =>
      cases rest with
      | nil =>
          have hfirst : w.resolver.first f.directory c [] = .error cause := hr
          rw [hfirst] at h
          exact ⟨_, by simpa using .unresolved h rfl, rfl⟩
      | cons next rest =>
          have hfirst : w.resolver.first f.directory c (next :: rest) =
              w.resolver.first f.directory next rest := by
            simp [Resolver.first, hr]
          rw [hfirst] at h
          simp only [call]
          refine ⟨resolving f t next rest .follow _, ?_, rfl⟩
          rw [Session.bare_record _ rfl, Session.bare_reportAll]
          refine .ask h (.resolving ..) ?_
          simp only [owed, Resolver.asks, hr, List.tail_cons]
          cases rest with
          | nil => rfl
          | cons next' rest =>
              unfold Resolver.asks
              split <;> rfl

theorem finishReading_leafStep (s : Session) (x : Path) (registered : Bool) (due : Nat) :
    ∃ t', LeafStep w s.bare (reading x (.walk registered) due) (finishReading w s x (.walk registered)).1.bare t' ∧
      (finishReading w s x (.walk registered)).2 = t'.trimmed := by
  unfold finishReading
  cases hr : w.disk.read x with
  | error fault =>
      have hb : (failWalk s x registered (.io x fault)).1.bare = s.bare.drop x registered := by
        cases registered <;>
          simp [failWalk, Session.bare, Session.drop, Session.report, Session.record, Occurrence.counts]
      simp only
      rw [hb]
      exact ⟨_, .unread hr, rfl⟩
  | ok text =>
      have ht : (storeRead s x text false).1.isTracked x = true := by
        have h := FileStore.contains_update s.files x text false x
        rw [decide_eq_true (Path.Same.refl x), Bool.true_or] at h
        exact h
      obtain ⟨found, hf, hs, h⟩ := scan_eq ht registered
      have hb : (storeRead s x text false).1.bare = (s.bare.updateFile x text false).1 :=
        Session.bare_report _ _
      simp only
      rw [hs, hb]
      refine ⟨_, .store hr ?_, h⟩
      rw [← hb, findImports_bare, hf]

theorem refresh_leafStep (s : Session) (x : Path) (due : Nat) :
    ∃ t', LeafStep w s.bare (reading x .refresh due) (finishReading w s x .refresh).1.bare t' ∧
      (finishReading w s x .refresh).2 = t'.trimmed := by
  cases hr : w.disk.read x with
  | error fault =>
      simp only [finishReading, hr]
      exact ⟨_, .keep (by simp [hr]), rfl⟩
  | ok text =>
      have hchanged : (s.updateFile x text true).2 = true ↔ s.files.text? x ≠ some text := by
        simp only [Session.updateFile, FileStore.update, FileStore.text?]
        cases s.files.get? x with
        | none => simp
        | some r => by_cases h : r.text = text <;> simp [h]
      by_cases hc : (s.updateFile x text true).2 = true
      · have hfinish : (finishReading w s x .refresh).1.bare =
            (s.bare.updateFile x text true).1.invalidateAll.resetProgram := by
          simp only [finishReading, hr, storeRead, hc, ↓reduceIte, Session.bare_report]
          exact congrArg (·.invalidateAll.resetProgram) (Session.bare_report _ (.fileRead x true))
        rw [hfinish]
        exact ⟨_, .refresh hr (hchanged.mp hc), by simp only [finishReading, hr]; rfl⟩
      · have htext : s.files.text? x = some text := by
          by_contra hn
          exact hc (hchanged.mpr hn)
        have hkeep : (s.updateFile x text true).1 = s := by
          obtain ⟨r, hget, hrt⟩ : ∃ r, s.files.get? x = some r ∧ r.text = text := by
            simpa [FileStore.text?] using htext
          simp [Session.updateFile, FileStore.update, hget, hrt]
        have hfinish : (finishReading w s x .refresh).1.bare = s.bare := by
          simp only [finishReading, hr, storeRead, hc, Bool.false_eq_true, ↓reduceIte, hkeep, Session.bare_report]
        rw [hfinish]
        refine ⟨_, .keep fun text' h => ?_, by simp only [finishReading, hr]; rfl⟩
        rw [hr] at h
        cases h
        exact htext

/-- Work at a leaf of a check or of a notice is one of these steps. -/
theorem act_leafStep (s : Session) {leaf : Task} (h : leaf.Checks ∨ leaf.Refreshes) :
    ∃ t', LeafStep w s.bare leaf (advance w now [] s leaf).1.bare t' ∧
      (advance w now [] s leaf).2 = t'.trimmed := by
  rcases h with h | h
  · cases h with
    | check x =>
        obtain ⟨t', he, ht⟩ := check_entered (w := w) now s x false
        exact ⟨t', .check he, ht⟩
    | follow f t => exact startResolving_leafStep now s f t
    | reading x registered due => exact finishReading_leafStep s x registered due
    | resolving f t c rest due => exact finishCall_leafStep now s f t c rest due
  · cases h with
    | fileChanged x =>
        refine ⟨reading x .refresh (now + w.disk.delay x), ?_, rfl⟩
        have hb : (advance w now [] s (start (.fileChanged x))).1.bare = s.bare.record (.read x) :=
          Session.bare_record _ rfl
        exact hb ▸ .notice
    | reading x due => exact refresh_leafStep s x due

end Task

end ImportCheck
