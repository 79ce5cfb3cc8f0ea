import ImportCheck.Proofs.Check.Footprint
import ImportCheck.Proofs.Check.Retry
import ImportCheck.Proofs.Walk.Questions
import ImportCheck.Proofs.Walk.Together

/-!
# Checks that overlap

Which of several checks walks a file that they share depends on what comes back first. Where every file that is
reached can be had and resolved that makes no difference in the end: each file is walked by one of them, and the
session is left as if they had been made one after another.
-/

namespace ImportCheck

/-- Where checks of some roots leave a session when they all succeed. -/
structure Session.Gathered (s : Session) (w : Surroundings) (roots : List Path) (s' : Session) : Prop where
  valid : ∀ p, s'.isValid p = true ↔ s.isValid p = true ∨ ∃ f, s.Reached w roots f ∧ f.Same p
  declared : ∀ p, s'.graph.hasDeclaration p = true ↔ s.graph.hasDeclaration p = true ∨
    ∃ f, s.Reached w roots f ∧ ∃ x ∈ s.targets w f, x.kind = .declaration ∧ x.Same p
  links : ∀ f, s.Reached w roots f → ∀ q,
    s'.graph.hasDependency f q = true ↔ ∃ x ∈ s.targets w f, x.kind = .source ∧ x.Same q
  links_old : ∀ p, (∀ f, s.Reached w roots f → ¬f.Same p) → ∀ q,
    s'.graph.hasDependency p q = s.graph.hasDependency p q
  files : ∀ p r, s'.files.get? p = some r ↔ s.files.get? p = some r ∨ s.files.get? p = none ∧
    r.version = 0 ∧ r.path.Same p ∧ s.Reached w roots r.path ∧ w.disk.read r.path = .ok r.text

variable {w : Surroundings} {s s₀ s' s₁ s₂ : Session} {roots order : List Path} {M : Ledger}

theorem Session.Gathered.agrees (h₁ : s.Gathered w roots s₁) (h₂ : s.Gathered w roots s₂) :
    s₁.Agrees s₂ ∧ ∀ p, s₁.files.get? p = s₂.files.get? p := by
  refine ⟨⟨fun p => ?_, fun p q => ?_, fun p => ?_⟩, fun p => ?_⟩
  · rw [Bool.eq_iff_iff, h₁.valid p, h₂.valid p]
  · by_cases hp : ∃ f, s.Reached w roots f ∧ f.Same p
    · obtain ⟨f, hf, hs⟩ := hp
      rw [← s₁.graph.hasDependency_congr hs (Path.Same.refl q),
        ← s₂.graph.hasDependency_congr hs (Path.Same.refl q), Bool.eq_iff_iff, h₁.links f hf q, h₂.links f hf q]
    · have hn : ∀ f, s.Reached w roots f → ¬f.Same p := fun f hf hs => hp ⟨f, hf, hs⟩
      rw [h₁.links_old p hn q, h₂.links_old p hn q]
  · rw [Bool.eq_iff_iff, h₁.declared p, h₂.declared p]
  · ext r
    rw [h₁.files p r, h₂.files p r]

theorem Session.reached_perm (hp : order.Perm roots) : s.Reached w order = s.Reached w roots := by
  have hmono : ∀ {rs rs' : List Path}, rs.Perm rs' → ∀ f, s.Reached w rs f → s.Reached w rs' f := by
    intro rs rs' hp f hf
    induction hf with
    | root hr hv => exact .root (hp.mem_iff.mp hr) hv
    | source _ hx hk hv ih => exact .source ih hx hk hv
    | declaration _ hx hk hv hd ih => exact .declaration ih hx hk hv hd
  funext f
  exact propext ⟨hmono hp f, hmono hp.symm f⟩

theorem Session.SpelledAlike.perm (ha : s.SpelledAlike w roots) (hp : order.Perm roots) :
    s.SpelledAlike w order := by
  have hmet : ∀ p, s.Met w order p → s.Met w roots p := by
    rintro p (hr | ⟨f, hf, hx⟩)
    · exact .inl (hp.mem_iff.mp hr)
    · exact .inr ⟨f, reached_perm hp ▸ hf, hx⟩
  exact fun p q h h' => ha p q (hmet p h) (hmet q h')

theorem Session.Gathered.perm (h : s.Gathered w order s') (hp : order.Perm roots) : s.Gathered w roots s' := by
  obtain ⟨hv, hd, hl, hold, hf⟩ := h
  rw [Session.reached_perm hp] at hv hd hl hold hf
  exact ⟨hv, hd, hl, hold, hf⟩

/-! ## Runs in which nothing is at fault -/

section

variable (ha : s₀.SpelledAlike w roots) (hsound : ∀ f, s₀.Reached w roots f → s₀.Sound w f)

include hsound

theorem Orderly.not_flawed (h : Orderly w s₀ roots s M) : ¬M.Flawed := by
  rintro ⟨e, he, hf⟩
  have hsense := h.sensible e he
  cases hstage : e.stage with
  | failed f =>
      rw [Post.Sensible, hstage] at hsense
      obtain ⟨g, hg, hng, -⟩ := hsense
      exact hng (hsound g hg)
  | _ => simp [hstage, Stage.Failed] at hf

include ha

/-- A registration stays when no walk fails, so that each declaration that is named is registered or looked for. -/
theorem LedgerSteps.enrolled (ht : LedgerSteps w (s₀, .asked roots) (s, M)) : ∀ f ∈ s₀.walkedSince s,
    ∀ t ∈ s₀.specifiers w f, ∀ x, w.resolve f t = .ok x → x.kind = .declaration →
      s.graph.hasDeclaration x = true ∨ M.Awaits f t := by
  have hall : ∀ c, LedgerSteps w (s₀, .asked roots) c → ∀ f ∈ s₀.walkedSince c.1, ∀ t ∈ s₀.specifiers w f, ∀ x,
      w.resolve f t = .ok x → x.kind = .declaration → c.1.graph.hasDeclaration x = true ∨ c.2.Awaits f t := by
    intro c hc
    induction hc with
    | refl => simp [Session.walkedSince]
    | @tail b c hrun hledger ih =>
        have ho := LedgerSteps.orderly hrun ha (orderly_asked w s₀ roots)
        intro f hf t hm x hr hk
        rcases hledger.walked_before ho hf with hf | hnew
        · rcases ih f hf t hm x hr hk with hd | hawait
          · refine .inl ?_
            by_contra hd'
            rw [Bool.not_eq_true] at hd'
            obtain ⟨e, he, y, -, hopen, -, hv, -⟩ := hledger.undeclared hd hd'
            have hvalid := ho.tidy.valid y (Ledger.mem_opens.mpr ⟨e, he, hopen⟩)
            obtain ⟨-, -, -, hflaw, -⟩ := hledger.invalidated ho hvalid hv
            exact (hledger.orderly ha ho).not_flawed hsound hflaw
          · rcases hledger.awaits ho hm hawait with hawait | ⟨⟨cause, he⟩, -⟩ | ⟨y, hy, hfollow⟩
            · exact .inr hawait
            · rw [he] at hr
              cases hr
            · obtain rfl : y = x := Except.ok.inj (hy.symm.trans hr)
              simp only [Followed, hk] at hfollow
              exact .inl hfollow.1
        · exact .inr (hnew t)
  exact hall _ ht

end

/-! ## When all checks have returned -/

theorem History.read_of_mem_reads {h : History} (hw : ∀ m ∈ h, m.around = w) {e : Path × String}
    (he : e ∈ h.reads) : w.disk.read e.1 = .ok e.2 := by
  obtain ⟨m, hm, hread⟩ := List.mem_filterMap.mp he
  obtain ⟨leaf, -, hread⟩ := Option.bind_eq_some_iff.mp hread
  rw [hw m hm] at hread
  cases leaf with
  | reading x goal due =>
      cases hx : w.disk.read x with
      | error fault => simp [Task.read?, hx, Except.toOption] at hread
      | ok text =>
          obtain rfl : (x, text) = e := by simpa [Task.read?, hx, Except.toOption] using hread
          exact hx
  | _ => cases hread

section

variable {h : History} {parts : List Task} (ha : s.SpelledAlike w roots)
  (hr : Runs (s, .group (roots.map fun r => .start (.check r))) h (s', .group parts))
  (hw : ∀ m ∈ h, m.around = w)

include ha hr hw

theorem Runs.isOk (hsound : ∀ f, s.Reached w roots f → s.Sound w f) {o : Outcome} (ho : .done o ∈ parts) :
    o.isOk = true := by
  have horderly := ((hr.steps hw).underway_group ha).orderly
  by_contra hn
  rw [Bool.not_eq_true] at hn
  obtain ⟨e, he, hf⟩ := Task.flawed_done (w := w).mpr hn
  exact horderly.not_flawed hsound ⟨e, Task.mem_postsOf.mpr ⟨_, ho, he⟩, hf⟩

variable (hdone : ∀ t ∈ parts, ∃ o, t = .done o)

include hdone

theorem Runs.walked_iff : (Task.posts w none (.group parts)).Quiet ∧
    ∀ f, f ∈ s.walkedSince s' ↔ s.Reached w roots f := by
  have hidle : ∀ t ∈ parts, t.Idle := fun t ht => by
    obtain ⟨o, rfl⟩ := hdone t ht
    trivial
  have hstarted : ∀ r, ¬(Task.posts w none (.group parts)).Calling none r := by
    rintro r ⟨e, he, -, hc⟩
    obtain ⟨t, ht, he⟩ := Task.mem_postsOf.mp he
    obtain ⟨o, rfl⟩ := hdone t ht
    exact Task.not_calling_done r ⟨e, he, (Task.stage_of_mem_posts_done he).1, hc⟩
  have hq := quiet_of_idle (w := w) hidle
  exact ⟨hq, fun f => ((hr.steps hw).underway_group ha).walked_iff hq hstarted⟩

/-- The resolver is asked for each specifier of each walked file. -/
theorem Runs.calls_perm :
    (s.callsSince s').Perm ((s.walkedSince s').flatMap (s.inquiries w)) := by
  have hasked := hr.asked (asks_checks roots) (posts_checks roots) ha hw
  have hwaiting : (Task.group parts).waiting = 0 := by
    rw [Multiset.eq_zero_iff_forall_notMem]
    intro leaf hl
    obtain ⟨t, ht, hl⟩ := Task.mem_waitingIn.mp hl
    obtain ⟨o, rfl⟩ := hdone t ht
    exact Multiset.notMem_zero leaf hl
  have hcount := hasked.count
  rw [hwaiting, Multiset.zero_bind, add_zero] at hcount
  have hperm := Multiset.coe_eq_coe.mp hcount
  simpa [Session.callsSince, Session.walkedSince] using hperm

variable (hsound : ∀ f, s.Reached w roots f → s.Sound w f)

include hsound

theorem Runs.marked : (s.walkedSince s').Nodup ∧
    ∀ f, s.Reached w roots f → s'.isValid f = true ∧ s'.isTracked f = true := by
  obtain ⟨hq, hwalked⟩ := hr.walked_iff ha hw hdone
  have h := (hr.steps hw).underway_group ha
  obtain ⟨hvalid, hnodup⟩ := h.honest.clean.resolve_left (h.orderly.not_flawed hsound)
  refine ⟨hnodup, fun f hf => ?_⟩
  have hv := hvalid f ((hwalked f).mpr hf)
  exact ⟨hv, (h.tracked_sound hq ((hwalked f).mpr hf) hv).1⟩

theorem Runs.files_iff (p : Path) (r : SourceRecord) : s'.files.get? p = some r ↔
    s.files.get? p = some r ∨ s.files.get? p = none ∧ r.version = 0 ∧ r.path.Same p ∧
      s.Reached w roots r.path ∧ w.disk.read r.path = .ok r.text := by
  have hwatched := hr.watched (asks_checks roots)
  obtain ⟨-, hwalked⟩ := hr.walked_iff ha hw hdone
  obtain ⟨-, hkept⟩ := hr.marked ha hw hdone hsound
  -- a record that is new was read for a file that is reached
  have hnew : ∀ p r, s.files.get? p = none → s'.files.get? p = some r →
      r.version = 0 ∧ r.path.Same p ∧ s.Reached w roots r.path ∧ w.disk.read r.path = .ok r.text := by
    intro p r hp hr'
    obtain ⟨hv, hs, hl⟩ := hwatched.kept.new p r hp hr'
    have hread := (hwatched.kept.returned _ hl).1
    refine ⟨hv, hs, (hwalked _).mp (hwatched.read_walked ?_), History.read_of_mem_reads hw hl⟩
    simpa [Session.readsSince] using hread
  constructor
  · intro hr'
    cases hp : s.files.get? p with
    | none => exact .inr ⟨rfl, hnew p r hp hr'⟩
    | some r₀ =>
        have hold : s'.files.get? p = some r₀ := hwatched.kept.old p r₀ hp
        exact .inl (hold.symm.trans hr')
  · rintro (hold | ⟨hp, hv, hs, hf, hread⟩)
    · exact hwatched.kept.old p r hold
    · have htracked := (hkept r.path hf).2
      rw [Session.isTracked_eq_isSome, s'.files.get?_congr hs] at htracked
      obtain ⟨r', hr'⟩ := Option.isSome_iff_exists.mp htracked
      obtain ⟨hv', hs', hf', hread'⟩ := hnew p r' hp hr'
      have hpath : r'.path = r.path := ha _ _ hf'.met hf.met (hs'.trans hs.symm)
      have htext : r'.text = r.text := by
        rw [hpath, hread] at hread'
        exact (Except.ok.inj hread').symm
      rw [hr']
      cases r
      cases r'
      simp_all

theorem Runs.gathered : s.Gathered w roots s' := by
  have h := (hr.steps hw).underway_group ha
  have henrolled := (hr.steps hw).ledgerSteps_checks.enrolled ha hsound
  obtain ⟨hq, hwalked⟩ := hr.walked_iff ha hw hdone
  obtain ⟨-, hkept⟩ := hr.marked ha hw hdone hsound
  constructor
  case valid =>
      intro p
      constructor
      · intro hp
        exact (h.orderly.valid_new p hp).imp id fun ⟨f, hf, hs⟩ => ⟨f, (hwalked f).mp hf, hs⟩
      · rintro (hp | ⟨f, hf, hs⟩)
        · exact h.orderly.valid_old p hp
        · exact (s'.isValid_congr hs).symm.trans (hkept f hf).1
  case declared =>
      intro p
      constructor
      · intro hp
        refine (h.declared hq hp).imp id ?_
        rintro ⟨f, hf, x, hx, hk, hs, -⟩
        exact ⟨f, (hwalked f).mp hf, x, hx, hk, hs⟩
      · rintro (hp | ⟨f, hf, x, hx, hk, hs⟩)
        · exact h.orderly.declared_old p hp
        · obtain ⟨t, ht, hres⟩ := Session.mem_targets.mp hx
          rw [← s'.graph.hasDeclaration_congr hs]
          exact (henrolled f ((hwalked f).mpr hf) t ht x hres hk).resolve_right (hq.not_awaits f t)
  case links => exact fun f hf => h.hasDependency_iff hq ((hwalked f).mpr hf)
  case links_old => exact fun p hp => h.pursued.links_old p fun f hf => hp f ((hwalked f).mp hf)
  case files => exact hr.files_iff ha hw hdone hsound

/-- The disk is asked once for each walked file that was not tracked. -/
theorem Runs.reads_perm :
    (s.readsSince s').Perm ((s.walkedSince s').filter fun f => !s.isTracked f) := by
  have hwatched := hr.watched (asks_checks roots)
  obtain ⟨-, hwalked⟩ := hr.walked_iff ha hw hdone
  obtain ⟨hnodup, hkept⟩ := hr.marked ha hw hdone hsound
  have hsub : (s.readsSince s').Sublist (s.walkedSince s') := by
    have := hwatched.kept.sublist
    simpa [Session.readsSince, Session.walkedSince] using this
  refine (List.perm_ext_iff_of_nodup (hnodup.sublist hsub) (hnodup.filter _)).mpr fun f => ?_
  rw [List.mem_filter, Bool.not_eq_true']
  constructor
  · intro hf
    have hfresh := hwatched.kept.fresh f (by simpa [Session.readsSince] using hf)
    exact ⟨hsub.subset hf, hfresh⟩
  · rintro ⟨hf, hu⟩
    have hnone : s.files.get? f = none := by simpa [Session.isTracked_eq_isSome] using hu
    have htracked := (hkept f ((hwalked f).mp hf)).2
    rw [Session.isTracked_eq_isSome] at htracked
    obtain ⟨r, hget⟩ := Option.isSome_iff_exists.mp htracked
    obtain ⟨-, hs, hl⟩ := hwatched.kept.new f r hnone hget
    have hread : r.path ∈ s.readsSince s' := by
      have := (hwatched.kept.returned _ hl).1
      simpa [Session.readsSince] using this
    have hmet := ((hwalked _).mp (hsub.subset hread)).met
    rwa [ha _ _ hmet ((hwalked f).mp hf).met hs] at hread

end

/-! ## One check after another -/

theorem finishes_checks_iff (ha : s.SpelledAlike w roots) :
    Task.Finishes w (s, .group (roots.map fun r => .start (.check r))) ↔ {f | s.Reached w roots f}.Finite := by
  have hsettled : ∀ t ∈ roots.map fun r => Task.start (.check r), t.Settled := by simp [Task.Settled]
  constructor
  · intro h
    obtain ⟨⟨s', t'⟩, hs, hf⟩ := h.exists_steps
    obtain ⟨parts, ht, -, hsettled'⟩ := Task.Steps.of_group hsettled hs
    obtain rfl : t' = .group parts := ht
    obtain ⟨h, hr, hw⟩ := Runs.of_steps hs
    obtain ⟨-, hwalked⟩ := hr.walked_iff ha hw ((Task.finished_iff hsettled').mp hf)
    exact (s.walkedSince s').finite_toSet.subset fun f hf => (hwalked f).mpr hf
  · have horderly : Orderly w s roots s (Task.posts w none (.group (roots.map fun r => .start (.check r)))) := by
      rw [posts_checks]
      exact orderly_asked w s roots
    exact Task.finishes_of_finite horderly hsettled ha

theorem Task.InTurn.gathered (h : InTurn w s (roots.map .check) s') (ha : s.SpelledAlike w roots)
    (hsound : ∀ f, s.Reached w roots f → s.Sound w f) : s.Gathered w roots s' := by
  obtain ⟨parts, hdone, hsteps⟩ := h.steps
  have hs := hsteps []
  rw [List.nil_append, List.nil_append, List.map_map] at hs
  obtain ⟨h, hr, hw⟩ := Runs.of_steps hs
  exact hr.gathered ha hw hdone hsound

/-- Checks that overlap come to the same, whatever comes back first. Where each file that is reached from the
roots can be had and each of its specifiers resolved, all checks return and succeed under every order of reads and
answers, if these files are finitely many; each file is walked once, and read for it unless it was tracked, and its
specifiers are resolved once; and then marks, links, registrations and texts are those that the checks leave one
after another, in any order of the roots. -/
theorem checks_confluent (s : Session) (w : Surroundings) (roots : List Path) (ha : s.SpelledAlike w roots)
    (hsound : ∀ f, s.Reached w roots f → s.Sound w f) :
    (Task.Finishes w (s, .group (roots.map fun r => .start (.check r))) ↔ {f | s.Reached w roots f}.Finite) ∧
    ∀ s' t', Task.Steps w (s, .group (roots.map fun r => .start (.check r))) (s', t') →
      ∃ parts, t' = .group parts ∧ parts.length = roots.length ∧ (∀ o, .done o ∈ parts → o.isOk = true) ∧
        ((∀ t ∈ parts, ∃ o, t = .done o) →
          ((s.walkedSince s').Nodup ∧ ∀ f, f ∈ s.walkedSince s' ↔ s.Reached w roots f) ∧
          (s.readsSince s').Perm ((s.walkedSince s').filter fun f => !s.isTracked f) ∧
          (s.callsSince s').Perm ((s.walkedSince s').flatMap (s.inquiries w)) ∧
          ∀ order : List Path, order.Perm roots → (∃ s'', Task.InTurn w s (order.map .check) s'') ∧
            ∀ s'', Task.InTurn w s (order.map .check) s'' →
              s'.Agrees s'' ∧ ∀ p, s'.files.get? p = s''.files.get? p) := by
  refine ⟨finishes_checks_iff ha, fun s' t' hs => ?_⟩
  obtain ⟨parts, ht, hl, -⟩ := Task.Steps.of_group (by simp [Task.Settled]) hs
  obtain rfl : t' = .group parts := ht
  obtain ⟨h, hr, hw⟩ := Runs.of_steps hs
  refine ⟨parts, rfl, by simpa using hl, fun o ho => hr.isOk ha hw hsound ho, fun hdone => ?_⟩
  have hwalked := (hr.walked_iff ha hw hdone).2
  refine ⟨⟨(hr.marked ha hw hdone hsound).1, hwalked⟩, hr.reads_perm ha hw hdone hsound, hr.calls_perm ha hw hdone,
    fun order hp => ?_⟩
  have hfin : {f | s.Reached w order f}.Finite := by
    rw [Session.reached_perm hp]
    exact (s.walkedSince s').finite_toSet.subset fun f hf => (hwalked f).mpr hf
  have hfinishes := (finishes_checks_iff (ha.perm hp)).mpr hfin
  have hmap : [] ++ (order.map Request.check).map Task.start = order.map fun r => .start (.check r) :=
    List.map_map ..
  rw [← hmap] at hfinishes
  refine ⟨hfinishes.inTurn, fun s'' hturn => ?_⟩
  have hgathered := hturn.gathered (ha.perm hp) fun f hf => hsound f (Session.reached_perm hp ▸ hf)
  exact (hr.gathered ha hw hdone hsound).agrees (hgathered.perm hp)

namespace Cycle

def both : Task := .group ([first, second].map fun r => .start (.check r))

/-- The first check meets the mark of the second one and is over while that waits for its text. -/
def crossing : Session × Task :=
  Task.replay surroundings [[0], [1], [0], [0, 0], [0, 0], [1], [1, 0], [1, 0]] (session, both)

theorem finished_crossing : crossing.2.isFinished = true := by decide +kernel

theorem spelledAlike_both : session.SpelledAlike surroundings [first, second] :=
  Session.spelledAlike_of_closed [first, second] (by decide) (by simp) (by simp [targets_first, targets_second])

theorem sound_both {f : Path} (hf : session.Reached surroundings [first, second] f) :
    session.Sound surroundings f := by
  refine sound ((reached_iff targets_first targets_second).mpr ?_)
  have htargets : ∀ g x, g = first ∨ g = second → x ∈ session.targets surroundings g → x = first ∨ x = second := by
    rintro g x (rfl | rfl) hx
    · exact .inr (by simpa [targets_first] using hx)
    · exact .inl (by simpa [targets_second] using hx)
  induction hf with
  | root hr _ => simpa using hr
  | source _ hx _ _ ih => exact htargets _ _ ih hx
  | declaration _ hx _ _ _ ih => exact htargets _ _ ih hx

end Cycle

/-- Two checks that meet in a cycle leave what they leave the other way round and one after the other. -/
theorem checks_confluent_crossing : ∃ s' s'' t', Task.Steps Cycle.surroundings (Cycle.session, Cycle.both) (s', t') ∧
    t'.isFinished = true ∧
    Task.InTurn Cycle.surroundings Cycle.session ([Cycle.second, Cycle.first].map .check) s'' ∧
    s'.Agrees s'' ∧ (Cycle.session.walkedSince s').Nodup ∧ Cycle.first ∈ Cycle.session.walkedSince s' ∧
    Cycle.second ∈ Cycle.session.walkedSince s' := by
  have hrun : Task.Steps Cycle.surroundings (Cycle.session, Cycle.both) Cycle.crossing := Task.steps_replay ..
  have hfinished := Cycle.finished_crossing
  generalize Cycle.crossing = c at hrun hfinished
  obtain ⟨s', t'⟩ := c
  obtain ⟨parts, ht, -, hsettled⟩ := Task.Steps.of_group (by simp [Task.Settled]) hrun
  obtain rfl : t' = .group parts := ht
  obtain ⟨-, hconfluent⟩ := checks_confluent Cycle.session Cycle.surroundings [Cycle.first, Cycle.second]
    Cycle.spelledAlike_both fun f hf => Cycle.sound_both hf
  obtain ⟨_, hparts, -, -, hover⟩ := hconfluent s' _ hrun
  cases hparts
  obtain ⟨⟨hnodup, hwalked⟩, -, -, hturns⟩ := hover ((Task.finished_iff hsettled).mp hfinished)
  obtain ⟨⟨s'', hturn⟩, hagrees⟩ := hturns [Cycle.second, Cycle.first] (.swap ..)
  exact ⟨s', s'', _, hrun, hfinished, hturn, (hagrees s'' hturn).1, hnodup,
    (hwalked _).mpr (.root (by simp) rfl), (hwalked _).mpr (.root (by simp) rfl)⟩

end ImportCheck
