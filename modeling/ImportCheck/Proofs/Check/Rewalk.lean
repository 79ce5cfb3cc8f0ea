import ImportCheck.Proofs.Check.Outcome
import ImportCheck.Proofs.Walk.Flaw
import ImportCheck.Proofs.Walk.InFlight

/-!
# How often a check walks a file

A file is walked when it is asked for and not valid. A walk that fails takes the mark back at once, so that a branch
which asks for the file later walks it again in the same call. But each walk more takes a failure, and when the call
succeeds no file is walked twice.
-/

namespace ImportCheck

namespace Task

variable {w : Surroundings} {s s' : Session} {leaf t' : Task} {f x : Path} {t : String}
  {a : Except ResolverFault Path}

/-- The file that the work at a leaf asks to be checked: what a check starts with, a source that is found, or a
declaration that is found and was not registered. -/
def wanted? (w : Surroundings) (s : Session) : Task → Option Path
  | start (.check x) => some x
  | leaf => (leaf.found? w).filter fun x =>
      x.kind = .source ∨ x.kind = .declaration ∧ s.graph.hasDeclaration x = false

/-- What is found is the target that the leaf looks for, and then there is nothing more to ask. -/
theorem Seeks.of_found (h : leaf.Seeks w f t a) (hx : leaf.found? w = some x) : a = .ok x ∧ leaf.owed w = [] := by
  cases h with
  | follow f t =>
      have hd : Specifier.direct? t = some x := hx
      simp [Surroundings.resolve, owed, Surroundings.questions, hd]
  | resolving f t c rest due =>
      have hr : (w.resolver.answer f.directory c).result = .ok x := by
        unfold Task.found? at hx
        cases hr : (w.resolver.answer f.directory c).result <;> simp_all [Except.toOption]
      cases rest <;> simp [Resolver.first, owed, Resolver.asks, hr]

theorem Seeks.wanted? (h : leaf.Seeks w f t a) : leaf.wanted? w s = (leaf.found? w).filter fun x =>
    x.kind = .source ∨ x.kind = .declaration ∧ s.graph.hasDeclaration x = false := by
  cases h <;> rfl

theorem Entered.walks_eq {registered : Bool} (h : Entered x registered s s' t') :
    s'.walks = s.walks ++ ((some x).filter fun x => !s.isValid x).toList := by
  cases h with
  | trusted hv => simp [hv, Option.filter]
  | scanned hv _ _ => simp [hv, Option.filter]
  | begun hv _ =>
      rw [Session.walks_record _ rfl, Session.walks_enter]
      simp [hv, Option.filter]

/-- The work at a leaf of a check begins the walk of the file that is asked for, unless that is valid. -/
theorem LeafStep.walks_eq (h : LeafStep w s leaf s' t') (hc : leaf.Checks) :
    s'.walks = s.walks ++ ((leaf.wanted? w s).filter fun x => !s.isValid x).toList := by
  have hnone : ∀ {f t a}, leaf.Seeks w f t a → leaf.found? w = none →
      s.walks = s.walks ++ ((leaf.wanted? w s).filter fun x => !s.isValid x).toList := fun hs hn => by
    simp [hs.wanted?, hn]
  cases h with
  | check he => exact he.walks_eq
  | ask hs _ ho =>
      rw [Session.walks_record _ rfl]
      refine hnone hs (Option.eq_none_iff_forall_not_mem.mpr fun x hx => ?_)
      rw [(hs.of_found hx).2] at ho
      cases ho
  | unresolved hs _ =>
      refine hnone hs (Option.eq_none_iff_forall_not_mem.mpr fun x hx => ?_)
      cases (hs.of_found hx).1
  | @pass _ f x t hs ho hk =>
      have hw : leaf.wanted? w s = none := by
        rw [hs.wanted?, hs.found? ho]
        rcases hk with hk | ⟨hk, hd⟩ <;> simp_all [Option.filter]
      simp [hw]
  | @register _ f x t _ _ hs ho hk hd he =>
      have hw : leaf.wanted? w s = some x := by
        rw [hs.wanted?, hs.found? ho]
        simp [Option.filter, hk, hd]
      rw [hw]
      exact he.walks_eq
  | @link _ f x t _ _ hs ho hk he =>
      have hw : leaf.wanted? w s = some x := by
        rw [hs.wanted?, hs.found? ho]
        simp [Option.filter, hk]
      rw [hw]
      exact he.walks_eq
  | unread _ => simp [Task.wanted?, Task.found?]
  | store _ _ => simp [Task.wanted?, Task.found?]
  | notice => cases hc
  | keep _ => cases hc
  | refresh _ _ => cases hc

end Task

/-- The file that the work asks to be checked. -/
def Moment.wanted? (m : Moment) : Option Path := m.leaf?.bind (Task.wanted? m.around m.session)

theorem Moment.walks_after {m : Moment} (hp : m.task.waitsAt m.place = true) (hc : m.task.Checking) :
    m.after.1.walks = m.session.walks ++ (m.wanted?.filter fun x => !m.session.isValid x).toList := by
  obtain ⟨leaf, s', t', R, E, hl, hmem, hd, -, -, -, hfalls⟩ := m.leafStep hp fun l hl => .inl (hc l hl)
  have hwalks := hd.walks_eq (hc leaf hmem)
  have hafter : m.after.1.walks = s'.walks := by
    rw [← Session.walks_bare]
    exact hfalls.walks
  rw [hafter, hwalks, Session.walks_bare, wanted?, hl]
  rfl

/-! ## One call -/

variable {s : Session} {root : Path} {h : History} {c : Session × Task}

/-- In a call, a file that is valid has at most one walk that is open or has passed, and any other file has none. -/
theorem Runs.tallied (hr : Runs (s, .start (.check root)) h c) : Tallied 0 c.1 (passed h.endings + c.2.walking) := by
  induction hr with
  | rest =>
      intro f
      simp [History.endings, passed]
  | @step h m hr hp ih =>
      have hchecks := (hr.watched (asks_check root)).checking
      obtain ⟨leaf, hl⟩ := Option.isSome_iff_exists.mp (Task.leafAt?_isSome.mpr hp)
      have hafter := ih.after (m := m) hl (hchecks leaf (Task.mem_waiting_of_leafAt? hl))
      have hendings : History.endings (h ++ [m]) = h.endings ++ m.endings := by simp [History.endings]
      rwa [hendings, passed_append]

theorem Tallied.count {E : List (Path × Outcome)} {O : Multiset Path} (ht : Tallied 0 s (passed E + O))
    {walked : List Path} (he : (↑walked : Multiset Path) = ↑(E.map Prod.fst) + O) (p : Path) :
    walked.countP (Path.Same · p) ≤ E.countP (fun e => decide (e.1.Same p) && !e.2.isOk) + 1 := by
  have hopen := ht.countP_le p
  have hended := countP_ended E p
  have hwalked := congrArg (Multiset.countP (Path.Same · p)) he
  rw [Multiset.countP_add] at hopen hwalked
  rw [Multiset.coe_countP, Multiset.coe_countP] at hwalked
  omega

theorem Tallied.once {walked : List Path} (ht : Tallied 0 s ↑walked) : (walked.map Path.components).Nodup := by
  rw [List.nodup_iff_count_le_one]
  intro a
  by_cases ha : a ∈ walked.map Path.components
  · obtain ⟨x, -, rfl⟩ := List.mem_map.mp ha
    have hone := ht.countP_le x
    rw [Multiset.coe_countP] at hone
    rw [List.count, List.countP_map]
    refine le_trans (List.countP_mono_left fun y _ hy => ?_) hone
    have hs : y.Same x := eq_of_beq hy
    exact decide_eq_true hs
  · rw [List.count_eq_zero_of_not_mem ha]
    exact Nat.zero_le 1

/-- How often files have been walked in a call that has come so far. -/
structure WalkedInTurn (s : Session) (h : History) (c : Session × Task) : Prop where
  begun : ∀ m ∈ h, m.after.1.walks = m.session.walks ++ (m.wanted?.filter fun x => !m.session.isValid x).toList
  failed_before : ∀ (before : History) m later, h = before ++ m :: later →
    ∀ x, m.wanted? = some x → m.session.isValid x = false →
      (∀ y ∈ m.task.walking, ¬y.Same x) ∧ ∀ e ∈ before.endings, e.1.Same x → e.2.isOk = false
  count : ∀ p, (s.walkedSince c.1).countP (Path.Same · p) ≤
    h.endings.countP (fun e => decide (e.1.Same p) && !e.2.isOk) + 1
  rolled_back : ∀ p e, (∀ x ∈ c.2.walking, ¬x.Same p) → lastOutcome h.endings p = some (.error e) →
    c.1.isValid p = false
  once : ∀ a, c.2 = .done (.ok a) → ((s.walkedSince c.1).map Path.components).Nodup

/-- In one call, whatever its session is and however the disk and the resolver change meanwhile: a file is walked when
it is asked for and not valid; then all its walks in the call so far have ended with failures, so that it is walked at
most once more than walks of it have failed. It is not valid after a failure, until it is asked for again. When the
call succeeds, each file is walked at most once. -/
theorem check_walks_in_turn (hr : Runs (s, .start (.check root)) h c) : WalkedInTurn s h c := by
  have hwatched := hr.watched (asks_check root)
  have htally := hr.tallied
  have hended : (↑(s.walkedSince c.1) : Multiset Path) = ↑(h.endings.map Prod.fst) + c.2.walking := by
    simpa [Session.walkedSince] using hwatched.traced.ended
  constructor
  case begun =>
      intro m hm
      obtain ⟨before, later, rfl⟩ := List.append_of_mem hm
      obtain ⟨hbefore, hp⟩ := hr.of_append
      exact Moment.walks_after hp (hbefore.watched (asks_check root)).checking
  case failed_before =>
      rintro before m later rfl x - hv
      exact hr.of_append.1.tallied.failed hv
  case count => exact htally.count hended
  case rolled_back =>
      intro p e hopen hlast
      have hvalid := hwatched.traced.valid p hopen
      rw [hlast] at hvalid
      exact hvalid
  case once =>
      obtain ⟨s', t⟩ := c
      rintro a rfl
      have hpassed : passed h.endings = ↑(h.endings.map Prod.fst) := by
        rw [passed, List.filter_eq_self.mpr hr.isOk_of_ok]
      rw [hpassed, ← hended] at htally
      exact htally.once

/-! ## A shared file that fails -/

namespace Shared

open ImportCheck.Cycle (first second session)

def third : Path := .ofString "/p/c.ts"

/-- The first file imports the other two; the second one, which the third one imports as well, imports a module that
does not exist. -/
def disk : MemoryDisk where
  entries := [(first, "import './b';\nimport './c';"), (second, "import './missing';"), (third, "import './b';")]
  distinct := by decide

def known : KnownFiles where
  aliases := []
  files := { entries := [(first, ()), (second, ()), (third, ())], distinct := by decide }

def surroundings : Surroundings where
  disk := disk.disk
  resolver := known.resolver

/-- The first branch walks the second file until that fails, and then the other branch comes to it. -/
def resumed : List (List Nat) :=
  [[], [], [0], [1], [0], [1], [0], [0, 0], [0, 0], [0, 0], [0, 0], [1], [1, 0], [1, 0]]

def again : List (List Nat) := resumed ++ List.replicate 4 [1, 0, 0]

def after (places : List (List Nat)) : History × (Session × Task) :=
  History.play (places.map (surroundings, ·)) (session, .start (.check first))

theorem runs (places : List (List Nat)) :
    Runs (session, .start (.check first)) (after places).1 (after places).2 := History.runs_play _ _

theorem around (places : List (List Nat)) : ∀ m ∈ (after places).1, m.around = surroundings := by
  intro m hm
  obtain ⟨e, he, hw⟩ := History.around_play hm
  obtain ⟨place, -, rfl⟩ := List.mem_map.mp he
  exact hw

end Shared

open Shared in
/-- The second file is walked once more than its walks have failed. -/
theorem check_walks_in_turn_shared : ∃ h c, Runs (Cycle.session, .start (.check Cycle.first)) h c ∧
    WalkedInTurn Cycle.session h c ∧
      h.endings.countP (fun e => decide (e.1.Same Cycle.second) && !e.2.isOk) = 1 ∧
      (Cycle.session.walkedSince c.1).countP (Path.Same · Cycle.second) = 2 :=
  ⟨(after resumed).1, (after resumed).2, runs resumed, check_walks_in_turn (runs resumed), by decide +kernel⟩

open Shared in
/-- The call fails, and it has walked the second file twice, each time to the specifier that is not resolved. -/
theorem check_walks_shared_twice : ∃ h c, Runs (Cycle.session, .start (.check Cycle.first)) h c ∧
    (∀ m ∈ h, m.around = surroundings) ∧ c.2.outcome?.map (·.isOk) = some false ∧
      (Cycle.session.walkedSince c.1).countP (Path.Same · Cycle.second) = 2 ∧
      c.1.calls.count (Cycle.second.directory, "./missing.ts") = 2 :=
  ⟨(after again).1, (after again).2, runs again, around again, by decide +kernel⟩

end ImportCheck
