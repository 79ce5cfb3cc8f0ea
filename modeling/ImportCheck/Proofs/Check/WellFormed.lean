import ImportCheck.Proofs.Check.Outcome
import ImportCheck.Proofs.Walk.Classed
import ImportCheck.Proofs.Walk.InFlight

/-!
# What holds at every moment

However any requests are interleaved, and whatever the disk and the resolver do meanwhile: the graph links tracked
files to sources, declarations are registered and nothing else, a valid file is tracked or on its way to be, and the
walks of a file that are in flight are counted by the invalidations.
-/

namespace ImportCheck

/-! ## One moment after the other -/

/-- The invariant of a session at work, after so many invalidations. -/
structure Sound (names : List Path) (r : Nat) (c : Session × Task) : Prop where
  classed : Classed names c.1 c.2.waiting
  anchored : Anchored c.1 c.2.waiting
  tallied : Tallied r c.1 c.2.walking

namespace Moment

/-- Whether all marks go: they are asked to, or a file is found to have changed. -/
def clears (m : Moment) : Bool := m.leaf?.any (Task.clears m.around m.session)

variable {m : Moment} {names : List Path} {r : Nat}

theorem sound_check {leaf : Task} (hl : m.leaf? = some leaf) (hc : leaf.Checks) (h : Sound names r (m.session, m.task))
    (ha : ∀ p ∈ names, ∀ q ∈ names, p.Same q → p = q) (hfound : ∀ x, m.found? = some x → x ∈ names) :
    Sound names r m.after := by
  obtain ⟨s', t', R, E, hd, hw, hw', -, hfalls⟩ := Task.worked m.now m.session hl (.inl hc) (w := m.around)
  have hafter : m.after.2.waiting = R + t'.waiting := hw'
  have hfound' : ∀ x, leaf.found? m.around = some x → x ∈ names := fun x hx =>
    hfound x (by simp [found?, hl, hx])
  constructor
  case classed =>
      have hclassed : Classed names m.session.bare (R + {leaf}) := by
        rw [← hw]
        exact h.classed.of_graph rfl
      rw [hafter]
      exact ((hclassed.leafStep hd hc ha hfound').falls hfalls).of_graph rfl
  case anchored =>
      have hanchored : Anchored m.session.bare (R + {leaf}) := by
        rw [← hw]
        exact h.anchored.of_same rfl rfl rfl
      rw [hafter]
      exact ((hanchored.leafStep hd hc).falls hfalls).of_same rfl rfl rfl
  case tallied =>
      have hopen : Tallied r m.session (0 + m.task.walking) := by simpa using h.tallied
      exact (hopen.after hl hc).mono (Multiset.le_add_left _ _)

theorem sound_outsideChecks {leaf : Task} (hl : m.leaf? = some leaf) (hc : ¬leaf.Checks)
    (h : Sound names r (m.session, m.task)) : Sound names (r + if m.clears then 1 else 0) m.after := by
  obtain ⟨R, E, hw, hw', -, hfalls⟩ := Task.worked_leaf m.now m.session hl (w := m.around)
  have he := Task.advance_outsideChecks m.around m.now m.session hl hc
  have hself : leaf.reads? = none := Task.reads?_of_not_checks hc
  generalize hresult : Task.advance m.around m.now [] m.session leaf = c at *
  have hafter : m.after.2.waiting = R + c.2.waiting := hw'
  constructor
  case classed =>
      have hclassed : Classed names m.session (R + {leaf}) := hw ▸ h.classed
      have hdone : Classed names c.1.bare (R + c.2.waiting) := (hclassed.outsideChecks he).of_graph rfl
      rw [hafter]
      exact (hdone.falls hfalls).of_graph rfl
  case anchored =>
      have hanchored : Anchored m.session (R + {leaf}) := hw ▸ h.anchored
      have hdone : Anchored c.1.bare (R + c.2.waiting) :=
        (hanchored.outsideChecks he hself).of_same rfl rfl rfl
      rw [hafter]
      exact (hdone.falls hfalls).of_same rfl rfl rfl
  case tallied =>
      have hopen : m.task.walking = m.task.parents + R.filterMap Task.reads? := by
        rw [Task.walking, hw, ← Multiset.cons_zero, Multiset.add_cons, add_zero,
          Multiset.filterMap_cons_none _ _ hself]
      have hclears : m.clears = leaf.clears m.around m.session := by simp [clears, hl]
      have hdone : Tallied (r + if leaf.clears m.around m.session then 1 else 0) c.1.bare m.task.walking :=
        (h.tallied.outsideChecks he).of_valid fun _ => rfl
      rw [← hclears, hopen] at hdone
      have hend := Tallied.falls (O := R.filterMap Task.reads?) hfalls (by
        simpa [he.parents, add_comm] using hdone)
      rw [Task.walking, hafter, Multiset.filterMap_add, he.reads, add_zero, add_comm m.after.2.parents]
      exact (hend.of_valid fun _ => rfl).mono (add_le_add_left (Multiset.le_add_right _ _) _)

theorem sound_after (hp : m.task.waitsAt m.place = true) (h : Sound names r (m.session, m.task))
    (ha : ∀ p ∈ names, ∀ q ∈ names, p.Same q → p = q) (hfound : ∀ x, m.found? = some x → x ∈ names) :
    Sound names (r + if m.clears then 1 else 0) m.after := by
  obtain ⟨leaf, hl⟩ := Option.isSome_iff_exists.mp (Task.leafAt?_isSome.mpr hp)
  by_cases hc : leaf.Checks
  · have hclears : m.clears = false := by
      rw [clears, show m.leaf? = some leaf from hl]
      cases hc <;> rfl
    rw [hclears]
    exact sound_check hl hc h ha hfound
  · exact sound_outsideChecks hl hc h

end Moment

/-! ## All requests -/

/-- The file that is checked. -/
def Request.root? : Request → Option Path
  | .check f => some f
  | _ => none

/-- How often all marks have gone. -/
def History.invalidations (h : History) : Nat := h.countP Moment.clears

/-- All that is known of a session at work, after so many invalidations. -/
structure WellFormed (r : Nat) (c : Session × Task) : Prop where
  targets : ∀ p, ∀ x ∈ c.1.graph.dependencies p, x.kind = .source
  declarations : ∀ x ∈ c.1.graph.declarations.sorted, x.kind = .declaration
  linked : ∀ p q, c.1.graph.hasDependency p q = true → c.1.isTracked p = true
  valid : ∀ p, c.1.isValid p = true → c.1.isTracked p = true ∨ ∃ x ∈ c.2.walking, x.Same p
  walking : ∀ f, (c.2.walking.filter (Path.Same · f)).card ≤ r + if c.1.isValid f then 1 else 0

theorem Sound.wellFormed {names : List Path} {r : Nat} {c : Session × Task} (h : Sound names r c) :
    WellFormed r c where
  targets p x hx := h.classed.targets p x (Path.mem_sort.mp hx)
  declarations x hx := h.classed.declared x (Path.mem_sort.mp hx)
  linked := h.anchored.linked
  valid p hp := (h.anchored.marked p hp).imp_right fun ⟨x, hx, hs⟩ => ⟨x, Multiset.mem_add.mpr (.inr hx), hs⟩
  walking := h.tallied

theorem sound_new (options : CompilerOptions) (cwd : Path) (runtime defaultLib : LibFile) {requests : List Request}
    (hq : ∀ f t, .follow f t ∉ requests) {names : List Path}
    (hn : ∀ x ∈ requests.filterMap Request.root?, x ∈ names) :
    Sound names 0 (.new options cwd runtime defaultLib, .group (requests.map .start)) := by
  have hwaiting : ∀ l ∈ (Task.group (requests.map .start)).waiting, ∃ q ∈ requests, l = .start q := fun l hl =>
    Task.waitingIn_starts.mp hl
  have hreads : (Task.group (requests.map .start)).waiting.filterMap Task.reads? = 0 := by
    refine Task.filterMap_reads?_eq_zero fun l hl => ?_
    obtain ⟨q, -, rfl⟩ := hwaiting l hl
    rfl
  have hwalking : (Task.group (requests.map .start)).walking = 0 := by
    rw [Task.walking, hreads, Task.parents, Task.parentsIn_starts, add_zero]
  constructor
  case classed =>
      constructor
      case nodes => exact fun k hk => absurd hk List.not_mem_nil
      case targets => exact fun p x hx => absurd hx List.not_mem_nil
      case declared => exact fun x hx => absurd hx List.not_mem_nil
      case named =>
          intro l hl hc x hx
          obtain ⟨q, hmem, rfl⟩ := hwaiting l hl
          cases hc with
          | check y => exact hn x (List.mem_filterMap.mpr ⟨_, hmem, hx⟩)
          | follow f t => exact absurd hmem (hq f t)
  case anchored =>
      constructor
      case linked => exact fun p q hpq => by cases hpq
      case askers =>
          intro l hl hc f hf
          obtain ⟨q, hmem, rfl⟩ := hwaiting l hl
          cases hc with
          | check x => cases hf
          | follow g t => exact absurd hmem (hq g t)
      case marked => exact fun p hp => by cases hp
  case tallied =>
      intro f
      rw [hwalking]
      simp

theorem Runs.sound {h : History} {c c₀ : Session × Task} (hr : Runs c₀ h c) (h₀ : Sound names 0 c₀)
    (ha : ∀ p ∈ names, ∀ q ∈ names, p.Same q → p = q) (hfound : ∀ x ∈ h.found, x ∈ names) :
    Sound names h.invalidations c := by
  induction hr with
  | rest => exact h₀
  | @step h m _ hp ih =>
      have hm : Sound names h.invalidations (m.session, m.task) :=
        ih fun x hx => hfound x (by simp [History.found, List.filterMap_append] at hx ⊢; exact .inl hx)
      have hafter := Moment.sound_after hp hm ha fun x hx => hfound x (by simp [History.found, hx])
      simpa [History.invalidations, List.countP_append, List.countP_singleton] using hafter

/-- Any requests of a new session, interleaved at will, with a disk and a resolver that change at will: at every moment
links lead from tracked files to sources, the registrations are declarations, valid files are tracked or walked, and a
file has no more walks in flight than there were invalidations, and one more if it is valid. What is checked and what
is found is spelled in one way. -/
theorem session_well_formed (options : CompilerOptions) (cwd : Path) (runtime defaultLib : LibFile)
    {requests : List Request} (hq : ∀ f t, .follow f t ∉ requests) {h : History} {c : Session × Task}
    (hr : Runs (.new options cwd runtime defaultLib, .group (requests.map .start)) h c)
    (ha : ∀ p ∈ requests.filterMap Request.root? ++ h.found, ∀ q ∈ requests.filterMap Request.root? ++ h.found,
      p.Same q → p = q) : WellFormed h.invalidations c :=
  (hr.sound (sound_new options cwd runtime defaultLib hq fun _ hx => List.mem_append_left _ hx) ha
    fun _ hx => List.mem_append_right _ hx).wellFormed

/-! ## A check that is overtaken by an invalidation -/

namespace Overtaken

open ImportCheck.Cycle (first second session surroundings)

def requests : List Request := [.check first, .invalidateAll, .check first]

/-- The second file is being read for the first check when the marks go, and the other check walks it again. -/
def plan : List (Surroundings × List Nat) :=
  [[0], [0], [0, 0], [0, 0], [1], [2], [2, 0], [2, 0]].map (surroundings, ·)

def after : History × (Session × Task) := History.play plan (session, .group (requests.map .start))

theorem outcome : after.1.invalidations = 1 ∧ after.2.1.isValid second = true ∧
    (after.2.2.walking.filter (Path.Same · second)).card = 2 ∧
      after.2.1.graph.hasDependency first second = true ∧
      ∀ p ∈ requests.filterMap Request.root? ++ after.1.found,
        ∀ q ∈ requests.filterMap Request.root? ++ after.1.found, p.Same q → p = q := by
  decide +kernel

end Overtaken

open Overtaken in
/-- The second file has as many walks in flight as one invalidation allows. -/
theorem session_well_formed_overtaken : ∃ h c, Runs (Cycle.session, .group (requests.map .start)) h c ∧
    WellFormed h.invalidations c ∧ h.invalidations = 1 ∧ c.1.isValid Cycle.second = true ∧
      (c.2.walking.filter (Path.Same · Cycle.second)).card = 2 ∧
      c.1.graph.hasDependency Cycle.first Cycle.second = true := by
  have hr : Runs (Cycle.session, .group (requests.map .start)) after.1 after.2 := History.runs_play _ _
  obtain ⟨hcount, hvalid, hwalking, hlink, halike⟩ := outcome
  have hwell := session_well_formed {} (.ofString "/p") .runtime .standard (by simp [requests]) hr halike
  exact ⟨after.1, after.2, hr, hwell, hcount, hvalid, hwalking, hlink⟩

end ImportCheck
