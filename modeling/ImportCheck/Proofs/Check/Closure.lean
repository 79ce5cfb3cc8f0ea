import ImportCheck.Proofs.Check.Fresh
import ImportCheck.Proofs.Walk.Rounds

/-!
# Marks and import closures

A file is marked before its imports are looked at, and a check that meets the mark takes it for settled. When
the marked file fails later, its mark is taken back, and those that were put on top of it stay. So a mark
speaks for the whole import closure of its file only where nothing in that closure is at fault.
-/

namespace ImportCheck

variable {w : Surroundings} {s₀ s : Session} {roots : List Path} {M : Ledger}

/-! ## Sessions with no check in flight -/

namespace Underway

variable (hb : s₀.Blank) (h : Underway w s₀ roots s M) (hq : M.Quiet)

include hb h hq

theorem walked_of_imports {f x : Path} (hf : f ∈ s₀.walkedSince s) (hx : s₀.Imports w f x) :
    x ∈ s₀.walkedSince s := by
  rcases h.target_settled hq hf hx.1 hx.2 with hv | hw | ⟨-, hd⟩
  · rw [hb.not_valid] at hv
    cases hv
  · exact hw
  · rw [hb.not_declared] at hd
    cases hd

theorem walked_of_leads {f g : Path} (hf : f ∈ s₀.walkedSince s) (hg : s₀.Leads w f g) :
    g ∈ s₀.walkedSince s := by
  induction hg with
  | refl => exact hf
  | tail _ hx ih => exact h.walked_of_imports hb hq ih hx

theorem valid_leads_iff {f : Path} (hf : f ∈ s₀.walkedSince s) :
    (∀ g, s₀.Leads w f g → s.isValid g = true) ↔ ∀ g, s₀.Leads w f g → s₀.Sound w g := by
  constructor
  · intro hv g hg
    exact (h.tracked_sound hq (h.walked_of_leads hb hq hf hg) (hv g hg)).2
  · intro hs g hg
    by_contra hn
    rw [Bool.not_eq_true] at hn
    obtain ⟨b, -, hl, hns⟩ := h.honest.blamed g (h.walked_of_leads hb hq hf hg) hn
    exact hns (hs b (hg.trans hl))

/-- Marks are closed under imports when no marked file leads to a fault, and only then. -/
theorem valid_imports_iff :
    (∀ f ∈ s₀.walkedSince s, s.isValid f = true → ∀ x, s₀.Imports w f x → s.isValid x = true) ↔
      ∀ f ∈ s₀.walkedSince s, s.isValid f = true → ∀ g, s₀.Leads w f g → s₀.Sound w g := by
  constructor
  · intro hclosed f hf hv
    refine (h.valid_leads_iff hb hq hf).mp fun g hg => ?_
    induction hg with
    | refl => exact hv
    | tail hb' hx ih => exact hclosed _ (h.walked_of_leads hb hq hf hb') ih _ hx
  · intro hs f hf hv x hx
    exact (h.valid_leads_iff hb hq hf).mpr (hs f hf hv) x (.single hx)

theorem leads_iff {f g : Path} (hf : f ∈ s₀.walkedSince s) : s.Leads w f g ↔ s₀.Leads w f g :=
  Session.leads_congr fun _ hg =>
    h.orderly.known _ (.inl (h.orderly.met_of_walked (h.walked_of_leads hb hq hf hg)))

end Underway

/-! ## Any number of checks -/

/-- The part has returned, or it has not started. -/
def Task.Idle : Task → Prop
  | start (.check _) => True
  | done _ => True
  | _ => False

theorem quiet_of_idle {parts : List Task} (h : ∀ t ∈ parts, t.Idle) :
    (Task.posts w none (.group parts)).Quiet := by
  intro e he
  obtain ⟨t, ht, he⟩ := Task.mem_postsOf.mp he
  have hidle := h t ht
  unfold Task.Idle at hidle
  split at hidle
  · next r =>
    obtain rfl : e = ⟨none, .calling r false⟩ := by simpa [Task.posts] using he
    exact ⟨rfl, .inr ⟨r, rfl⟩⟩
  · exact ⟨(Task.stage_of_mem_posts_done he).1, .inl (Task.stage_of_mem_posts_done he).2.1⟩
  · exact hidle.elim

theorem posts_checks (roots : List Path) :
    Task.posts w none (.group (roots.map fun r => .start (.check r))) = .asked roots := by
  induction roots with
  | nil => rfl
  | cons r roots ih =>
      simp only [Task.posts] at ih
      simp only [Task.posts, List.map_cons, Task.postsOf, ih, Ledger.asked]
      rfl

theorem Task.Steps.ledgerSteps_checks {parts : List Task}
    (hs : Task.Steps w (s₀, .group (roots.map fun r => .start (.check r))) (s, .group parts)) :
    LedgerSteps w (s₀, .asked roots) (s, Task.posts w none (.group parts)) := by
  have hsteps := hs.ledgerSteps (posts_checks (w := w) roots ▸ tidy_asked s₀ roots)
  rwa [posts_checks] at hsteps

theorem Task.Steps.underway_group {parts : List Task}
    (hs : Task.Steps w (s₀, .group (roots.map fun r => .start (.check r))) (s, .group parts))
    (ha : s₀.SpelledAlike w roots) : Underway w s₀ roots s (Task.posts w none (.group parts)) :=
  hs.ledgerSteps_checks.underway ha

/-- A failed check leaves a failure in the ledger, and nothing else does when no check is in flight. -/
theorem not_flawed_of_all_ok {parts : List Task} (hidle : ∀ t ∈ parts, t.Idle)
    (hok : ∀ o, .done o ∈ parts → o.isOk = true) : ¬(Task.posts w none (.group parts)).Flawed := by
  rintro ⟨e, he, hf⟩
  obtain ⟨t, ht, he⟩ := Task.mem_postsOf.mp he
  have hidle := hidle t ht
  unfold Task.Idle at hidle
  split at hidle
  · next r =>
    obtain rfl : e = ⟨none, .calling r false⟩ := by simpa [Task.posts] using he
    exact hf
  · next o =>
    have := (Task.stage_of_mem_posts_done he).2.2.mp hf
    rw [hok o ht] at this
    cases this
  · exact hidle

/-- Marks and import closures, after any number of checks of any roots in a new session, in any order and at
any moment at which none of them is in flight. What a marked file leads to is marked if and only if nothing
that it leads to is at fault. So marks are closed under imports exactly if no marked file leads to a fault,
which is so as long as no check has failed. -/
theorem valid_closed_iff (options : CompilerOptions) (cwd : Path) (runtime defaultLib : LibFile)
    (w : Surroundings) (roots : List Path)
    (ha : (Session.new options cwd runtime defaultLib).SpelledAlike w roots) {s : Session}
    {parts : List Task}
    (hs : Task.Steps w (.new options cwd runtime defaultLib, .group (roots.map fun r => .start (.check r)))
      (s, .group parts)) (hidle : ∀ t ∈ parts, t.Idle) :
    (∀ p, s.isValid p = true → ∃ f ∈ s.walks, f.Same p) ∧
    (∀ f ∈ s.walks, (∀ g, s.Leads w f g → s.isValid g = true) ↔ ∀ g, s.Leads w f g → s.Sound w g) ∧
    ((∀ f ∈ s.walks, s.isValid f = true → ∀ x, s.Imports w f x → s.isValid x = true) ↔
      ∀ f ∈ s.walks, s.isValid f = true → ∀ g, s.Leads w f g → s.Sound w g) ∧
    ((∀ o, .done o ∈ parts → o.isOk = true) →
      ∀ f ∈ s.walks, s.isValid f = true → ∀ x, s.Imports w f x → s.isValid x = true) := by
  have hb := Session.blank_new options cwd runtime defaultLib
  have hq : (Task.posts w none (.group parts)).Quiet := quiet_of_idle hidle
  have h := hs.underway_group ha
  have hwalks : s.walks = (Session.new options cwd runtime defaultLib).walkedSince s := h.orderly.walks
  have himports : ∀ f ∈ s.walks, ∀ x, s.Imports w f x ↔
      (Session.new options cwd runtime defaultLib).Imports w f x := fun f hf x =>
    (h.orderly.known f (.inl (h.orderly.met_of_walked (hwalks ▸ hf)))).imports
  have hleads : ∀ f ∈ s.walks, ∀ g, s.Leads w f g ↔
      (Session.new options cwd runtime defaultLib).Leads w f g := fun f hf g =>
    h.leads_iff hb hq (hwalks ▸ hf)
  have hsound : ∀ f ∈ s.walks, (∀ g, s.Leads w f g → s.Sound w g) ↔
      ∀ g, (Session.new options cwd runtime defaultLib).Leads w f g →
        (Session.new options cwd runtime defaultLib).Sound w g := fun f hf =>
    forall_congr' fun g => by
      rw [hleads f hf g]
      exact imp_congr_right fun hg => (h.orderly.known g
        (.inl (h.orderly.met_of_walked (h.walked_of_leads hb hq (hwalks ▸ hf) hg)))).sound
  refine ⟨fun p hp => ?_, fun f hf => ?_, ?_, fun hok f hf _ x hx => ?_⟩
  · rw [hwalks]
    refine (h.orderly.valid_new p hp).resolve_left fun hv => ?_
    rw [hb.not_valid] at hv
    cases hv
  · rw [hsound f hf, ← h.valid_leads_iff hb hq (hwalks ▸ hf)]
    exact forall_congr' fun g => by rw [hleads f hf g]
  · have hiff := h.valid_imports_iff hb hq
    rw [← hwalks] at hiff
    refine Iff.trans ?_ (hiff.trans ?_)
    · exact forall₃_congr fun f hf _ => forall_congr' fun x => by rw [himports f hf x]
    · exact forall₃_congr fun f hf _ => (hsound f hf).symm
  · refine (h.honest.clean.resolve_left (not_flawed_of_all_ok hidle hok)).1 x ?_
    exact h.walked_of_imports hb hq (hwalks ▸ hf) ((himports f hf x).mp hx)

/-! ## A cycle with a fault in it -/

namespace Broken

open ImportCheck.Cycle (first second session)

/-- The two files of the cycle; the first one imports a module that does not exist, too. -/
def disk : MemoryDisk where
  entries := [(first, "import './b';\nimport './missing';"), (second, "import './a';")]
  distinct := by decide

def surroundings : Surroundings where
  disk := disk.disk
  resolver := Cycle.known.resolver

def checks : Task := .group ([first].map fun r => .start (.check r))

theorem targets_first : session.targets surroundings first = [second] := by decide +kernel

theorem targets_second : session.targets surroundings second = [first] := by decide +kernel

/-- The second file is checked to its end before the first one fails. -/
def order : List (List Nat) :=
  [[0], [0], [0, 0], [0, 0], [0, 0], [0, 0, 0], [0, 0, 0], [0, 1], [0, 1], [0, 1], [0, 1]]

def failedOnly : Task → Bool
  | .group [.done (.error _)] => true
  | _ => false

/-- Whether the root has failed, and the second file is valid and imports the first one, which is not. -/
def left (c : Session × Task) : Bool :=
  failedOnly c.2 && decide (second ∈ c.1.walks) && c.1.isValid second &&
    decide (first ∈ c.1.targets surroundings second) && !c.1.isValid first

theorem left_replay : left (Task.replay surroundings order (session, checks)) = true := by
  decide +kernel

theorem run : ∃ s e, Task.Steps surroundings (session, checks) (s, .group [.done (.error e)]) ∧
    second ∈ s.walks ∧ s.isValid second = true ∧ s.Imports surroundings second first ∧
      s.isValid first = false := by
  have hrun := Task.steps_replay surroundings order (session, checks)
  have hleft := left_replay
  generalize Task.replay surroundings order (session, checks) = c at hrun hleft
  obtain ⟨s, t⟩ := c
  simp only [left, Bool.and_eq_true, decide_eq_true_eq, Bool.not_eq_true'] at hleft
  obtain ⟨⟨⟨⟨ht, hw⟩, hv⟩, hx⟩, hn⟩ := hleft
  unfold failedOnly at ht
  split at ht
  · exact ⟨s, _, hrun, hw, hv, ⟨hx, by decide⟩, hn⟩
  · cases ht

end Broken

/-- No check is in flight, and a valid file imports one that is not valid. -/
theorem valid_not_closed : ∃ s parts, Task.Steps Broken.surroundings (Cycle.session, Broken.checks)
    (s, .group parts) ∧ (∀ t ∈ parts, t.Idle) ∧ ∃ f x, s.isValid f = true ∧
      s.Imports Broken.surroundings f x ∧ s.isValid x = false := by
  obtain ⟨s, e, hrun, -, hv, hx, hn⟩ := Broken.run
  exact ⟨s, _, hrun, by simp [Task.Idle], _, _, hv, hx, hn⟩

/-- The fault is in the closure of the file that stayed valid. -/
theorem valid_closed_iff_broken : ∃ s parts, Task.Steps Broken.surroundings (Cycle.session, Broken.checks)
    (s, .group parts) ∧ (∀ t ∈ parts, t.Idle) ∧ ∃ f g, s.isValid f = true ∧
      s.Leads Broken.surroundings f g ∧ ¬s.Sound Broken.surroundings g := by
  obtain ⟨s, e, hrun, hw, hv, hx, hn⟩ := Broken.run
  have hidle : ∀ t ∈ [Task.done (.error e)], t.Idle := by simp [Task.Idle]
  obtain ⟨-, hclosure, -, -⟩ := valid_closed_iff {} (.ofString "/p") .runtime .standard
    Broken.surroundings [Cycle.first] (Cycle.spelledAlike Broken.targets_first Broken.targets_second)
    hrun hidle
  refine ⟨s, _, hrun, hidle, ?_⟩
  by_contra hsound
  push Not at hsound
  have hall := (hclosure Cycle.second hw).mpr fun g hg => hsound Cycle.second g hv hg
  rw [hall Cycle.first (.single hx)] at hn
  cases hn

end ImportCheck
