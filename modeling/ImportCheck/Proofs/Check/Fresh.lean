import ImportCheck.Proofs.Check.Outcome
import ImportCheck.Proofs.Walk.Parsed

/-!
# Checking from scratch

Where nothing is marked and nothing is registered, a check reaches the whole import closure of its root. A
session with a past reaches no more than that.
-/

namespace ImportCheck

namespace Session

structure Blank (s : Session) : Prop where
  not_valid : ∀ p, s.isValid p = false
  not_declared : ∀ p, s.graph.hasDeclaration p = false

theorem blank_new (options : CompilerOptions) (cwd : Path) (runtime defaultLib : LibFile) :
    (Session.new options cwd runtime defaultLib).Blank := ⟨fun _ => rfl, fun _ => rfl⟩

theorem blank_afresh (s : Session) : s.afresh.Blank := ⟨fun _ => rfl, fun _ => rfl⟩

variable {w : Surroundings} {s s₀ : Session} {roots : List Path} {root f g x p : Path}

/-- A session that starts blank reaches whatever its roots lead to. -/
theorem Reached.imports (hb : s₀.Blank) (hf : s₀.Reached w roots f) (hx : s₀.Imports w f x) :
    s₀.Reached w roots x := by
  obtain ⟨hx, hk⟩ := hx
  cases h : x.kind with
  | compiled => exact absurd h hk
  | source => exact .source hf hx h (hb.not_valid x)
  | declaration => exact .declaration hf hx h (hb.not_valid x) (hb.not_declared x)

theorem Reached.leads (hb : s₀.Blank) (hf : s₀.Reached w roots f) (hg : s₀.Leads w f g) :
    s₀.Reached w roots g := by
  induction hg with
  | refl => exact hf
  | tail _ hx ih => exact ih.imports hb hx

theorem Reached.leads_root (hf : s.Reached w [root] f) : s.Leads w root f := by
  induction hf with
  | root hr _ => exact List.mem_singleton.mp hr ▸ .refl
  | source _ hx hk _ ih => exact ih.tail ⟨hx, by simp [hk]⟩
  | declaration _ hx hk _ _ ih => exact ih.tail ⟨hx, by simp [hk]⟩

/-! ## Sessions that start over -/

variable (hc : s.Coherent)

include hc

theorem Coherent.reached_afresh_iff : s.afresh.Reached w [root] f ↔ s.Leads w root f := by
  rw [← leads_congr fun g _ => hc.knowAlike_afresh w g]
  constructor
  · exact Reached.leads_root
  · exact (Reached.root (List.mem_singleton_self root) rfl).leads s.blank_afresh

theorem Coherent.met_afresh_iff : s.afresh.Met w [root] p ↔
    p = root ∨ ∃ f, s.Leads w root f ∧ p ∈ s.targets w f := by
  simp only [Met, List.mem_singleton, hc.reached_afresh_iff, (hc.knowAlike_afresh w _).targets]

theorem Coherent.spelledAlike (ha : s.afresh.SpelledAlike w [root]) : s.SpelledAlike w [root] := by
  have hmet : ∀ p, s.Met w [root] p → s.afresh.Met w [root] p := by
    rintro p (hp | ⟨f, hf, hx⟩)
    · exact .inl hp
    · exact hc.met_afresh_iff.mpr (.inr ⟨f, hf.leads_root, hx⟩)
  exact fun p q hp hq => ha p q (hmet p hp) (hmet q hq)

end Session

/-! ## Checks that are bound to succeed -/

/-- A check of the root returns under every order of reads and answers, and succeeds. -/
def Session.Passes (s : Session) (w : Surroundings) (root : Path) : Prop :=
  Task.Returns w (fun _ o => o.isOk = true) (s, .start (.check root))

namespace Session

variable {w : Surroundings} {s : Session} {root : Path}

theorem passes_iff (ha : s.SpelledAlike w [root]) : s.Passes w root ↔
    {f | s.Reached w [root] f}.Finite ∧ ∀ f, s.Reached w [root] f → s.Sound w f := by
  constructor
  · intro h
    obtain ⟨s', o, hs, ho⟩ := h.exists_steps
    exact ⟨hs.finite_reached ha, (hs.isOk_iff ha).mp ho⟩
  · rintro ⟨hfin, hsound⟩
    exact ((Task.returns_iff ha).mpr hfin).and_of_steps fun s' o hs => (hs.isOk_iff ha).mpr hsound

/-- One order of reads and answers under which the check succeeds tells of all others. -/
theorem passes_of_steps {s' : Session} {o : Outcome} (ha : s.SpelledAlike w [root])
    (hs : Task.Steps w (s, .start (.check root)) (s', .done o)) (ho : o.isOk = true) :
    s.Passes w root :=
  (passes_iff ha).mpr ⟨hs.finite_reached ha, (hs.isOk_iff ha).mp ho⟩

theorem Coherent.passes_afresh_iff (hc : s.Coherent) (ha : s.afresh.SpelledAlike w [root]) :
    s.afresh.Passes w root ↔
      {f | s.Leads w root f}.Finite ∧ ∀ f, s.Leads w root f → s.Sound w f := by
  simp only [passes_iff ha, hc.reached_afresh_iff, (hc.knowAlike_afresh w _).sound]

end Session

end ImportCheck
