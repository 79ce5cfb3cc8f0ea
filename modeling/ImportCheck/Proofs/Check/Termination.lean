import ImportCheck.Proofs.Check.Outcome
import ImportCheck.Proofs.Walk.Rounds
import ImportCheck.Proofs.Walk.Within
import Mathlib.Data.Set.Card

/-!
# Checks of finitely many files

A check that stays within finitely many places comes to an end, whatever waits for whatever: its walks can only be
so deep, and each of them names only so many files. How often a file is walked is not bounded by this, for a walk
that has failed can be repeated by a later one.
-/

namespace ImportCheck

variable {s s' : Session} {w : Surroundings} {root : Path} {U : Set Path} {t : Task}

/-- Different places in a finite set of places are no more than these. -/
theorem length_le_ncard {l : List Path} (hU : (Path.components '' U).Finite) (hl : ∀ f ∈ l, f ∈ U)
    (hd : (l.map Path.components).Nodup) : l.length ≤ (Path.components '' U).ncard := by
  rw [← l.length_map Path.components, ← List.toFinset_card_of_nodup hd, ← Set.ncard_coe_finset]
  refine Set.ncard_le_ncard (fun c hc => ?_) hU
  obtain ⟨f, hf, rfl⟩ := List.mem_map.mp (by simpa using hc)
  exact ⟨f, hl f hf, rfl⟩

namespace Task

/-- The walks that are open inside of each other when work is done in a check of a file. -/
theorem Steps.nested {m : Moment} (hs : Steps w (s, start (.check root)) (m.session, m.task)) (hr : root ∈ U)
    (hc : s.ClosedUnder w U) (hm : m.around = w) (hp : m.task.waitsAt m.place = true) :
    (∀ f ∈ m.nested, f ∈ U) ∧ (m.nested.map Path.components).Nodup := by
  obtain ⟨h, hrun, hw⟩ := Runs.of_steps hs
  exact hrun.nested (asks_check root) (by simpa using hr) hc hw hm hp

/-- Each step lowers the ranks. -/
theorem Steps.lower {c : Session × Task} (hs : Steps w (s, start (.check root)) (s', t)) (hr : root ∈ U)
    (hc : s.ClosedUnder w U) (hU : (Path.components '' U).Finite) (hstep : Step w (s', t) c) :
    Relation.CutExpand Lower (c.2.ranks w (Path.components '' U).ncard)
      (t.ranks w (Path.components '' U).ncard) := by
  obtain ⟨h, hrun, hw⟩ := Runs.of_steps hs
  obtain ⟨now, place, hp, rfl⟩ := hstep
  let m : Moment := { around := w, now, place, session := s', task := t }
  obtain ⟨hin, hdistinct⟩ := Steps.nested (m := m) hs hr hc rfl hp
  exact m.ranks_after (hrun.watched (asks_check root)).checking hp (length_le_ncard hU hin hdistinct)

theorem returns_of_closed (hr : root ∈ U) (hc : s.ClosedUnder w U) (hU : (Path.components '' U).Finite) :
    Returns w (fun _ _ => True) (s, start (.check root)) := by
  have hwf : WellFounded (Relation.CutExpand Lower) :=
    (WellFounded.prod_lex wellFounded_lt wellFounded_lt).cutExpand
  have hall : ∀ M, ∀ s' t, Steps w (s, start (.check root)) (s', t) → t.Settled →
      t.ranks w (Path.components '' U).ncard = M → Returns w (fun _ _ => True) (s', t) := by
    intro M
    induction M using hwf.induction with
    | _ M ih =>
        rintro s' t hs hsettled rfl
        cases ho : t.outcome? with
        | some o =>
            obtain rfl := outcome?_eq_some ho
            exact .done trivial
        | none =>
            exact .work (hsettled.exists_step w ho) fun c hstep =>
              ih _ (hs.lower hr hc hU hstep) c.1 c.2 (hs.tail hstep) (Settled.step hsettled hstep) rfl
  exact hall _ s _ .refl trivial rfl

end Task

/-- Checks terminate. If a set of files has finitely many places, holds the root, and is closed under what its
files name, then the check comes to an end in every order of reads and answers, and so it does round by round,
however long each of them takes. The walks that are open inside of each other are always of different places in
the set, and so no more than there are. -/
theorem check_terminates (s : Session) (w : Surroundings) (root : Path) (U : Set Path)
    (hU : (Path.components '' U).Finite) (hr : root ∈ U) (hc : s.ClosedUnder w U) :
    Task.Returns w (fun _ _ => True) (s, .start (.check root)) ∧
      (∃ n, (s.perform w n (.start (.check root))).2.isFinished = true) ∧
      ∀ m : Moment, Task.Steps w (s, .start (.check root)) (m.session, m.task) → m.around = w →
        m.task.waitsAt m.place = true → (∀ f ∈ m.nested, f ∈ U) ∧ (m.nested.map Path.components).Nodup ∧
          m.nested.length ≤ (Path.components '' U).ncard := by
  have hreturns := Task.returns_of_closed hr hc hU
  refine ⟨hreturns, Work.exists_finished hreturns 0, fun m hs hm hp => ?_⟩
  obtain ⟨hin, hdistinct⟩ := Task.Steps.nested hs hr hc hm hp
  exact ⟨hin, hdistinct, length_le_ncard hU hin hdistinct⟩

theorem Cycle.closedUnder : session.ClosedUnder surroundings {first, second} := by
  refine Session.closedUnder_of_targets ?_ ?_
  · have hne : first.components ≠ second.components := by decide
    rintro p (rfl | rfl) q (rfl | rfl) h
    · rfl
    · exact absurd h hne
    · exact absurd h hne.symm
    · rfl
  · rintro f (rfl | rfl) x hx -
    · rw [targets_first, List.mem_singleton] at hx
      exact .inr hx
    · rw [targets_second, List.mem_singleton] at hx
      exact .inl hx

/-- Two files that import each other are walked inside of each other at most once each. -/
theorem check_terminates_cycle :
    Task.Returns Cycle.surroundings (fun _ _ => True) (Cycle.session, .start (.check Cycle.first)) ∧
      ∀ m : Moment, Task.Steps Cycle.surroundings (Cycle.session, .start (.check Cycle.first))
        (m.session, m.task) → m.around = Cycle.surroundings → m.task.waitsAt m.place = true →
          m.nested.length ≤ 2 := by
  have hfinite : (Path.components '' {Cycle.first, Cycle.second}).Finite := (Set.toFinite _).image _
  obtain ⟨hreturns, -, hnested⟩ := check_terminates Cycle.session Cycle.surroundings Cycle.first
    {Cycle.first, Cycle.second} hfinite (.inl rfl) Cycle.closedUnder
  refine ⟨hreturns, fun m hs hm hp => (hnested m hs hm hp).2.2.trans ?_⟩
  exact (Set.ncard_image_le (Set.toFinite _)).trans (Set.ncard_pair (by decide)).le

end ImportCheck
