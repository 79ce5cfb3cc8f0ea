import ImportCheck.Session.Rounds
import Mathlib.Logic.Relation

/-!
# Working at a task, in any order

A step works at one waiting leaf, whichever it is, so that the runs of a task are all the orders in which
reads and answers can come back. `Returns` says that every such order comes to an end.
-/

namespace ImportCheck.Task

/-- The place leads to a leaf that is not done. -/
def waitsAt : List Nat → Task → Bool
  | i :: rest, walk _ _ parts => (parts[i]?.map (waitsAt rest)).getD false
  | i :: rest, group parts => (parts[i]?.map (waitsAt rest)).getD false
  | [], start _ => true
  | [], reading .. => true
  | [], resolving .. => true
  | _, _ => false

theorem waitsAt_done (o : Outcome) (place : List Nat) : (done o).waitsAt place = false := by
  cases place <;> rfl

def Step (w : Surroundings) (c c' : Session × Task) : Prop :=
  ∃ now place, c.2.waitsAt place = true ∧ c' = advance w now place c.1 c.2

/-- Leaves are worked at, one after another, in some order. -/
abbrev Steps (w : Surroundings) : Session × Task → Session × Task → Prop :=
  Relation.ReflTransGen (Step w)

/-- Whichever leaf is worked at next, all will be done after finitely many steps, and then `P` holds. -/
inductive Returns (w : Surroundings) (P : Session → Outcome → Prop) : Session × Task → Prop
  | done {s : Session} {o : Outcome} (h : P s o) : Returns w P (s, done o)
  | work {c : Session × Task} (he : ∃ c', Step w c c') (h : ∀ c', Step w c c' → Returns w P c') :
      Returns w P c

theorem not_step_done {w : Surroundings} {s : Session} {o : Outcome} {c : Session × Task} :
    ¬Step w (s, done o) c := by
  rintro ⟨now, place, h, -⟩
  rw [waitsAt_done] at h
  cases h

theorem Returns.of_steps {w : Surroundings} {P : Session → Outcome → Prop} {c : Session × Task}
    (h : Returns w P c) {s : Session} {o : Outcome} (hs : Steps w c (s, Task.done o)) : P s o := by
  induction h with
  | done h =>
      rcases Relation.ReflTransGen.cases_head hs with e | ⟨c', hc, -⟩
      · cases e
        exact h
      · exact absurd hc not_step_done
  | work he _ ih =>
      rcases Relation.ReflTransGen.cases_head hs with e | ⟨c', hc, hrest⟩
      · subst e
        obtain ⟨c', hc⟩ := he
        exact absurd hc not_step_done
      · exact ih c' hc hrest

theorem Returns.exists_steps {w : Surroundings} {P : Session → Outcome → Prop} {c : Session × Task}
    (h : Returns w P c) : ∃ s o, Steps w c (s, Task.done o) ∧ P s o := by
  induction h with
  | done h => exact ⟨_, _, .refl, h⟩
  | work he _ ih =>
      obtain ⟨c', hc⟩ := he
      obtain ⟨s, o, hs, hp⟩ := ih c' hc
      exact ⟨s, o, .head hc hs, hp⟩

theorem Returns.and_of_steps {w : Surroundings} {P Q : Session → Outcome → Prop} {c : Session × Task}
    (h : Returns w P c) (hq : ∀ s o, Steps w c (s, Task.done o) → Q s o) : Returns w Q c := by
  induction h with
  | done _ => exact .done (hq _ _ .refl)
  | work he _ ih => exact .work he fun c' hc => ih c' hc fun s o hs => hq s o (.head hc hs)

/-! ## Work that can go on -/

mutual
/-- Every walk in the task still has a part that is not done. -/
def Settled : Task → Prop
  | walk _ _ parts => (∃ t ∈ parts, t.outcome? = none) ∧ AreSettled parts
  | group _ => False
  | _ => True

def AreSettled : List Task → Prop
  | [] => True
  | t :: ts => Settled t ∧ AreSettled ts
end

theorem areSettled_iff {ts : List Task} : AreSettled ts ↔ ∀ t ∈ ts, Settled t := by
  induction ts with
  | nil => simp [AreSettled]
  | cons t ts ih => simp [AreSettled, ih]

theorem settled_settle {s : Session} {f : Path} {registered : Bool} {parts : List Task}
    (h : ∀ t ∈ parts, Settled t) : (settle s f registered parts).2.Settled := by
  unfold settle
  split
  · split
    · simp [failWalk, Settled]
    · simp [Settled]
  · next hp =>
    rw [List.all_eq_true, Classical.not_forall] at hp
    obtain ⟨t, hp⟩ := hp
    obtain ⟨ht, ho⟩ := Classical.not_imp.mp hp
    exact ⟨⟨t, ht, by simpa using ho⟩, areSettled_iff.mpr h⟩

theorem settled_scan (s : Session) (f : Path) (registered : Bool) :
    (scan s f registered).2.Settled := by
  unfold scan
  split
  · simp [failWalk, Settled]
  · refine settled_settle fun t ht => ?_
    simp only [List.mem_map] at ht
    obtain ⟨_, -, rfl⟩ := ht
    trivial

variable (w : Surroundings) (now : Nat)

theorem settled_check (s : Session) (f : Path) (registered : Bool) :
    (check w now s f registered).2.Settled := by
  unfold check
  split
  · trivial
  · simp only
    split
    · exact settled_scan _ _ _
    · trivial

theorem settled_reach (s : Session) (f : Path) (t : String) (goal : ResolveGoal) (x : Path) :
    (reach w now s f t goal x).2.Settled := by
  unfold reach
  cases goal with
  | deliver => trivial
  | follow =>
      simp only
      split
      · split
        · exact settled_check ..
        · trivial
      · trivial
      · exact settled_check ..

theorem settled_startResolving (s : Session) (f : Path) (t : String) (goal : ResolveGoal) :
    (startResolving w now s f t goal).2.Settled := by
  unfold startResolving
  split
  · exact settled_reach ..
  · trivial

theorem settled_finishCall (s : Session) (f : Path) (t c : String) (rest : List String)
    (goal : ResolveGoal) : (finishCall w now s f t c rest goal).2.Settled := by
  unfold finishCall
  simp only
  split
  · exact settled_reach ..
  · trivial
  · trivial

theorem settled_finishReading (s : Session) (f : Path) (goal : ReadGoal) :
    (finishReading w s f goal).2.Settled := by
  unfold finishReading
  split <;> first | trivial | exact settled_scan _ _ _

theorem settled_begin (s : Session) (request : Request) : (begin w now s request).2.Settled := by
  cases request with
  | check f => exact settled_check ..
  | follow f t => exact settled_startResolving ..
  | resolve f t => exact settled_startResolving ..
  | readTextNow f => exact settled_finishReading ..
  | readAndUpdateNow f checked =>
      simp only [begin]
      split <;> trivial
  | _ => trivial

/-- Work keeps every walk open until the last of its parts is done, and no longer. -/
theorem Settled.advance {t : Task} (place : List Nat) (s : Session) (h : t.Settled) :
    (advance w now place s t).2.Settled := by
  induction place generalizing s t with
  | nil =>
      cases t with
      | start request => exact settled_begin ..
      | reading f goal due => exact settled_finishReading ..
      | resolving f t c rest goal due => exact settled_finishCall ..
      | walk f registered parts => exact h
      | group parts => exact h
      | done o => exact h
  | cons i rest ih =>
      cases t with
      | start request => exact settled_begin ..
      | reading f goal due => exact settled_finishReading ..
      | resolving f t c cs goal due => exact settled_finishCall ..
      | walk f registered parts =>
          simp only [Task.advance]
          cases hp : parts[i]? with
          | none => exact h
          | some part =>
              refine settled_settle fun t ht => ?_
              have hall := areSettled_iff.mp h.2
              rcases List.mem_or_eq_of_mem_set ht with ht | rfl
              · exact hall t ht
              · exact ih _ (hall part (List.mem_of_getElem? hp))
      | group parts => exact h.elim
      | done o => exact h

theorem Settled.exists_waitsAt {t : Task} (h : t.Settled) (ho : t.outcome? = none) :
    ∃ place, t.waitsAt place = true := by
  match t with
  | start _ => exact ⟨[], rfl⟩
  | reading .. => exact ⟨[], rfl⟩
  | resolving .. => exact ⟨[], rfl⟩
  | done o => simp [outcome?] at ho
  | group parts => exact h.elim
  | walk f registered parts =>
      obtain ⟨⟨part, hm, hpart⟩, hall⟩ := h
      obtain ⟨i, hi, rfl⟩ := List.mem_iff_getElem.mp hm
      have hs : parts[i].Settled := areSettled_iff.mp hall _ hm
      obtain ⟨place, hplace⟩ := Settled.exists_waitsAt hs hpart
      exact ⟨i :: place, by simp [waitsAt, List.getElem?_eq_getElem hi, hplace]⟩
termination_by sizeOf t
decreasing_by
  have := List.sizeOf_lt_of_mem hm
  simp only [walk.sizeOf_spec]
  omega

theorem Settled.step {w : Surroundings} {c c' : Session × Task} (h : c.2.Settled) (hs : Step w c c') :
    c'.2.Settled := by
  obtain ⟨now, place, -, rfl⟩ := hs
  exact h.advance w now place c.1

theorem Settled.exists_step {c : Session × Task} (h : c.2.Settled) (ho : c.2.outcome? = none) :
    ∃ c', Step w c c' := by
  obtain ⟨place, hp⟩ := h.exists_waitsAt ho
  exact ⟨_, 0, place, hp, rfl⟩

end ImportCheck.Task
