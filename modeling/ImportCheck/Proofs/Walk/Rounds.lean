import ImportCheck.Proofs.Walk.Step

/-!
# Rounds are one of the orders

What a single worker does round by round is a run of steps, and so is work in any order that is written
down. So the worker comes to the end of whatever ends in every order.
-/

namespace ImportCheck

namespace Task

mutual
theorem waitsAt_of_next? {now : Nat} {place : List Nat} :
    (t : Task) → t.next? now = some place → t.waitsAt place = true
  | start _, h => by
      obtain rfl : [] = place := by simpa [next?] using h
      rfl
  | reading _ _ due, h => by
      obtain ⟨-, rfl⟩ : due ≤ now ∧ [] = place := by simpa [next?] using h
      rfl
  | resolving _ _ _ _ _ due, h => by
      obtain ⟨-, rfl⟩ : due ≤ now ∧ [] = place := by simpa [next?] using h
      rfl
  | walk _ _ parts, h => by
      obtain ⟨j, rest, rfl, part, hp, hw⟩ := waitsAt_of_nextAmong? parts h
      simpa [waitsAt, hp] using hw
  | group parts, h => by
      obtain ⟨j, rest, rfl, part, hp, hw⟩ := waitsAt_of_nextAmong? parts h
      simpa [waitsAt, hp] using hw
  | done _, h => by simp [next?] at h

theorem waitsAt_of_nextAmong? {now i : Nat} {place : List Nat} :
    (ts : List Task) → nextAmong? now i ts = some place →
      ∃ j rest, place = (i + j) :: rest ∧ ∃ part, ts[j]? = some part ∧ part.waitsAt rest = true
  | [], h => by simp [nextAmong?] at h
  | t :: ts, h => by
      unfold nextAmong? at h
      split at h
      · next rest hn =>
        obtain rfl : i :: rest = place := by simpa using h
        exact ⟨0, rest, rfl, t, rfl, waitsAt_of_next? t hn⟩
      · obtain ⟨j, rest, rfl, part, hp, hw⟩ := waitsAt_of_nextAmong? ts h
        exact ⟨j + 1, rest, by rw [Nat.add_right_comm, Nat.add_assoc], part, hp, hw⟩
end

theorem isSome_nextAmong? {now i : Nat} {ts : List Task} {part : Task} (hp : part ∈ ts)
    (h : (part.next? now).isSome = true) : (nextAmong? now i ts).isSome = true := by
  induction ts generalizing i with
  | nil => cases hp
  | cons t ts ih =>
      unfold nextAmong?
      split
      · rfl
      · next hn =>
        rcases List.mem_cons.mp hp with rfl | hp
        · rw [hn] at h
          cases h
        · exact ih hp

/-- What waits is due from some round on. -/
theorem exists_due {place : List Nat} {t : Task} (h : t.waitsAt place = true) :
    ∃ due, ∀ now, due ≤ now → (t.next? now).isSome = true := by
  induction place generalizing t with
  | nil =>
      cases t with
      | start _ => exact ⟨0, fun _ _ => rfl⟩
      | reading _ _ due => exact ⟨due, fun now h => by simp [next?, h]⟩
      | resolving _ _ _ _ _ due => exact ⟨due, fun now h => by simp [next?, h]⟩
      | _ => simp [waitsAt] at h
  | cons i rest ih =>
      have hpart : ∀ ts : List Task, (ts[i]?.map (waitsAt rest)).getD false = true →
          ∃ due, ∀ now, due ≤ now → (nextAmong? now 0 ts).isSome = true := by
        intro ts h
        cases hi : ts[i]? with
        | none => simp [hi] at h
        | some part =>
            obtain ⟨due, hdue⟩ := ih (t := part) (by simpa [hi] using h)
            exact ⟨due, fun now hn => isSome_nextAmong? (List.mem_of_getElem? hi) (hdue now hn)⟩
      cases t with
      | walk _ _ parts => exact hpart parts h
      | group parts => exact hpart parts h
      | _ => simp [waitsAt] at h

end Task

theorem Work.step_steps (w : Surroundings) (work : Work) :
    Task.Steps w (work.session, work.task) ((work.step w).session, (work.step w).task) := by
  unfold Work.step
  split
  · next place h => exact .single ⟨work.now, place, Task.waitsAt_of_next? _ h, rfl⟩
  · exact .refl

theorem Work.run_steps (w : Surroundings) (n : Nat) (work : Work) :
    Task.Steps w (work.session, work.task) ((work.run w n).session, (work.run w n).task) := by
  induction n generalizing work with
  | zero => exact .refl
  | succ n ih =>
      unfold Work.run
      split
      · exact .refl
      · exact (work.step_steps w).trans (ih (work.step w))

theorem Work.exists_finished_of_step {w : Surroundings} {work : Work}
    (h : ∃ n, (Work.run w n (work.step w)).task.isFinished = true) :
    ∃ n, (Work.run w n work).task.isFinished = true := by
  obtain ⟨n, hn⟩ := h
  refine ⟨n + 1, ?_⟩
  unfold Work.run
  split
  · next hdone => exact hdone
  · exact hn

/-- A worker that waits as long as nothing is due finishes what comes to an end in every order. -/
theorem Work.exists_finished {w : Surroundings} {P : Session → Outcome → Prop} {c : Session × Task}
    (h : Task.Returns w P c) (now : Nat) :
    ∃ n, (Work.run w n { session := c.1, task := c.2, now }).task.isFinished = true := by
  induction h generalizing now with
  | done _ => exact ⟨0, rfl⟩
  | @work c he _ ih =>
      obtain ⟨-, -, place, hp, -⟩ := he
      obtain ⟨due, hdue⟩ := Task.exists_due hp
      -- `k` rounds can pass before something is due
      obtain ⟨k, hk⟩ : ∃ k, due ≤ now + k := ⟨due, Nat.le_add_left _ _⟩
      induction k generalizing now with
      | zero =>
          obtain ⟨place, hnext⟩ := Option.isSome_iff_exists.mp (hdue now hk)
          refine Work.exists_finished_of_step ?_
          simp only [Work.step, hnext]
          exact ih _ ⟨now, place, Task.waitsAt_of_next? _ hnext, rfl⟩ now
      | succ k ihk =>
          refine Work.exists_finished_of_step ?_
          cases hnext : c.2.next? now with
          | none =>
              simp only [Work.step, hnext]
              exact ihk (now + 1) (by omega)
          | some place =>
              simp only [Work.step, hnext]
              exact ih _ ⟨now, place, Task.waitsAt_of_next? _ hnext, rfl⟩ now

/-- A task that is done in one go takes steps, like one that is worked at place by place. -/
theorem Session.perform_steps (s : Session) (w : Surroundings) (n : Nat) (t : Task) :
    Task.Steps w (s, t) (s.perform w n t) := Work.run_steps w n { session := s, task := t }

namespace Task

/-- Works at the leaves in the order given, and passes over places where nothing waits. -/
def replay (w : Surroundings) : List (List Nat) → Session × Task → Session × Task
  | [], c => c
  | place :: places, c =>
    replay w places (if c.2.waitsAt place then c.2.advance w 0 place c.1 else c)

theorem steps_replay (w : Surroundings) (places : List (List Nat)) (c : Session × Task) :
    Steps w c (replay w places c) := by
  induction places generalizing c with
  | nil => exact .refl
  | cons place places ih =>
      unfold replay
      split
      · next hw => exact .head ⟨0, place, hw, rfl⟩ (ih _)
      · exact ih c

theorem outcome?_eq_some {t : Task} {o : Outcome} (h : t.outcome? = some o) : t = done o := by
  cases t with
  | done o' => exact congrArg done (Option.some.inj h)
  | _ => cases h

theorem steps_of_replay {w : Surroundings} {places : List (List Nat)} {c : Session × Task} {o : Outcome}
    (h : (replay w places c).2.outcome? = some o) : Steps w c ((replay w places c).1, done o) := by
  have hs := steps_replay w places c
  have he : replay w places c = ((replay w places c).1, done o) := Prod.ext rfl (outcome?_eq_some h)
  rwa [he] at hs

end Task

end ImportCheck
