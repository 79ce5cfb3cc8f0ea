import ImportCheck.Proofs.Walk.History
import Mathlib.Algebra.GroupWithZero.Nat

/-!
# Failures come out

A walk that fails leaves a failure among the parts of the walk that asked for it, and this one fails in its turn when
its parts are done. So no walk has failed in work that comes to a success.
-/

namespace ImportCheck

namespace Task

mutual
/-- How many parts are done and have failed. -/
def flaws : Task → Nat
  | walk _ _ parts => flawsIn parts
  | group parts => flawsIn parts
  | done o => if o.isOk then 0 else 1
  | _ => 0

def flawsIn : List Task → Nat
  | [] => 0
  | t :: ts => flaws t + flawsIn ts
end

theorem flawsIn_eq_sum (ts : List Task) : flawsIn ts = (ts.map flaws).sum := by
  induction ts with
  | nil => rfl
  | cons t ts ih => simp [flawsIn, ih]

theorem flawsIn_set {ts : List Task} {i : Nat} {part : Task} (h : ts[i]? = some part) (t : Task) :
    flawsIn (ts.set i t) = flawsIn (ts.eraseIdx i) + t.flaws := by
  simp only [flawsIn_eq_sum, sum_map_set _ h]

theorem flawsIn_eq {ts : List Task} {i : Nat} {part : Task} (h : ts[i]? = some part) :
    flawsIn ts = flawsIn (ts.eraseIdx i) + part.flaws := by
  simp only [flawsIn_eq_sum, ← sum_map_eq _ h]

/-- If none of the parts that are done is a failure, none has failed. -/
theorem flawsIn_of_firstFailure? {parts : List Task} (hall : parts.all (·.outcome?.isSome) = true)
    (hnone : firstFailure? parts = none) : flawsIn parts = 0 := by
  rw [flawsIn_eq_sum]
  refine List.sum_eq_zero fun n hn => ?_
  obtain ⟨t, ht, rfl⟩ := List.mem_map.mp hn
  have hdone := List.all_eq_true.mp hall t ht
  have hfail := List.findSome?_eq_none_iff.mp hnone t ht
  cases t with
  | done o =>
      cases o with
      | ok a => rfl
      | error e => cases hfail
  | _ => cases hdone

variable {w : Surroundings} {s : Session}

/-- A walk with a failure among its parts keeps it, or fails. -/
theorem flaws_settle {f : Path} {registered : Bool} {parts : List Task} (h : 0 < flawsIn parts) :
    0 < (settle s f registered parts).2.flaws := by
  unfold settle
  split
  · next hall =>
    split
    · exact Nat.one_pos
    · next hnone => exact absurd (flawsIn_of_firstFailure? hall hnone) (by omega)
  · exact h

theorem flaws_of_ended {f : Path} {t : Task} {e : Path × Outcome} (he : e ∈ ended f t) (hf : e.2.isOk = false) :
    0 < t.flaws := by
  cases t with
  | done o =>
      obtain rfl := List.mem_singleton.mp he
      simp only at hf
      simp [flaws, hf]
  | _ => cases he

/-- What has failed before stays, and a walk that fails is one more. -/
theorem flaws_advance (now : Nat) {place : List Nat} {t leaf : Task} (s : Session) (hl : t.leafAt? place = some leaf)
    (h : 0 < t.flaws ∨ ∃ e ∈ endings w now place s t, e.2.isOk = false) :
    0 < (advance w now place s t).2.flaws := by
  induction place generalizing t with
  | nil =>
      have hself : t.flaws = 0 ∧ endings w now [] s t =
          (t.reads?.toList ++ (advance w now [] s t).1.walks.drop s.walks.length).flatMap
            (ended · (advance w now [] s t).2) := by
        cases t <;> simp_all [leafAt?, flaws, endings]
      rcases h with h | ⟨e, he, hf⟩
      · omega
      · rw [hself.2] at he
        obtain ⟨f, -, he⟩ := List.mem_flatMap.mp he
        exact flaws_of_ended he hf
  | cons i rest ih =>
      cases t with
      | walk f registered parts =>
          obtain ⟨part, hi, hl⟩ := Option.bind_eq_some_iff.mp hl
          have ih := ih hl
          obtain ⟨s', part', hadvance⟩ : ∃ s' part', advance w now rest s part = (s', part') := ⟨_, _, rfl⟩
          simp only [flaws, endings, hi, hadvance, flawsIn_eq hi] at h ih
          simp only [advance, hi, hadvance]
          have hkeep : 0 < flawsIn (parts.eraseIdx i) + part'.flaws →
              0 < (settle s' f registered (parts.set i part')).2.flaws := fun hpos =>
            flaws_settle (by rwa [flawsIn_set hi])
          rcases h with h | ⟨e, he, hf⟩
          · by_cases hpart : 0 < part.flaws
            · have := ih (.inl hpart)
              exact hkeep (by omega)
            · exact hkeep (by omega)
          · rcases List.mem_append.mp he with he | he
            · have := ih (.inr ⟨e, he, hf⟩)
              exact hkeep (by omega)
            · exact flaws_of_ended he hf
      | group parts =>
          obtain ⟨part, hi, hl⟩ := Option.bind_eq_some_iff.mp hl
          have ih := ih hl
          simp only [flaws, endings, hi, flawsIn_eq hi] at h
          simp only [advance, hi, flaws, flawsIn_set hi]
          rcases h with h | h
          · by_cases hpart : 0 < part.flaws
            · have := ih (.inl hpart)
              omega
            · omega
          · have := ih (.inr h)
            omega
      | _ => simp [leafAt?] at hl

end Task

/-- Once a walk has failed the work cannot come to a success any more. -/
theorem Runs.flaws {c c' : Session × Task} {h : History} (hr : Runs c h c')
    (hf : ∃ e ∈ h.endings, e.2.isOk = false) : 0 < c'.2.flaws := by
  induction hr with
  | rest => simp [History.endings] at hf
  | @step h m _ hp ih =>
      obtain ⟨leaf, hl⟩ := Option.isSome_iff_exists.mp (Task.leafAt?_isSome.mpr hp)
      obtain ⟨e, he, hfail⟩ := hf
      rw [History.endings, List.flatMap_append, List.mem_append] at he
      refine Task.flaws_advance m.now m.session hl ?_
      rcases he with he | he
      · exact .inl (ih ⟨e, he, hfail⟩)
      · rw [List.flatMap_singleton] at he
        exact .inr ⟨e, he, hfail⟩

theorem Runs.isOk_of_ok {s s' : Session} {t : Task} {h : History} {a : Answer}
    (hr : Runs (s, t) h (s', .done (.ok a))) : ∀ e ∈ h.endings, e.2.isOk = true := by
  intro e he
  by_contra hfail
  exact absurd (hr.flaws ⟨e, he, by simpa using hfail⟩) (Nat.lt_irrefl 0)

end ImportCheck
