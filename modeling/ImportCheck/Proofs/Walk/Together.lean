import ImportCheck.Proofs.Walk.Bound

/-!
# Tasks side by side

A group works at its parts in any order. One order is to work at one part to its end before the next one starts,
so that what holds after every run of a group holds after its parts have been worked at in turn.
-/

namespace ImportCheck.Task

variable {w : Surroundings} {s s' : Session} {t : Task} {ts parts : List Task}

/-- Whichever leaf is worked at next, all will be done after finitely many steps. -/
inductive Finishes (w : Surroundings) : Session × Task → Prop
  | done {c : Session × Task} (h : c.2.isFinished = true) : Finishes w c
  | work {c : Session × Task} (he : ∃ c', Step w c c') (h : ∀ c', Step w c c' → Finishes w c') : Finishes w c

theorem Finishes.exists_steps {c : Session × Task} (h : Finishes w c) :
    ∃ c', Steps w c c' ∧ c'.2.isFinished = true := by
  induction h with
  | done h => exact ⟨_, .refl, h⟩
  | work he _ ih =>
      obtain ⟨c₁, hc⟩ := he
      obtain ⟨c', hs, hf⟩ := ih c₁ hc
      exact ⟨c', .head hc hs, hf⟩

/-- The requests are worked at one after another, each to its end. -/
inductive InTurn (w : Surroundings) : Session → List Request → Session → Prop
  | nil (s : Session) : InTurn w s [] s
  | cons {s s₁ s' : Session} {request : Request} {requests : List Request} {o : Outcome}
      (hs : Steps w (s, start request) (s₁, .done o)) (h : InTurn w s₁ requests s') :
      InTurn w s (request :: requests) s'

theorem areFinished_iff : areFinished ts = true ↔ ∀ t ∈ ts, t.isFinished = true := by
  induction ts with
  | nil => simp [areFinished]
  | cons t ts ih => simp [areFinished, ih]

theorem Settled.isFinished_iff (h : t.Settled) : t.isFinished = true ↔ ∃ o, t = .done o := by
  cases t with
  | group parts => exact h.elim
  | done o => simp [isFinished]
  | _ => simp [isFinished]

/-! ## One part of a group -/

theorem Steps.of_group {c : Session × Task} (h : ∀ t ∈ ts, t.Settled) (hs : Steps w (s, group ts) c) :
    ∃ parts, c.2 = .group parts ∧ parts.length = ts.length ∧ ∀ t ∈ parts, t.Settled := by
  induction hs with
  | refl => exact ⟨ts, rfl, rfl, h⟩
  | @tail b _ _ hb ih =>
      obtain ⟨s₁, t₁⟩ := b
      obtain ⟨parts, rfl, hl, hsettled⟩ := ih
      obtain ⟨now, place, hp, rfl⟩ := hb
      -- the place leads into a part
      cases place with
      | nil => simp [waitsAt] at hp
      | cons i rest =>
          cases hi : parts[i]? with
          | none => simp [waitsAt, hi] at hp
          | some part =>
              refine ⟨_, by simp only [advance, hi]; rfl, by simpa using hl, fun t ht => ?_⟩
              rcases List.mem_or_eq_of_mem_set ht with ht | rfl
              · exact hsettled t ht
              · exact (hsettled part (List.mem_of_getElem? hi)).advance w now rest s₁

theorem finished_iff (h : ∀ t ∈ parts, t.Settled) :
    (group parts).isFinished = true ↔ ∀ t ∈ parts, ∃ o, t = .done o :=
  areFinished_iff.trans (forall₂_congr fun t ht => (h t ht).isFinished_iff)

theorem Step.part {front rest : List Task} {c' : Session × Task} (hs : Step w (s, t) c') :
    Step w (s, group (front ++ t :: rest)) (c'.1, group (front ++ c'.2 :: rest)) := by
  obtain ⟨now, place, hp, rfl⟩ := hs
  refine ⟨now, front.length :: place, by simpa [waitsAt] using hp, ?_⟩
  simp [advance]

theorem Steps.part {front rest : List Task} {c' : Session × Task} (hs : Steps w (s, t) c') :
    Steps w (s, group (front ++ t :: rest)) (c'.1, group (front ++ c'.2 :: rest)) := by
  induction hs with
  | refl => exact .refl
  | tail _ hb ih => exact ih.tail hb.part

/-- Work in turn is one of the ways to work side by side. -/
theorem InTurn.steps {requests : List Request} (h : InTurn w s requests s') : ∃ parts : List Task,
    (∀ t ∈ parts, ∃ o, t = .done o) ∧ ∀ front, Steps w (s, group (front ++ requests.map start))
      (s', group (front ++ parts)) := by
  induction h with
  | nil s => exact ⟨[], by simp, fun _ => .refl⟩
  | @cons s s₁ s' request requests o hs _ ih =>
      obtain ⟨parts, hdone, hsteps⟩ := ih
      refine ⟨.done o :: parts, by simpa using hdone, fun front => ?_⟩
      have hrest := hsteps (front ++ [.done o])
      simp only [List.append_assoc, List.cons_append, List.nil_append] at hrest
      exact hs.part.trans hrest

/-- A group that finishes finishes, too, when one of its parts is worked at to its end first. -/
theorem Finishes.part {front rest : List Task} (ht : t.Settled)
    (h : Finishes w (s, group (front ++ t :: rest))) : ∃ s' o, Steps w (s, t) (s', .done o) ∧
      Finishes w (s', group (front ++ .done o :: rest)) := by
  generalize hc : (s, group (front ++ t :: rest)) = c at h
  induction h generalizing s t with
  | done h =>
      subst hc
      obtain ⟨o, rfl⟩ := ht.isFinished_iff.mp (areFinished_iff.mp h t (by simp))
      exact ⟨s, o, .refl, .done h⟩
  | work he h ih =>
      subst hc
      cases ho : t.outcome? with
      | some o =>
          obtain rfl : t = .done o := by cases t <;> simp_all [outcome?]
          exact ⟨s, o, .refl, .work he h⟩
      | none =>
          obtain ⟨c', hc'⟩ := ht.exists_step w (c := (s, t)) ho
          obtain ⟨s', o, hs, hf⟩ := ih _ hc'.part (ht.step hc') rfl
          exact ⟨s', o, .head hc' hs, hf⟩

theorem Finishes.inTurn {requests : List Request} {front : List Task}
    (h : Finishes w (s, group (front ++ requests.map start))) : ∃ s', InTurn w s requests s' := by
  induction requests generalizing s front with
  | nil => exact ⟨s, .nil s⟩
  | cons request requests ih =>
      obtain ⟨s₁, o, hs, hf⟩ := Finishes.part (t := start request) trivial h
      have hrest : Finishes w (s₁, group ((front ++ [.done o]) ++ requests.map start)) := by simpa using hf
      obtain ⟨s', hs'⟩ := ih hrest
      exact ⟨s', .cons hs hs'⟩

/-! ## An end to it all -/

/-- Checks side by side come to an end, in any order, when the files that are reached are finitely many. -/
theorem finishes_of_finite {s₀ : Session} {roots : List Path}
    (h : Orderly w s₀ roots s (posts w none (.group parts))) (hsettled : ∀ t ∈ parts, t.Settled)
    (ha : s₀.SpelledAlike w roots) (hfin : {f | s₀.Reached w roots f}.Finite) :
    Finishes w (s, group parts) := by
  obtain ⟨m, hm⟩ := exists_specifiers_le hfin
  induction hn : (group parts).stepBound m hfin.toFinset.card using Nat.strong_induction_on generalizing s parts with
  | _ n ih =>
      by_cases hall : ∀ t ∈ parts, t.isFinished = true
      · exact .done (areFinished_iff.mpr hall)
      · push Not at hall
        obtain ⟨t, ht, hnot⟩ := hall
        obtain ⟨front, rest, rfl⟩ := List.append_of_mem ht
        have ho : t.outcome? = none := by
          cases ho : t.outcome? with
          | none => rfl
          | some o => cases t <;> simp_all [outcome?, isFinished]
        obtain ⟨c', hc'⟩ := (hsettled t ht).exists_step w (c := (s, t)) ho
        refine .work ⟨_, hc'.part⟩ fun c₁ hstep => ?_
        obtain ⟨s₁, t₁⟩ := c₁
        obtain ⟨parts, hparts, -, hsettled'⟩ := Steps.of_group hsettled (.single hstep)
        obtain rfl : t₁ = group parts := hparts
        exact ih _ (hn ▸ hstep.stepBound_lt h ha hm hfin) (hstep.orderly h ha) hsettled' rfl

end ImportCheck.Task
