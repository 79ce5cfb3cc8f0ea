import ImportCheck.Proofs.Walk.Confined
import Mathlib.Logic.Hydra

/-!
# Walks inside walks

A walk starts at a leaf, inside of the walks that are open around it. All of these are valid then and it is not, so
that no place is walked inside of a walk of itself. What is still to be done is ranked by how many more walks there
can be around it: work at a leaf puts leaves of lower rank in its place, however many.
-/

namespace ImportCheck

namespace Task

/-- The files whose walks are open around a place, the outermost first. -/
def around : List Nat → Task → List Path
  | i :: rest, walk f _ parts => f :: (parts[i]?.map (around rest)).getD []
  | i :: rest, group parts => (parts[i]?.map (around rest)).getD []
  | _, _ => []

variable {w : Surroundings} {now : Nat} {s s' : Session} {t leaf t' : Task} {place : List Nat}

theorem walking_le_of_part {ts : List Task} {i : Nat} {part : Task} (h : ts[i]? = some part) :
    part.walking ≤ parentsIn ts + (waitingIn ts).filterMap reads? := by
  rw [walking, parentsIn_eq h, waitingIn_eq h, Multiset.filterMap_add]
  exact add_le_add (Multiset.le_add_left _ _) (Multiset.le_add_left _ _)

theorem around_le (h : t.leafAt? place = some leaf) :
    (↑(t.around place ++ leaf.reads?.toList) : Multiset Path) ≤ t.walking := by
  induction place generalizing t with
  | nil =>
      obtain rfl := eq_of_leafAt?_nil h
      cases leaf with
      | reading x goal due => cases goal <;> simp [around, reads?]
      | _ => simp [around, reads?]
  | cons i rest ih =>
      cases t with
      | walk f registered parts =>
          obtain ⟨part, hi, hl⟩ := Option.bind_eq_some_iff.mp h
          have hpart := (ih hl).trans (walking_le_of_part hi)
          simp only [around, hi, Option.map_some, Option.getD_some, List.cons_append, walking, parents, waiting]
          rw [add_assoc, Multiset.singleton_add, ← Multiset.cons_coe]
          exact Multiset.cons_le_cons f hpart
      | group parts =>
          obtain ⟨part, hi, hl⟩ := Option.bind_eq_some_iff.mp h
          simp only [around, hi, Option.map_some, Option.getD_some, walking, parents, waiting]
          exact (ih hl).trans (walking_le_of_part hi)
      | _ => simp [leafAt?] at h

theorem walks_settle (s : Session) (f : Path) (registered : Bool) (parts : List Task) :
    (settle s f registered parts).1.walks = s.walks := by
  unfold settle
  split
  · split
    · cases registered <;> exact (Session.alike_report _ _).walks
    · rfl
  · rfl

/-- What else happens after the work at a leaf begins no walk. -/
theorem walks_advance (h : t.leafAt? place = some leaf) :
    (advance w now place s t).1.walks = (advance w now [] s leaf).1.walks := by
  induction place generalizing t with
  | nil => rw [eq_of_leafAt?_nil h]
  | cons i rest ih =>
      cases t with
      | walk f registered parts =>
          obtain ⟨part, hi, hl⟩ := Option.bind_eq_some_iff.mp h
          simp only [advance, hi, walks_settle]
          exact ih hl
      | group parts =>
          obtain ⟨part, hi, hl⟩ := Option.bind_eq_some_iff.mp h
          simp only [advance, hi]
          exact ih hl
      | _ => simp [leafAt?] at h

/-! ## The walk at a leaf -/

/-- The walk that the work at a leaf goes on with or begins, if there is one. -/
def opened (leaf : Task) (s s' : Session) : List Path := leaf.reads?.toList ++ s.walkedSince s'

theorem Entered.walkedSince {x : Path} {registered : Bool} (h : Entered x registered s s' t') :
    s.walkedSince s' = [] ∨ s.walkedSince s' = [x] ∧ s.isValid x = false := by
  cases h with
  | trusted _ => simp [Session.walkedSince]
  | scanned hv _ _ => exact .inr ⟨by simp [Session.walkedSince], hv⟩
  | begun hv _ =>
      rw [Session.walkedSince, Session.walks_record _ rfl]
      exact .inr ⟨by simp, hv⟩

/-- A walk that is begun is one of a file that is not valid, at a leaf that has no walk of its own. -/
theorem LeafStep.walkedSince (h : LeafStep w s leaf s' t') (hc : leaf.Checks) :
    s.walkedSince s' = [] ∨ ∃ x, s.walkedSince s' = [x] ∧ s.isValid x = false ∧ leaf.reads? = none := by
  cases h with
  | check he => exact he.walkedSince.imp id fun h => ⟨_, h.1, h.2, rfl⟩
  | register hs _ _ _ he => exact he.walkedSince.imp id fun h => ⟨_, h.1, h.2, hs.reads?⟩
  | link hs _ _ he => exact he.walkedSince.imp id fun h => ⟨_, h.1, h.2, hs.reads?⟩
  | ask _ _ _ =>
      rw [Session.walkedSince, Session.walks_record _ rfl]
      exact .inl (by simp)
  | notice => cases hc
  | keep _ => cases hc
  | refresh _ _ => cases hc
  | _ => exact .inl (by simp [Session.walkedSince])

/-! ## Ranks -/

/-- How much a leaf has still to do before it can begin a walk. -/
def weight (w : Surroundings) : Task → Nat
  | reading .. => 0
  | leaf => 1 + (leaf.owed w).length

mutual
/-- The ranks of the leaves that are not done, when there can be so many more walks inside of each other. -/
def ranks (w : Surroundings) (room : Nat) : Task → Multiset (Nat × Nat)
  | walk _ _ parts => ranksIn w (room - 1) parts
  | group parts => ranksIn w room parts
  | done _ => 0
  | start request => {(room, weight w (start request))}
  | reading file goal due => {(room, weight w (reading file goal due))}
  | resolving file specifier candidate rest goal due =>
      {(room, weight w (resolving file specifier candidate rest goal due))}

def ranksIn (w : Surroundings) (room : Nat) : List Task → Multiset (Nat × Nat)
  | [] => 0
  | t :: ts => ranks w room t + ranksIn w room ts
end

variable {room : Nat}

theorem ranksIn_eq_sum (ts : List Task) : ranksIn w room ts = (ts.map (ranks w room)).sum := by
  induction ts with
  | nil => rfl
  | cons t ts ih => simp [ranksIn, ih]

theorem ranksIn_set {ts : List Task} {i : Nat} {part : Task} (h : ts[i]? = some part) (t : Task) :
    ranksIn w room (ts.set i t) = ranksIn w room (ts.eraseIdx i) + t.ranks w room := by
  simp only [ranksIn_eq_sum, sum_map_set _ h]

theorem ranksIn_eq {ts : List Task} {i : Nat} {part : Task} (h : ts[i]? = some part) :
    ranksIn w room ts = ranksIn w room (ts.eraseIdx i) + part.ranks w room := by
  simp only [ranksIn_eq_sum, ← sum_map_eq _ h]

theorem ranksIn_follows (x : Path) (specifiers : List String) {r : Nat × Nat}
    (h : r ∈ ranksIn w room (follows x specifiers)) : r.1 = room := by
  induction specifiers with
  | nil => simp [follows, ranksIn] at h
  | cons t ts ih =>
      simp only [follows, List.map_cons, ranksIn, ranks, Multiset.mem_add, Multiset.mem_singleton] at h
      rcases h with rfl | h
      · rfl
      · exact ih h

theorem ranksIn_of_outcome {ts : List Task} (h : ts.all (·.outcome?.isSome) = true) :
    ranksIn w room ts = 0 := by
  rw [ranksIn_eq_sum]
  exact sum_map_of_outcome (fun _ => rfl) h

theorem ranks_settle (s : Session) (f : Path) (registered : Bool) (parts : List Task) :
    (settle s f registered parts).2.ranks w room = ranksIn w (room - 1) parts := by
  unfold settle
  split
  · next hall =>
    rw [ranksIn_of_outcome hall]
    split <;> rfl
  · rfl

theorem ranks_trimmed (t : Task) : t.trimmed.ranks w room = t.ranks w room := by
  unfold trimmed
  split <;> rfl

/-- The work at a leaf changes the ranks there and nowhere else. -/
theorem ranks_advance (w : Surroundings) (now : Nat) (s : Session) (room : Nat) (h : t.leafAt? place = some leaf) :
    ∃ R, t.ranks w room = R + leaf.ranks w (room - (t.around place).length) ∧
      (advance w now place s t).2.ranks w room =
        R + (advance w now [] s leaf).2.ranks w (room - (t.around place).length) := by
  induction place generalizing t room with
  | nil =>
      obtain rfl := eq_of_leafAt?_nil h
      have haround : leaf.around [] = [] := by cases leaf <;> rfl
      exact ⟨0, by simp [haround]⟩
  | cons i rest ih =>
      cases t with
      | walk f registered parts =>
          obtain ⟨part, hi, hl⟩ := Option.bind_eq_some_iff.mp h
          obtain ⟨R, hr, hr'⟩ := ih (room - 1) hl
          have hroom : room - ((walk f registered parts).around (i :: rest)).length =
              room - 1 - (part.around rest).length := by
            simp only [around, hi, Option.map_some, Option.getD_some, List.length_cons]
            omega
          refine ⟨ranksIn w (room - 1) (parts.eraseIdx i) + R, ?_, ?_⟩
          · rw [hroom, ranks, ranksIn_eq hi, hr, add_assoc]
          · simp only [advance, hi]
            rw [hroom, ranks_settle, ranksIn_set hi, hr', add_assoc]
      | group parts =>
          obtain ⟨part, hi, hl⟩ := Option.bind_eq_some_iff.mp h
          obtain ⟨R, hr, hr'⟩ := ih room hl
          have haround : (group parts).around (i :: rest) = part.around rest := by simp [around, hi]
          refine ⟨ranksIn w room (parts.eraseIdx i) + R, ?_, ?_⟩
          · rw [haround, ranks, ranksIn_eq hi, hr, add_assoc]
          · simp only [advance, hi]
            rw [haround, ranks, ranksIn_set hi, hr', add_assoc]
      | _ => simp [leafAt?] at h

/-- Ranks are compared by the room for walks first, and then by the work that is left before one. -/
abbrev Lower : Nat × Nat → Nat × Nat → Prop := Prod.Lex (· < ·) (· < ·)

theorem Entered.lower {x : Path} {registered : Bool} {n : Nat} (h : Entered x registered s s' t') (hn : 0 < n)
    (hroom : (s.walkedSince s').length ≤ room) : ∀ r ∈ t'.ranks w room, Lower r (room, n) := by
  intro r hr
  cases h with
  | trusted _ => simp [ranks] at hr
  | scanned _ _ _ =>
      have hone : 1 ≤ room := by simpa [Session.walkedSince] using hroom
      have := ranksIn_follows _ _ hr
      exact .left _ _ (by omega)
  | begun _ _ =>
      rw [ranks, Multiset.mem_singleton] at hr
      subst hr
      exact .right _ hn

/-- A walk that the work at a leaf goes on with or begins takes its room, and anything else takes work. -/
theorem LeafStep.lower (h : LeafStep w s leaf s' t') (hc : leaf.Checks) (room : Nat)
    (hroom : (opened leaf s s').length ≤ room) : ∀ r ∈ t'.ranks w room, Lower r (room, leaf.weight w) := by
  have hsince : (s.walkedSince s').length ≤ room :=
    (List.length_append ▸ Nat.le_add_left _ _ : _ ≤ (opened leaf s s').length).trans hroom
  have hseeks : ∀ {f t a}, leaf.Seeks w f t a → leaf.weight w = 1 + (leaf.owed w).length := fun hs => by
    cases hs <;> rfl
  cases h with
  | check he => exact he.lower (by simp [weight]) hsince
  | register hs _ _ _ he => exact he.lower (by rw [hseeks hs]; omega) hsince
  | link hs _ _ he => exact he.lower (by rw [hseeks hs]; omega) hsince
  | @ask _ f t c a rest due hs hn ho =>
      intro r hr
      rw [ranks, Multiset.mem_singleton] at hr
      subst hr
      rw [hseeks hs, ho, List.length_cons]
      exact .right _ (by simp [weight])
  | @store x registered due text found _ _ =>
      intro r hr
      have hone : 1 ≤ room := by
        simp only [opened, reads?, Option.toList_some, List.length_append, List.length_singleton] at hroom
        omega
      have := ranksIn_follows x _ hr
      exact .left _ _ (by omega)
  | notice => cases hc
  | _ => simp [ranks]

theorem ranks_of_checks (h : leaf.Checks) : leaf.ranks w room = {(room, leaf.weight w)} := by
  cases h <;> rfl

end Task

/-! ## Moments -/

namespace Moment

/-- The walks that are open inside of each other when the work of the moment is at its deepest, the outermost
first. -/
def nested (m : Moment) : List Path :=
  m.task.around m.place ++ (m.leaf?.bind Task.reads?).toList ++ m.session.walkedSince m.after.1

variable {s₀ : Session} {roots : List Path} {h : History} {m : Moment}

theorem nested_eq {leaf : Task} (hl : m.leaf? = some leaf) : m.nested = m.task.around m.place ++
    Task.opened leaf m.session (leaf.advance m.around m.now [] m.session).1 := by
  have hsince : m.session.walkedSince m.after.1 =
      m.session.walkedSince (leaf.advance m.around m.now [] m.session).1 := by
    simp only [Session.walkedSince, after, Task.walks_advance hl]
  rw [nested, hsince, hl, List.append_assoc]
  rfl

/-- No place is walked inside of a walk of itself. -/
theorem nested_distinct (hw : Watched s₀ roots h (m.session, m.task)) (hp : m.task.waitsAt m.place = true) :
    (m.nested.map Path.components).Nodup := by
  obtain ⟨leaf, hl⟩ := Option.isSome_iff_exists.mp (Task.leafAt?_isSome.mpr hp)
  have hle := Task.around_le hl
  have hchecks := hw.checking leaf (Task.mem_waiting_of_leafAt? hl)
  obtain ⟨t', hd, -⟩ := Task.act_leafStep (w := m.around) m.now m.session (.inl hchecks)
  have hopen : (↑((m.task.around m.place ++ leaf.reads?.toList).map Path.components) : Multiset _).Nodup :=
    Multiset.nodup_of_le (Multiset.map_le_map hle) hw.traced.apart.distinct
  rw [Multiset.coe_nodup] at hopen
  have hsince : m.session.walkedSince (leaf.advance m.around m.now [] m.session).1 =
      m.session.bare.walkedSince (leaf.advance m.around m.now [] m.session).1.bare := by
    simp [Session.walkedSince]
  rw [nested_eq hl, Task.opened, ← List.append_assoc, hsince]
  rcases hd.walkedSince hchecks with hn | ⟨x, hx, hv, hr⟩
  · rwa [hn, List.append_nil]
  · rw [hx, List.map_append, List.nodup_append]
    refine ⟨hopen, by simp, ?_⟩
    intro a ha b hb hab
    obtain ⟨y, hy, rfl⟩ := List.mem_map.mp ha
    obtain rfl : b = x.components := by simpa using hb
    have hvalid := hw.traced.apart.valid y (Multiset.mem_of_le hle hy)
    rw [Session.isValid_congr _ hab, hv] at hvalid
    cases hvalid

/-- Work lowers the ranks if there is room for the walks that it is inside of. -/
theorem ranks_after (hc : m.task.Checking) (hp : m.task.waitsAt m.place = true) {room : Nat}
    (hroom : m.nested.length ≤ room) :
    Relation.CutExpand Task.Lower (m.after.2.ranks m.around room) (m.task.ranks m.around room) := by
  obtain ⟨leaf, hl⟩ := Option.isSome_iff_exists.mp (Task.leafAt?_isSome.mpr hp)
  have hchecks := hc leaf (Task.mem_waiting_of_leafAt? hl)
  obtain ⟨t', hd, ht⟩ := Task.act_leafStep (w := m.around) m.now m.session (.inl hchecks)
  obtain ⟨R, hr, hr'⟩ := Task.ranks_advance m.around m.now m.session room hl
  rw [ht, Task.ranks_trimmed] at hr'
  rw [nested_eq hl, List.length_append] at hroom
  have hopened : Task.opened leaf m.session.bare (leaf.advance m.around m.now [] m.session).1.bare =
      Task.opened leaf m.session (leaf.advance m.around m.now [] m.session).1 := by
    simp [Task.opened, Session.walkedSince]
  have hlower := hd.lower hchecks (room - (m.task.around m.place).length) (by rw [hopened]; omega)
  rw [after, hr', hr, Task.ranks_of_checks hchecks, Relation.cutExpand_add_left]
  exact Relation.cutExpand_singleton hlower

end Moment

end ImportCheck
