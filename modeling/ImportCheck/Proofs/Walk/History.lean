import ImportCheck.Proofs.Walk.Leaf

/-!
# What a run has been through

A history lists the moments at which work was done, each with the disk and the resolver of that moment, so that
both may change under a run. The texts that the disk gave and the outcomes of the walks are read off it.
-/

namespace ImportCheck

namespace Task

/-! ## Walks that end -/

/-- The outcome of a walk of `f`, if it has ended. -/
def ended (f : Path) : Task → List (Path × Outcome)
  | done o => [(f, o)]
  | _ => []

/-- The walks that end with the work at a leaf, in the order in which they do, each with its outcome. -/
def endings (w : Surroundings) (now : Nat) : List Nat → Session → Task → List (Path × Outcome)
  | i :: rest, s, walk f registered parts =>
    match parts[i]? with
    | some part =>
      let (s', part') := advance w now rest s part
      endings w now rest s part ++ ended f (settle s' f registered (parts.set i part')).2
    | none => []
  | i :: rest, s, group parts =>
    match parts[i]? with
    | some part => endings w now rest s part
    | none => []
  | _, s, leaf =>
    let (s', t') := advance w now [] s leaf
    (leaf.reads?.toList ++ s'.walks.drop s.walks.length).flatMap (ended · t')

/-- Walks end that wait for nothing any more: each with success, or with a failure that takes back the mark
and, for a declaration that was registered for the walk, the registration. -/
inductive Falls : Session × Multiset Path → List (Path × Outcome) → Session × Multiset Path → Prop
  | rest (c : Session × Multiset Path) : Falls c [] c
  | pass {c : Session × Multiset Path} {E : List (Path × Outcome)} {s : Session} {W : Multiset Path} {f : Path}
      (h : Falls c E (s, W + {f})) : Falls c (E ++ [(f, .ok .unit)]) (s, W)
  | fail {c : Session × Multiset Path} {E : List (Path × Outcome)} {s : Session} {W : Multiset Path} {f : Path}
      {registered : Bool} {e : Failure} (h : Falls c E (s, W + {f})) :
      Falls c (E ++ [(f, .error e)]) (s.drop f registered, W)

theorem Falls.frame {c c' : Session × Multiset Path} {E : List (Path × Outcome)} (h : Falls c E c')
    (K : Multiset Path) : Falls (c.1, K + c.2) E (c'.1, K + c'.2) := by
  induction h with
  | rest => exact .rest _
  | pass _ ih => exact .pass (by simpa only [add_assoc] using ih)
  | fail _ ih => exact .fail (by simpa only [add_assoc] using ih)

theorem Falls.trans {c c' c'' : Session × Multiset Path} {E E' : List (Path × Outcome)} (h : Falls c E c')
    (h' : Falls c' E' c'') : Falls c (E ++ E') c'' := by
  induction h' with
  | rest => rwa [List.append_nil]
  | pass _ ih => exact List.append_assoc .. ▸ .pass ih
  | fail _ ih => exact List.append_assoc .. ▸ .fail ih

theorem Falls.walks {c c' : Session × Multiset Path} {E : List (Path × Outcome)} (h : Falls c E c') :
    c'.1.walks = c.1.walks := by
  induction h with
  | rest => rfl
  | pass _ ih => exact ih
  | fail _ ih => exact ih

theorem Falls.le {c c' : Session × Multiset Path} {E : List (Path × Outcome)} (h : Falls c E c') :
    c'.2 ≤ c.2 := by
  induction h with
  | rest => exact le_rfl
  | pass _ ih => exact (Multiset.le_add_right _ _).trans ih
  | fail _ ih => exact (Multiset.le_add_right _ _).trans ih

theorem Falls.hasDeclaration {c c' : Session × Multiset Path} {E : List (Path × Outcome)} {p : Path}
    (h : Falls c E c') (hp : c.1.graph.hasDeclaration p = true) (hn : ∀ f ∈ c.2, ¬f.Same p) :
    c'.1.graph.hasDeclaration p = true := by
  induction h with
  | rest => exact hp
  | pass _ ih => exact ih
  | @fail E s W f registered e h ih =>
      have hfp : ¬f.Same p := hn f (Multiset.mem_of_le h.le (by simp))
      rw [Session.hasDeclaration_drop, decide_eq_false hfp, Bool.and_false]
      exact ih

/-! ## The work at one leaf -/

theorem waitingIn_eq_sum (ts : List Task) : waitingIn ts = (ts.map waiting).sum := by
  induction ts with
  | nil => rfl
  | cons t ts ih => simp [waitingIn, ih]

theorem parentsIn_eq_sum (ts : List Task) : parentsIn ts = (ts.map parents).sum := by
  induction ts with
  | nil => rfl
  | cons t ts ih => simp [parentsIn, ih]

theorem waitingIn_set {ts : List Task} {i : Nat} {part : Task} (h : ts[i]? = some part) (t : Task) :
    waitingIn (ts.set i t) = waitingIn (ts.eraseIdx i) + t.waiting := by
  simp only [waitingIn_eq_sum, sum_map_set _ h]

theorem parentsIn_set {ts : List Task} {i : Nat} {part : Task} (h : ts[i]? = some part) (t : Task) :
    parentsIn (ts.set i t) = parentsIn (ts.eraseIdx i) + t.parents := by
  simp only [parentsIn_eq_sum, sum_map_set _ h]

theorem waitingIn_eq {ts : List Task} {i : Nat} {part : Task} (h : ts[i]? = some part) :
    waitingIn ts = waitingIn (ts.eraseIdx i) + part.waiting := by
  simp only [waitingIn_eq_sum, ← sum_map_eq _ h]

theorem parentsIn_eq {ts : List Task} {i : Nat} {part : Task} (h : ts[i]? = some part) :
    parentsIn ts = parentsIn (ts.eraseIdx i) + part.parents := by
  simp only [parentsIn_eq_sum, ← sum_map_eq _ h]

theorem mem_waitingIn {ts : List Task} {leaf : Task} : leaf ∈ waitingIn ts ↔ ∃ t ∈ ts, leaf ∈ t.waiting := by
  induction ts with
  | nil => simp [waitingIn]
  | cons t ts ih => simp [waitingIn, ih]

theorem waitingIn_starts {requests : List Request} {l : Task} :
    l ∈ waitingIn (requests.map .start) ↔ ∃ q ∈ requests, l = .start q := by
  rw [mem_waitingIn]
  constructor
  · rintro ⟨t, ht, hl⟩
    obtain ⟨q, hq, rfl⟩ := List.mem_map.mp ht
    exact ⟨q, hq, Multiset.mem_singleton.mp hl⟩
  · rintro ⟨q, hq, rfl⟩
    exact ⟨_, List.mem_map_of_mem hq, Multiset.mem_singleton_self _⟩

theorem parentsIn_starts (requests : List Request) : parentsIn (requests.map .start) = 0 := by
  induction requests with
  | nil => rfl
  | cons q requests ih => simpa [parentsIn, parents] using ih

theorem waitingIn_follows (x : Path) (specifiers : List String) :
    waitingIn (follows x specifiers) = ↑(follows x specifiers) := by
  induction specifiers with
  | nil => rfl
  | cons t ts ih =>
      simp only [follows, List.map_cons, waitingIn, waiting] at ih ⊢
      rw [ih]
      rfl

theorem mem_waiting_follows {x : Path} {registered : Bool} {specifiers : List String} {leaf : Task} :
    leaf ∈ (walk x registered (follows x specifiers)).waiting ↔ ∃ t ∈ specifiers, start (.follow x t) = leaf := by
  rw [waiting, waitingIn_follows, Multiset.mem_coe, follows, List.mem_map]

theorem parentsIn_follows (x : Path) (specifiers : List String) : parentsIn (follows x specifiers) = 0 := by
  induction specifiers with
  | nil => rfl
  | cons t ts ih => simpa [follows, parentsIn, parents] using ih

theorem filterMap_reads?_eq_zero {L : Multiset Task} (h : ∀ leaf ∈ L, leaf.reads? = none) : L.filterMap reads? = 0 := by
  rw [Multiset.eq_zero_iff_forall_notMem]
  intro x hx
  obtain ⟨leaf, hl, hx⟩ := (Multiset.mem_filterMap _ _).mp hx
  rw [h leaf hl] at hx
  cases hx

theorem waiting_of_outcome {ts : List Task} (h : ts.all (·.outcome?.isSome) = true) :
    waitingIn ts = 0 ∧ parentsIn ts = 0 := by
  rw [waitingIn_eq_sum, parentsIn_eq_sum]
  exact ⟨sum_map_of_outcome (fun _ => rfl) h, sum_map_of_outcome (fun _ => rfl) h⟩

variable {w : Surroundings}

theorem falls_settle {c : Session × Multiset Path} {E : List (Path × Outcome)} {s : Session} {f : Path}
    {parts : List Task} (registered : Bool) (h : Falls c E (s.bare, {f} + parentsIn parts)) :
    (settle s f registered parts).2.waiting = waitingIn parts ∧
      Falls c (E ++ ended f (settle s f registered parts).2)
        ((settle s f registered parts).1.bare, (settle s f registered parts).2.parents) := by
  unfold settle
  split
  · next hall =>
    obtain ⟨hw, hp⟩ := waiting_of_outcome hall
    rw [hp, add_comm] at h
    rw [hw]
    split
    · next e _ =>
      have hb : (failWalk s f registered e).1.bare = s.bare.drop f registered := by
        cases registered <;>
          simp [failWalk, Session.bare, Session.drop, Session.report, Session.record, Occurrence.counts]
      exact ⟨rfl, hb ▸ .fail h⟩
    · exact ⟨rfl, .pass h⟩
  · simp only [ended, List.append_nil]
    exact ⟨rfl, h⟩

/-- At its own place a task is its only leaf. -/
theorem eq_of_leafAt?_nil {t leaf : Task} (h : t.leafAt? [] = some leaf) : leaf = t := by
  cases t <;> simp_all [leafAt?]

theorem leafAt?_isSome {place : List Nat} {t : Task} :
    (t.leafAt? place).isSome = true ↔ t.waitsAt place = true := by
  induction place generalizing t with
  | nil => cases t <;> simp [leafAt?, waitsAt]
  | cons i rest ih =>
      cases t with
      | walk f registered parts => cases h : parts[i]? <;> simp [leafAt?, waitsAt, h, ih]
      | group parts => cases h : parts[i]? <;> simp [leafAt?, waitsAt, h, ih]
      | _ => simp [leafAt?, waitsAt]

theorem mem_waiting_of_leafAt? {place : List Nat} {t leaf : Task} (h : t.leafAt? place = some leaf) :
    leaf ∈ t.waiting := by
  induction place generalizing t with
  | nil => cases t <;> simp_all [leafAt?, waiting]
  | cons i rest ih =>
      cases t with
      | walk f registered parts =>
          obtain ⟨part, hp, hl⟩ := Option.bind_eq_some_iff.mp h
          exact mem_waitingIn.mpr ⟨part, List.mem_of_getElem? hp, ih hl⟩
      | group parts =>
          obtain ⟨part, hp, hl⟩ := Option.bind_eq_some_iff.mp h
          exact mem_waitingIn.mpr ⟨part, List.mem_of_getElem? hp, ih hl⟩
      | _ => simp [leafAt?] at h

/-- The walk that a step at a leaf ends at once: its file could not be read. -/
def cut (leaf t' : Task) : List (Path × Outcome) := leaf.reads?.toList.flatMap (ended · t')

/-- The walk that a step at a leaf leaves with nothing to wait for. -/
def spent : Task → List (Path × Outcome)
  | walk f _ [] => [(f, .ok .unit)]
  | _ => []

theorem waiting_trimmed (t : Task) : t.trimmed.waiting = t.waiting := by
  unfold trimmed
  split <;> rfl

theorem falls_trimmed (s : Session) (t : Task) : Falls (s, t.parents) t.spent (s, t.trimmed.parents) := by
  cases t with
  | walk f registered parts =>
      cases parts with
      | nil => exact .pass (E := []) (.rest _)
      | cons part parts => exact .rest _
  | _ => exact .rest _

theorem Entered.walks {x : Path} {registered : Bool} {s s' : Session} {t' : Task}
    (h : Entered x registered s s' t') :
    (s'.walks.drop s.walks.length).flatMap (ended · t'.trimmed) = t'.spent := by
  cases h with
  | trusted _ => simp [spent]
  | @scanned found _ _ _ =>
      rw [Session.walks_parsed, Session.walks_enter]
      cases found <;> simp [follows, trimmed, spent, ended]
  | begun _ _ => simp [spent, trimmed, ended]

/-- A leaf looks for one target. -/
theorem Seeks.eq {leaf : Task} {f g : Path} {t u : String} {a b : Except ResolverFault Path}
    (h : leaf.Seeks w f t a) (h' : leaf.Seeks w g u b) : f = g ∧ t = u ∧ a = b := by
  cases h <;> cases h' <;> exact ⟨rfl, rfl, rfl⟩

theorem Seeks.reads? {leaf : Task} {f : Path} {t : String} {a : Except ResolverFault Path}
    (h : leaf.Seeks w f t a) : leaf.reads? = none := by
  cases h <;> rfl

theorem LeafStep.endings {s s' : Session} {leaf t' : Task} (h : LeafStep w s leaf s' t') :
    (leaf.reads?.toList ++ s'.walks.drop s.walks.length).flatMap (ended · t'.trimmed) =
      cut leaf t' ++ t'.spent := by
  cases h with
  | check h => simpa [Task.reads?, cut] using h.walks
  | ask h _ _ => simp [h.reads?, cut, spent, trimmed, ended]
  | unresolved h _ => simp [h.reads?, cut, spent]
  | pass h _ _ => simp [h.reads?, cut, spent]
  | register h _ _ _ he => simpa [h.reads?, cut] using he.walks
  | link h _ _ he => simpa [h.reads?, cut] using he.walks
  | unread _ => simp [cut, spent, trimmed, ended]
  | @store x registered _ _ found _ _ =>
      cases found <;> simp [Task.reads?, cut, follows, trimmed, spent, ended]
  | notice => simp [Task.reads?, cut, spent, trimmed, ended]
  | keep _ => simp [Task.reads?, cut, spent]
  | @refresh x _ text _ _ _ =>
      have hwalks : (s.updateFile x text true).1.invalidateAll.resetProgram.walks = s.walks := rfl
      simp [hwalks, Task.reads?, cut, spent]

variable (now : Nat)

/-- Work at a place is work at its leaf, after which walks end that wait for nothing any more. -/
theorem worked_leaf {place : List Nat} {t leaf : Task} (s : Session) (h : t.leafAt? place = some leaf) :
    ∃ R E, t.waiting = R + {leaf} ∧
      (advance w now place s t).2.waiting = R + (advance w now [] s leaf).2.waiting ∧
      endings w now place s t = endings w now [] s leaf ++ E ∧
      Falls ((advance w now [] s leaf).1.bare, t.parents + (advance w now [] s leaf).2.parents) E
        ((advance w now place s t).1.bare, (advance w now place s t).2.parents) := by
  induction place generalizing t with
  | nil =>
      have hleaf : t = leaf ∧ t.waiting = {t} ∧ t.parents = 0 := by
        cases t <;> simp_all [leafAt?, waiting, parents]
      obtain ⟨rfl, hw, hparents⟩ := hleaf
      refine ⟨0, [], by simp [hw], by rw [zero_add], by rw [List.append_nil], ?_⟩
      rw [hparents, zero_add]
      exact .rest _
  | cons i rest ih =>
      cases t with
      | walk f registered parts =>
          obtain ⟨part, hi, hl⟩ := Option.bind_eq_some_iff.mp h
          obtain ⟨R, E, hw, hw', he, hfalls⟩ := ih hl
          obtain ⟨s₂, part', hadvance⟩ : ∃ s₂ part', advance w now rest s part = (s₂, part') := ⟨_, _, rfl⟩
          rw [hadvance] at hw' hfalls
          have hframe := hfalls.frame ({f} + parentsIn (parts.eraseIdx i))
          simp only [add_assoc] at hframe
          rw [← parentsIn_set hi] at hframe
          obtain ⟨hwaiting, hsettle⟩ := falls_settle registered hframe
          refine ⟨waitingIn (parts.eraseIdx i) + R,
            E ++ ended f (settle s₂ f registered (parts.set i part')).2, ?_, ?_, ?_, ?_⟩
          · simp only [waiting, waitingIn_eq hi, hw, add_assoc]
          · simp only [advance, hi, hadvance, hwaiting, waitingIn_set hi, hw', add_assoc]
          · simp only [Task.endings, hi, hadvance, he, List.append_assoc]
          · simp only [advance, hi, hadvance, parents, parentsIn_eq hi, add_assoc]
            exact hsettle
      | group parts =>
          obtain ⟨part, hi, hl⟩ := Option.bind_eq_some_iff.mp h
          obtain ⟨R, E, hw, hw', he, hfalls⟩ := ih hl
          refine ⟨waitingIn (parts.eraseIdx i) + R, E, ?_, ?_, ?_, ?_⟩
          · simp only [waiting, waitingIn_eq hi, hw, add_assoc]
          · simp only [advance, hi, waiting, waitingIn_set hi, hw', add_assoc]
          · simp only [Task.endings, hi, he]
          · simp only [advance, hi, parents, parentsIn_eq hi, parentsIn_set hi, add_assoc]
            exact hfalls.frame _
      | _ => simp [leafAt?] at h

/-- Work at a leaf of a check or of a notice is a step at that leaf. -/
theorem worked {place : List Nat} {t leaf : Task} (s : Session) (h : t.leafAt? place = some leaf)
    (hp : leaf.Checks ∨ leaf.Refreshes) :
    ∃ s' t' R E, LeafStep w s.bare leaf s' t' ∧ t.waiting = R + {leaf} ∧
      (advance w now place s t).2.waiting = R + t'.waiting ∧
      endings w now place s t = cut leaf t' ++ E ∧
      Falls (s', t.parents + t'.parents) E
        ((advance w now place s t).1.bare, (advance w now place s t).2.parents) := by
  obtain ⟨R, E, hw, hw', he, hfalls⟩ := worked_leaf now s h (w := w)
  obtain ⟨t', hd, ht⟩ := act_leafStep (w := w) now s hp
  have hendings : endings w now [] s leaf = cut leaf t' ++ t'.spent := by
    rw [← hd.endings, ← ht, Session.walks_bare, Session.walks_bare]
    rcases hp with hp | hp <;> cases hp <;> rfl
  refine ⟨_, t', R, t'.spent ++ E, hd, hw, ?_, ?_, ?_⟩
  · rw [hw', ht, waiting_trimmed]
  · rw [he, hendings, List.append_assoc]
  · rw [ht] at hfalls
    exact ((falls_trimmed _ t').frame t.parents).trans hfalls

/-! ## Texts and targets that are found -/

/-- The text that the disk gives when the leaf is worked at, and where it was read. -/
def read? (w : Surroundings) : Task → Option (Path × String)
  | reading x _ _ => (w.disk.read x).toOption.map (x, ·)
  | _ => none

/-- The target that is found when the leaf is worked at. -/
def found? (w : Surroundings) : Task → Option Path
  | start (.follow _ t) => Specifier.direct? t
  | resolving f _ c _ .follow _ => (w.resolver.answer f.directory c).result.toOption
  | _ => none

theorem Seeks.found? {leaf : Task} {f x : Path} {t : String} (h : leaf.Seeks w f t (.ok x))
    (ho : leaf.owed w = []) : leaf.found? w = some x := by
  have hasks : ∀ d c rest, w.resolver.asks d c rest ≠ [] := by
    intro d c rest
    cases rest with
    | nil => simp [Resolver.asks]
    | cons next rest => unfold Resolver.asks; split <;> simp
  generalize ha : Except.ok x = a at h
  cases h with
  | follow f t =>
      unfold Task.found?
      unfold Surroundings.resolve at ha
      cases hd : Specifier.direct? t with
      | some y => simpa [hd, eq_comm] using ha
      | none => simp [owed, Surroundings.questions, hd, hasks] at ho
  | resolving f t c rest due =>
      unfold Task.found?
      cases hr : (w.resolver.answer f.directory c).result with
      | ok y => cases rest <;> simp_all [Resolver.first, Except.toOption]
      | error cause => cases rest <;> simp_all [Resolver.first, Resolver.asks, owed]

end Task

/-! ## Histories -/

/-- A moment at which work is done: the disk and the resolver as they are then, and the place of the leaf. -/
structure Moment where
  around : Surroundings
  now : Nat
  place : List Nat
  session : Session
  task : Task

abbrev History := List Moment

namespace Moment

def after (m : Moment) : Session × Task := m.task.advance m.around m.now m.place m.session

def leaf? (m : Moment) : Option Task := m.task.leafAt? m.place

/-- The text that comes from the disk, and where it was read. -/
def read? (m : Moment) : Option (Path × String) := m.leaf?.bind (Task.read? m.around)

/-- The target that is found for a specifier. -/
def found? (m : Moment) : Option Path := m.leaf?.bind (Task.found? m.around)

def endings (m : Moment) : List (Path × Outcome) := m.task.endings m.around m.now m.place m.session

/-- What is done at a moment is a step at a leaf, after which walks end that wait for nothing any more. -/
theorem leafStep (m : Moment) (hp : m.task.waitsAt m.place = true)
    (hk : ∀ l ∈ m.task.waiting, l.Checks ∨ l.Refreshes) :
    ∃ leaf s' t' R E, m.leaf? = some leaf ∧ leaf ∈ m.task.waiting ∧ Task.LeafStep m.around m.session.bare leaf s' t' ∧
      m.task.waiting = R + {leaf} ∧ m.after.2.waiting = R + t'.waiting ∧
      m.endings = Task.cut leaf t' ++ E ∧
      Task.Falls (s', m.task.parents + t'.parents) E (m.after.1.bare, m.after.2.parents) := by
  obtain ⟨leaf, hl⟩ := Option.isSome_iff_exists.mp (Task.leafAt?_isSome.mpr hp)
  have hmem := Task.mem_waiting_of_leafAt? hl
  obtain ⟨s', t', R, E, h⟩ := Task.worked m.now m.session hl (hk leaf hmem) (w := m.around)
  exact ⟨leaf, s', t', R, E, hl, hmem, h⟩

end Moment

namespace History

/-- The texts that came from the disk, in order, each with the place where it was read. -/
def reads (h : History) : List (Path × String) := h.filterMap Moment.read?

def found (h : History) : List Path := h.filterMap Moment.found?

/-- The walks that have ended, in order, each with its outcome. -/
def endings (h : History) : List (Path × Outcome) := h.flatMap Moment.endings

end History

theorem append_cons_eq_concat {α : Type} {past later xs : List α} {x y : α} (h : past ++ x :: later = xs ++ [y]) :
    past = xs ∧ x = y ∨ ∃ later', xs = past ++ x :: later' := by
  rcases List.eq_nil_or_concat later with rfl | ⟨later, z, rfl⟩
  · obtain ⟨rfl, hx⟩ := List.append_inj' h rfl
    exact .inl ⟨rfl, List.singleton_inj.mp hx⟩
  · rw [List.concat_eq_append, ← List.cons_append, ← List.append_assoc] at h
    exact .inr ⟨later, (List.append_inj' h rfl).1.symm⟩

/-- Work is done moment after moment, each time with a disk and a resolver of its own. -/
inductive Runs (c : Session × Task) : History → Session × Task → Prop
  | rest : Runs c [] c
  | step {h : History} {m : Moment} (hr : Runs c h (m.session, m.task))
      (hp : m.task.waitsAt m.place = true) : Runs c (h ++ [m]) m.after

namespace Runs

variable {w : Surroundings} {c c' : Session × Task} {h : History}

theorem steps (hr : Runs c h c') (hw : ∀ m ∈ h, m.around = w) : Task.Steps w c c' := by
  induction hr with
  | rest => exact .refl
  | @step h m _ hp ih =>
      have hm : m.around = w := hw m (by simp)
      refine (ih fun m' hm' => hw m' (List.mem_append.mpr (.inl hm'))).tail ⟨m.now, m.place, hp, ?_⟩
      rw [← hm]
      rfl

theorem of_steps (hs : Task.Steps w c c') : ∃ h, Runs c h c' ∧ ∀ m ∈ h, m.around = w := by
  induction hs with
  | refl => exact ⟨[], .rest, by simp⟩
  | @tail b _ _ hb ih =>
      obtain ⟨h, hr, hw⟩ := ih
      obtain ⟨now, place, hp, rfl⟩ := hb
      refine ⟨h ++ [⟨w, now, place, b.1, b.2⟩], .step hr hp, fun m hm => ?_⟩
      rcases List.mem_append.mp hm with hm | hm
      · exact hw m hm
      · rw [List.mem_singleton.mp hm]

theorem trans {h' : History} {c'' : Session × Task} (hr : Runs c h c') (hr' : Runs c' h' c'') :
    Runs c (h ++ h') c'' := by
  induction hr' with
  | rest => simpa using hr
  | step _ hp ih =>
      rw [← List.append_assoc]
      exact .step ih hp

/-- What comes before a moment is a run up to it. -/
theorem of_append {before later : History} {m : Moment} (hr : Runs c (before ++ m :: later) c') :
    Runs c before (m.session, m.task) ∧ m.task.waitsAt m.place = true := by
  generalize hh : before ++ m :: later = h at hr
  induction hr generalizing later with
  | rest => simp at hh
  | step hr hp ih =>
      rcases append_cons_eq_concat hh with ⟨rfl, rfl⟩ | ⟨_, rfl⟩
      · exact ⟨hr, hp⟩
      · exact ih rfl

/-- A run stands where it began, or after one of its moments. -/
theorem eq_or_after (hr : Runs c h c') : c' = c ∨ ∃ m ∈ h, c' = m.after := by
  cases hr with
  | rest => exact .inl rfl
  | @step h m _ _ => exact .inr ⟨m, by simp, rfl⟩

end Runs

/-- The parts of the task are all done. -/
def Task.returned : Task → Bool
  | .group parts => parts.all (·.outcome?.isSome)
  | _ => false

theorem Task.exists_parts {t : Task} (h : t.returned = true) :
    ∃ parts, t = .group parts ∧ ∀ t ∈ parts, ∃ o, t = .done o := by
  cases t with
  | group parts =>
      refine ⟨parts, rfl, fun t ht => ?_⟩
      have hdone := List.all_eq_true.mp h t ht
      cases t with
      | done o => exact ⟨o, rfl⟩
      | _ => cases hdone
  | _ => cases h

theorem Task.waiting_of_returned {t : Task} (h : t.returned = true) : t.waiting = 0 := by
  obtain ⟨parts, rfl, -⟩ := Task.exists_parts h
  exact (Task.waiting_of_outcome h).1

/-- Works at the leaves in the order given, each with its disk and its resolver, and passes over places where
nothing waits. -/
def History.play : List (Surroundings × List Nat) → Session × Task → History × (Session × Task)
  | [], c => ([], c)
  | (w, place) :: plan, c =>
    if c.2.waitsAt place then
      let m : Moment := { around := w, now := 0, place, session := c.1, task := c.2 }
      let (h, c') := play plan m.after
      (m :: h, c')
    else play plan c

theorem History.runs_play (plan : List (Surroundings × List Nat)) (c : Session × Task) :
    Runs c (play plan c).1 (play plan c).2 := by
  induction plan generalizing c with
  | nil => exact .rest
  | cons e plan ih =>
      obtain ⟨w, place⟩ := e
      unfold play
      split
      · next hp =>
        have hfirst : Runs c [⟨w, 0, place, c.1, c.2⟩] (Moment.after ⟨w, 0, place, c.1, c.2⟩) :=
          .step (h := []) .rest hp
        exact hfirst.trans (ih _)
      · exact ih c

theorem History.around_play {plan : List (Surroundings × List Nat)} {c : Session × Task} {m : Moment}
    (hm : m ∈ (play plan c).1) : ∃ e ∈ plan, m.around = e.1 := by
  induction plan generalizing c with
  | nil => exact absurd hm List.not_mem_nil
  | cons e plan ih =>
      obtain ⟨w, place⟩ := e
      unfold play at hm
      split at hm
      · rcases List.mem_cons.mp hm with rfl | hm
        · exact ⟨_, List.mem_cons_self, rfl⟩
        · exact (ih hm).imp fun _ h => ⟨List.mem_cons_of_mem _ h.1, h.2⟩
      · exact (ih hm).imp fun _ h => ⟨List.mem_cons_of_mem _ h.1, h.2⟩

end ImportCheck
