import ImportCheck.Proofs.Walk.Confined

/-!
# The course of a check

When a check is over, the walks that it took make a tree: below a walk there is one part for each specifier of
its file, in the order of the text. The outcome of a walk is read off its parts in that order, whichever of
them was over first.
-/

namespace ImportCheck

/-- How a check went: nothing was left to do, a specifier had no target, a file had no text, or the file was
walked. -/
inductive Course
  | settled
  | unresolved (file : Path) (cause : ResolverFault)
  | unread (file : Path) (fault : IoFault)
  | walked (file : Path) (parts : List Course)

namespace Course

mutual
/-- The failure that comes out: that of the first part that failed. -/
def failure? : Course → Option Failure
  | settled => none
  | unresolved file cause => some (.resolution file cause)
  | unread file fault => some (.io file fault)
  | walked _ parts => firstFailure? parts

def firstFailure? : List Course → Option Failure
  | [] => none
  | c :: cs => (failure? c).or (firstFailure? cs)
end

/-- The outcome of a check that failed or did not. -/
def outcomeOf : Option Failure → Outcome
  | some e => .error e
  | none => .ok .unit

mutual
/-- The walks, each with its outcome. -/
def endings : Course → Multiset (Path × Outcome)
  | settled => 0
  | unresolved .. => 0
  | unread file fault => {(file, .error (.io file fault))}
  | walked file parts => endingsOf parts + {(file, outcomeOf (firstFailure? parts))}

def endingsOf : List Course → Multiset (Path × Outcome)
  | [] => 0
  | c :: cs => endings c + endingsOf cs
end

variable (s : Session) (w : Surroundings)

/-- The course is one that a request can take: a walk follows all specifiers of its file, in their order. -/
inductive Fits : Request → Course → Prop
  | unresolved {f : Path} {t : String} {cause : ResolverFault} (hr : w.resolve f t = .error cause) :
      Fits (.follow f t) (.unresolved f cause)
  | passed {f x : Path} {t : String} (hr : w.resolve f t = .ok x) : Fits (.follow f t) .settled
  | target {f x : Path} {t : String} {c : Course} (hr : w.resolve f t = .ok x) (hk : x.kind ≠ .compiled)
      (hc : Fits (.check x) c) : Fits (.follow f t) c
  | trusted {x : Path} : Fits (.check x) .settled
  | unread {x : Path} {fault : IoFault} (hu : s.isTracked x = false) (hr : w.disk.read x = .error fault) :
      Fits (.check x) (.unread x fault)
  | walked {x : Path} {parts : List Course} (hl : parts.length = (s.specifiers w x).length)
      (hp : ∀ p ∈ (s.specifiers w x).zip parts, Fits (.follow x p.1) p.2) : Fits (.check x) (.walked x parts)

end Course

/-! ## Work in progress -/

section

variable (s₀ : Session) (w : Surroundings) (roots : List Path)

/-- The request leads to a check of the file. -/
inductive Comes : Request → Path → Prop
  | root (x : Path) : Comes (.check x) x
  | target {f x : Path} {t : String} (hr : w.resolve f t = .ok x) (hk : x.kind ≠ .compiled) :
      Comes (.follow f t) x

mutual
/-- The task is what is left of a request, and some walks for it have ended already. -/
inductive Tells : Request → Task → Multiset (Path × Outcome) → Prop
  | check {x : Path} (hx : x ∈ roots) : Tells (.check x) (.start (.check x)) 0
  | follow {f : Path} {t : String} (hf : s₀.Reached w roots f) (ht : t ∈ s₀.specifiers w f) :
      Tells (.follow f t) (.start (.follow f t)) 0
  | resolving {f : Path} {t c : String} {rest : List String} {due : Nat} (hf : s₀.Reached w roots f)
      (ht : t ∈ s₀.specifiers w f) (hr : w.resolver.first f.directory c rest = w.resolve f t) :
      Tells (.follow f t) (.resolving f t c rest .follow due) 0
  | reading {e : Request} {x : Path} {registered : Bool} {due : Nat} (hc : Comes w e x)
      (hx : s₀.Reached w roots x) (hu : s₀.isTracked x = false) :
      Tells e (.reading x (.walk registered) due) 0
  | walk {e : Request} {x : Path} {registered : Bool} {parts : List Task} {E : Multiset (Path × Outcome)}
      (hc : Comes w e x) (hx : s₀.Reached w roots x) (hp : TellsAll x (s₀.specifiers w x) parts E) :
      Tells e (.walk x registered parts) E
  | done {e : Request} {c : Course} (hc : c.Fits s₀ w e) :
      Tells e (.done (Course.outcomeOf c.failure?)) c.endings

inductive TellsAll : Path → List String → List Task → Multiset (Path × Outcome) → Prop
  | nil {x : Path} : TellsAll x [] [] 0
  | cons {x : Path} {t : String} {ts : List String} {part : Task} {parts : List Task}
      {E E' : Multiset (Path × Outcome)} (h : Tells (.follow x t) part E) (hs : TellsAll x ts parts E') :
      TellsAll x (t :: ts) (part :: parts) (E + E')
end

/-- What the session has of an earlier one: its marks, registrations and texts. -/
structure Faithful (s : Session) : Prop where
  known : ∀ x, s₀.Met w roots x → s₀.KnowAlike s w x
  valid : ∀ x, s₀.isValid x = true → s.isValid x = true
  declared : ∀ x, s₀.graph.hasDeclaration x = true → s.graph.hasDeclaration x = true
  tracked : ∀ x, s₀.isTracked x = true → s.isTracked x = true

end

variable {s₀ s s' : Session} {w : Surroundings} {roots : List Path} {e : Request} {x : Path}
  {E : Multiset (Path × Outcome)}

theorem Comes.fits {c : Course} (h : Comes w e x) (hc : c.Fits s₀ w (.check x)) : c.Fits s₀ w e := by
  cases h with
  | root => exact hc
  | target hr hk => exact .target hr hk hc

/-! ## A walk that is over -/

namespace TellsAll

variable {ts : List String} {parts : List Task}

/-- A part can go on by itself. -/
theorem set {i : Nat} {part : Task} (h : TellsAll s₀ w roots x ts parts E) (hi : parts[i]? = some part) :
    ∃ t E', Tells s₀ w roots (.follow x t) part E' ∧ ∀ part' N, Tells s₀ w roots (.follow x t) part' (E' + N) →
      TellsAll s₀ w roots x ts (parts.set i part') (E + N) := by
  induction parts generalizing i ts E with
  | nil => simp at hi
  | cons part₀ parts ih =>
      cases h with
      | @cons _ t ts _ _ E₀ E₁ h hs =>
          cases i with
          | zero =>
              obtain rfl : part₀ = part := by simpa using hi
              refine ⟨t, E₀, h, fun part' N h' => ?_⟩
              rw [add_right_comm]
              exact .cons h' hs
          | succ i =>
              obtain ⟨t', E', ht, hset⟩ := ih hs (by simpa using hi)
              refine ⟨t', E', ht, fun part' N h' => ?_⟩
              rw [add_assoc]
              exact .cons h (hset part' N h')

/-- When all parts are done their courses are those of the walk, and the first failure is the same. -/
theorem courses (h : TellsAll s₀ w roots x ts parts E) (hdone : parts.all (·.outcome?.isSome) = true) :
    ∃ cs : List Course, cs.length = ts.length ∧ (∀ p ∈ ts.zip cs, p.2.Fits s₀ w (.follow x p.1)) ∧
      Course.firstFailure? cs = Task.firstFailure? parts ∧ Course.endingsOf cs = E := by
  induction parts generalizing ts E with
  | nil =>
      cases h
      exact ⟨[], rfl, by simp, rfl, rfl⟩
  | cons part parts ih =>
      rw [List.all_cons, Bool.and_eq_true] at hdone
      cases h with
      | @cons _ t ts _ _ E₀ E₁ h hs =>
          obtain ⟨cs, hl, hfit, hfirst, hend⟩ := ih hs hdone.2
          cases h with
          | @done _ c hc =>
              refine ⟨c :: cs, by simp [hl], ?_, ?_, by rw [Course.endingsOf, hend]⟩
              · rintro p hp
                rcases List.mem_cons.mp hp with rfl | hp
                · exact hc
                · exact hfit p hp
              · rw [Course.firstFailure?, hfirst]
                cases hc : c.failure? <;> simp [Task.firstFailure?, Course.outcomeOf]
          | _ => simp [Task.outcome?] at hdone

end TellsAll

theorem Tells.over {registered : Bool} {parts : List Task}
    (h : Tells s₀ w roots e (.walk x registered parts) E) (hdone : parts.all (·.outcome?.isSome) = true) :
    Tells s₀ w roots e (.done (Course.outcomeOf (Task.firstFailure? parts)))
      (E + {(x, Course.outcomeOf (Task.firstFailure? parts))}) := by
  cases h with
  | walk hc hx hp =>
      obtain ⟨cs, hl, hfit, hfirst, rfl⟩ := hp.courses hdone
      have hfits : Course.Fits s₀ w e (.walked x cs) := hc.fits (.walked hl hfit)
      have hover : Tells s₀ w roots e _ _ := .done hfits
      rwa [Course.failure?, Course.endings, hfirst] at hover

theorem Tells.settle {registered : Bool} {parts : List Task} (s : Session)
    (h : Tells s₀ w roots e (.walk x registered parts) E) :
    Tells s₀ w roots e (Task.settle s x registered parts).2
      (E + ↑(Task.ended x (Task.settle s x registered parts).2)) := by
  unfold Task.settle
  split
  · next hdone =>
    have hover := h.over hdone
    split
    · next heq =>
      rw [heq] at hover
      exact hover
    · next heq =>
      rw [heq] at hover
      exact hover
  · simpa [Task.ended] using h

theorem Tells.trimmed {t : Task} (h : Tells s₀ w roots e t E) :
    Tells s₀ w roots e t.trimmed (E + ↑t.spent) := by
  cases t with
  | walk x registered parts =>
      cases parts with
      | nil => exact h.over rfl
      | cons part parts => simpa [Task.trimmed, Task.spent] using h
  | _ => simpa [Task.trimmed, Task.spent] using h

theorem tellsAll_follows (hx : s₀.Reached w roots x) {ts : List String} (hts : ∀ t ∈ ts, t ∈ s₀.specifiers w x) :
    TellsAll s₀ w roots x ts (Task.follows x ts) 0 := by
  induction ts with
  | nil => exact .nil
  | cons t ts ih =>
      have hrest := ih fun t ht => hts t (by simp [ht])
      have hcons := TellsAll.cons (.follow hx (hts t (by simp))) hrest
      rwa [add_zero] at hcons

/-! ## A step at a leaf -/

theorem Faithful.specifiers (h : Faithful s₀ w roots s) (hx : s₀.Met w roots x) (ha : s.KnowAlike s' w x)
    (ht : s'.isTracked x = true) {found : List Dependency} (hf : (s'.findImports x).2 = .ok found) :
    found.map (·.text) = s₀.specifiers w x := by
  rw [← (h.known x hx).specifiers, ← ha.specifiers, Session.specifiers_of_tracked ht hf]

theorem Tells.walk_follows {registered : Bool} {ts : List String} (hc : Comes w e x)
    (hx : s₀.Reached w roots x) (hts : ts = s₀.specifiers w x) :
    Tells s₀ w roots e (.walk x registered (Task.follows x ts)) 0 := by
  subst hts
  exact .walk hc hx (tellsAll_follows hx fun _ => id)

theorem Task.Entered.tells {registered : Bool} {t' : Task} (he : Task.Entered x registered s s' t')
    (hs : Faithful s₀ w roots s) (hc : Comes w e x) (hx : s.isValid x = false → s₀.Reached w roots x) :
    Tells s₀ w roots e t' 0 := by
  cases he with
  | trusted _ =>
      have hfits : Course.Fits s₀ w e .settled := hc.fits .trusted
      exact .done hfits
  | @scanned found hv ht hf =>
      exact .walk_follows hc (hx hv) (hs.specifiers (hx hv).met (s.knowAlike_enter x x w) ht hf)
  | begun hv ht =>
      refine .reading hc (hx hv) ?_
      by_contra hn
      rw [hs.tracked x (by simpa using hn)] at ht
      cases ht

theorem Tells.of_seeks {leaf : Task} {f : Path} {t : String} {a : Except ResolverFault Path}
    (h : Tells s₀ w roots e leaf E) (hs : leaf.Seeks w f t a) : e = .follow f t ∧ E = 0 ∧
      s₀.Reached w roots f ∧ t ∈ s₀.specifiers w f ∧ w.resolve f t = a := by
  cases hs with
  | follow f t =>
      cases h with
      | follow hf ht => exact ⟨rfl, rfl, hf, ht, rfl⟩
  | resolving f t c rest due =>
      cases h with
      | resolving hf ht hr => exact ⟨rfl, rfl, hf, ht, hr.symm⟩

theorem Tells.leafStep {leaf t' : Task} (h : Tells s₀ w roots e leaf E) (hd : Task.LeafStep w s leaf s' t')
    (hs : Faithful s₀ w roots s) (hu : ∀ x, leaf.reads? = some x → s.isTracked x = false) :
    Tells s₀ w roots e t' (E + ↑(leaf.cut t')) := by
  have hinvalid : ∀ x, s.isValid x = false → s₀.isValid x = false := fun x hv => by
    by_contra hn
    rw [hs.valid x (by simpa using hn)] at hv
    cases hv
  have hcut : ∀ {f t a}, leaf.Seeks w f t a → leaf.cut t' = [] := fun hseeks => by
    simp [Task.cut, hseeks.reads?]
  cases hd with
  | check he =>
      cases h with
      | check hx => exact he.tells hs (.root _) fun hv => .root hx (hinvalid _ hv)
  | ask hseeks hn _ =>
      obtain ⟨rfl, rfl, hf, ht, hr⟩ := h.of_seeks hseeks
      rw [hcut hseeks]
      generalize hr' : w.resolve _ _ = a at hr
      cases hn with
      | resolving => exact .resolving hf ht (hr.symm.trans hr'.symm)
  | unresolved hseeks _ =>
      obtain ⟨rfl, rfl, hf, ht, hr⟩ := h.of_seeks hseeks
      rw [hcut hseeks]
      exact .done (.unresolved hr)
  | pass hseeks _ _ =>
      obtain ⟨rfl, rfl, hf, ht, hr⟩ := h.of_seeks hseeks
      rw [hcut hseeks]
      exact .done (.passed hr)
  | @register _ f y t _ _ hseeks _ hk hdecl he =>
      obtain ⟨rfl, rfl, hf, ht, hr⟩ := h.of_seeks hseeks
      rw [hcut hseeks]
      have hs' : Faithful s₀ w roots (s.register y) :=
        ⟨fun x hx => (hs.known x hx).trans (s.knowAlike_register y x w), hs.valid,
          fun x hx => by simp [hs.declared x hx], hs.tracked⟩
      refine he.tells hs' (.target hr (by simp [hk])) fun hv => ?_
      refine .declaration hf (Session.mem_targets.mpr ⟨t, ht, hr⟩) hk (hinvalid _ hv) ?_
      by_contra hn
      rw [hs.declared y (by simpa using hn)] at hdecl
      cases hdecl
  | @link _ f y t _ _ hseeks _ hk he =>
      obtain ⟨rfl, rfl, hf, ht, hr⟩ := h.of_seeks hseeks
      rw [hcut hseeks]
      have hs' : Faithful s₀ w roots (s.link f y) :=
        ⟨fun x hx => (hs.known x hx).trans (s.knowAlike_link y x f w), hs.valid,
          fun x hx => by simp [hs.declared x hx], hs.tracked⟩
      exact he.tells hs' (.target hr (by simp [hk])) fun hv =>
        .source hf (Session.mem_targets.mpr ⟨t, ht, hr⟩) hk (hinvalid _ hv)
  | @unread y registered due fault hr =>
      cases h with
      | reading hc hx hy =>
          have hfits : Course.Fits s₀ w e (.unread y fault) := hc.fits (.unread hy hr)
          exact .done hfits
  | @store y registered due text found hr hf =>
      cases h with
      | reading hc hx hy =>
          have hy := hu y rfl
          exact .walk_follows hc hx (hs.specifiers hx.met (Session.knowAlike_store hy hr fun _ => rfl)
            (by simp [Path.Same.refl]) hf)
  | notice => cases h
  | keep _ => cases h
  | refresh _ _ => cases h

/-- Work at a leaf goes on with what is left of the request. -/
theorem Tells.advance (now : Nat) {place : List Nat} {t : Task} (h : Tells s₀ w roots e t E)
    (hs : Faithful s₀ w roots s.bare) (hu : ∀ x ∈ t.waiting.filterMap Task.reads?, s.isTracked x = false)
    (hc : t.Checking) (hp : t.waitsAt place = true) :
    Tells s₀ w roots e (t.advance w now place s).2 (E + ↑(t.endings w now place s)) := by
  induction place generalizing t e E with
  | nil =>
      have hleaf : t.waiting = {t} := by cases t <;> simp_all [Task.waitsAt, Task.waiting]
      have hchecks : t.Checks := hc t (by simp [hleaf])
      obtain ⟨t', hd, ht⟩ := Task.act_leafStep (w := w) now s (.inl hchecks)
      have hdone := (h.leafStep hd hs fun x hx => hu x (by
        rw [hleaf]
        exact (Multiset.mem_filterMap _ _).mpr ⟨t, by simp, hx⟩)).trimmed
      have hends : t.endings w now [] s = t.cut t' ++ t'.spent := by
        rw [← hd.endings, ← ht]
        have hwalks := Session.walks_bare (t.advance w now [] s).1
        cases t <;> simp_all [Task.waitsAt, Task.endings]
      rw [ht, hends, ← Multiset.coe_add, ← add_assoc]
      exact hdone
  | cons i rest ih =>
      cases t with
      | walk x registered parts =>
          cases h with
          | walk hcomes hx hparts =>
              cases hi : parts[i]? with
              | none => simp [Task.waitsAt, hi] at hp
              | some part =>
                  obtain ⟨t, E', ht, hset⟩ := hparts.set hi
                  have hsub : ∀ leaf ∈ part.waiting, leaf ∈ (Task.walk x registered parts).waiting :=
                    fun leaf hl => Task.mem_waitingIn.mpr ⟨part, List.mem_of_getElem? hi, hl⟩
                  have hpart := ih ht (fun y hy => hu y ?_) (fun leaf hl => hc leaf (hsub leaf hl))
                    (by simpa [Task.waitsAt, hi] using hp)
                  · obtain ⟨s₂, part', hadvance⟩ : ∃ s₂ part', part.advance w now rest s = (s₂, part') :=
                      ⟨_, _, rfl⟩
                    rw [hadvance] at hpart
                    have hwalk : Tells s₀ w roots e (.walk x registered (parts.set i part')) _ :=
                      .walk hcomes hx (hset _ _ hpart)
                    have hsettle := hwalk.settle s₂
                    simp only [Task.advance, Task.endings, hi, hadvance, ← Multiset.coe_add, ← add_assoc]
                    exact hsettle
                  · obtain ⟨leaf, hl, hy⟩ := (Multiset.mem_filterMap _ _).mp hy
                    exact (Multiset.mem_filterMap _ _).mpr ⟨leaf, hsub leaf hl, hy⟩
      | group parts => cases h
      | done o => simp [Task.waitsAt] at hp
      | start request => simp [Task.waitsAt] at hp
      | reading x goal due => simp [Task.waitsAt] at hp
      | resolving f t c cs goal due => simp [Task.waitsAt] at hp

/-- A request that is done has taken one of its courses. -/
theorem Tells.course {o : Outcome} (h : Tells s₀ w roots e (.done o) E) :
    ∃ c : Course, c.Fits s₀ w e ∧ o = Course.outcomeOf c.failure? ∧ c.endings = E := by
  cases h with
  | @done _ c hc => exact ⟨c, hc, rfl, rfl⟩

end ImportCheck
