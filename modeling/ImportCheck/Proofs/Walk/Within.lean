import ImportCheck.Proofs.Lemmas.Source
import ImportCheck.Proofs.Walk.Nested

/-!
# Checks that stay within a set of files

A set is closed when what its files name is in it again, whichever of its spellings a file is looked at under. A
check of one of its files is then never about any other one: no matter which walks fail and are repeated, all that
is read and walked is in the set.
-/

namespace ImportCheck

namespace Session

/-- All that a file of the set names and that is looked at leads into the set again. -/
def ClosedUnder (s : Session) (w : Surroundings) (U : Set Path) : Prop :=
  ∀ f ∈ U, ∀ g ∈ U, g.Same f → ∀ t ∈ s.specifiers w g, ∀ x, w.resolve f t = .ok x → x.kind ≠ .compiled → x ∈ U

/-- Where no place has two spellings, closed is what the targets of each file stay within. -/
theorem closedUnder_of_targets {s : Session} {w : Surroundings} {U : Set Path} (hd : U.InjOn Path.components)
    (h : ∀ f ∈ U, ∀ x ∈ s.targets w f, x.kind ≠ .compiled → x ∈ U) : s.ClosedUnder w U := by
  intro f hf g hg hs t ht x hx hk
  obtain rfl : g = f := hd hg hf hs
  exact h g hg x (mem_targets.mpr ⟨t, ht, hx⟩) hk

/-- Each file of the set has the specifiers that it had before under one of its spellings in the set. -/
def Recalls (s₀ : Session) (w : Surroundings) (U : Set Path) (s : Session) : Prop :=
  ∀ f ∈ U, ∃ g ∈ U, g.Same f ∧ s.specifiers w f = s₀.specifiers w g

variable {s₀ s s' : Session} {w : Surroundings} {U : Set Path} {f x : Path} {text : String}

/-- A tracked file has the same specifiers under each of its spellings. -/
theorem specifiers_same (ht : s.isTracked x = true) (hs : x.Same f) : s.specifiers w f = s.specifiers w x := by
  obtain ⟨r, hr⟩ := Option.isSome_iff_exists.mp ((isTracked_eq_isSome s x).symm.trans ht)
  have hr' : s.files.get? f = some r := (s.files.get?_congr hs).symm.trans hr
  have hp : s.service.parsed.get? f = s.service.parsed.get? x := (s.service.parsed.get?_congr hs).symm
  simp only [specifiers_eq, recordFor, hr, hr', Option.map_some, Option.getD_some, treeOf, hp]
  have hfresh := SourceTree.texts_ofText hs.symm s.cwd r.text
  cases s.service.parsed.get? x with
  | none => exact hfresh
  | some e =>
      by_cases hv : e.1 = r.version
      · simp only [hv, ↓reduceIte]
      · simp only [hv, ↓reduceIte]
        exact hfresh

theorem recalls_refl (s : Session) (w : Surroundings) (U : Set Path) : s.Recalls w U s :=
  fun f hf => ⟨f, hf, .refl f, rfl⟩

theorem Recalls.of_knowAlike (h : s₀.Recalls w U s) (hk : ∀ f, s.KnowAlike s' w f) : s₀.Recalls w U s' := by
  intro f hf
  obtain ⟨g, hg, hs, heq⟩ := h f hf
  exact ⟨g, hg, hs, (hk f).specifiers.trans heq⟩

/-- A file that is tracked then brings its specifiers with it under each spelling. -/
theorem Recalls.of_tracked (h : s₀.Recalls w U s) (hx : x ∈ U) (ht : s'.isTracked x = true)
    (hk : ∀ f, (x.Same f → x = f) → s.KnowAlike s' w f) : s₀.Recalls w U s' := by
  intro f hf
  by_cases hs : x.Same f
  · obtain ⟨g, hg, hgx, heq⟩ := h x hx
    refine ⟨g, hg, hgx.trans hs, ?_⟩
    rw [specifiers_same ht hs, (hk x fun _ => rfl).specifiers, heq]
  · obtain ⟨g, hg, hgf, heq⟩ := h f hf
    exact ⟨g, hg, hgf, (hk f fun h => absurd h hs).specifiers.trans heq⟩

theorem Recalls.parsed (h : s₀.Recalls w U s) (hx : x ∈ U) (ht : s.isTracked x = true) :
    s₀.Recalls w U (s.parsed x) :=
  h.of_tracked hx ht fun _ hs => knowAlike_parsed ht hs

theorem Recalls.store (h : s₀.Recalls w U s) (hx : x ∈ U) (hu : s.isTracked x = false)
    (hr : w.disk.read x = .ok text) : s₀.Recalls w U (s.updateFile x text false).1 :=
  h.of_tracked hx (by simp [Path.Same.refl]) fun _ hs => knowAlike_store hu hr hs

/-- The specifiers that are found in a file of a closed set lead into the set. -/
theorem ClosedUnder.of_found (hc : s₀.ClosedUnder w U) (h : s₀.Recalls w U s) (hf : f ∈ U)
    {found : List Dependency} (hfound : (s.findImports f).2 = .ok found) {t : String}
    (ht : t ∈ found.map (·.text)) (hx : w.resolve f t = .ok x) (hk : x.kind ≠ .compiled) : x ∈ U := by
  obtain ⟨g, hg, hs, heq⟩ := h f hf
  rw [specifiers_of_tracked (tracked_of_found hfound) hfound] at heq
  exact hc f hf g hg hs t (heq ▸ ht) x hx hk

end Session

namespace Task

/-- What the leaf reads, checks or looks for is in the set. -/
structure Inside (w : Surroundings) (U : Set Path) (leaf : Task) : Prop where
  reads : ∀ x, leaf.reads? = some x → x ∈ U
  checks : ∀ x, leaf = start (.check x) → x ∈ U
  seeks : ∀ f t x, leaf.Seeks w f t (.ok x) → x.kind ≠ .compiled → x ∈ U

/-- All that the task is about is in the set. -/
structure Within (w : Surroundings) (U : Set Path) (t : Task) : Prop where
  parents : ∀ x ∈ t.parents, x ∈ U
  waiting : ∀ leaf ∈ t.waiting, leaf.Inside w U

variable {w : Surroundings} {U : Set Path} {s₀ s s' : Session} {leaf t' : Task} {x : Path}

theorem within_done (o : Outcome) : (done o).Within w U := ⟨by simp [Task.parents], by simp [Task.waiting]⟩

theorem within_follows {registered : Bool} {found : List Dependency} (hc : s₀.ClosedUnder w U)
    (h : s₀.Recalls w U s) (hx : x ∈ U) (hf : (s.findImports x).2 = .ok found) :
    (walk x registered (follows x (found.map (·.text)))).Within w U := by
  constructor
  case parents => simpa [Task.parents, parentsIn_follows] using hx
  case waiting =>
      intro leaf hl
      obtain ⟨t, ht, rfl⟩ := mem_waiting_follows.mp hl
      refine ⟨by simp [reads?], by simp, fun f t' y hs hk => ?_⟩
      exact hc.of_found h hx hf ht (hs.eq (.follow x t)).2.2.symm hk

theorem Entered.within {registered : Bool} (he : Entered x registered s s' t') (hc : s₀.ClosedUnder w U)
    (h : s₀.Recalls w U s) (hx : x ∈ U) :
    s₀.Recalls w U s' ∧ t'.Within w U ∧ ∀ y ∈ s.walkedSince s', y ∈ U := by
  have henter : s₀.Recalls w U (s.enter x) := h.of_knowAlike fun f => s.knowAlike_enter x f w
  have hwalked : ∀ y ∈ s.walkedSince s', y ∈ U := by
    intro y hy
    rcases he.walkedSince with hn | ⟨hn, -⟩
    · rw [hn] at hy
      cases hy
    · rw [hn, List.mem_singleton] at hy
      exact hy ▸ hx
  cases he with
  | trusted _ => exact ⟨h, within_done _, hwalked⟩
  | scanned _ ht hf => exact ⟨henter.parsed hx ht, within_follows hc henter hx hf, hwalked⟩
  | begun _ _ =>
      refine ⟨henter.of_knowAlike fun f => (Session.alike_record _ rfl).knowAlike f w, ?_, hwalked⟩
      refine ⟨by simp [Task.parents], fun leaf hl => ?_⟩
      obtain rfl := Multiset.mem_singleton.mp hl
      exact ⟨by simpa [reads?] using hx, by simp, fun f t y hs => by cases hs⟩

/-- Work at a leaf inside of a closed set leaves a task inside of it. -/
theorem LeafStep.within (hd : LeafStep w s leaf s' t') (hleaf : leaf.Checks) (hin : leaf.Inside w U)
    (hu : ∀ x, leaf.reads? = some x → s.isTracked x = false) (hc : s₀.ClosedUnder w U)
    (h : s₀.Recalls w U s) :
    s₀.Recalls w U s' ∧ t'.Within w U ∧ ∀ y ∈ s.walkedSince s', y ∈ U := by
  have hsame : s.walkedSince s = [] := by simp [Session.walkedSince]
  cases hd with
  | @check x _ _ he => exact he.within hc h (hin.checks x rfl)
  | @ask _ f t c a rest due hs hn _ =>
      refine ⟨h.of_knowAlike fun g => (Session.alike_record _ rfl).knowAlike g w, ?_, ?_⟩
      · refine ⟨by simp [Task.parents], fun leaf' hl => ?_⟩
        obtain rfl := Multiset.mem_singleton.mp hl
        refine ⟨by simp [reads?], by simp, fun f' t' y hy hk => ?_⟩
        obtain ⟨-, -, rfl⟩ := hy.eq hn
        exact hin.seeks f t y hs hk
      · rw [Session.walkedSince, Session.walks_record _ rfl]
        simp
  | unresolved _ _ => exact ⟨h, within_done _, by simp [hsame]⟩
  | pass _ _ _ => exact ⟨h, within_done _, by simp [hsame]⟩
  | @register _ f x t _ _ hs _ hk _ he =>
      have hregister : s₀.Recalls w U (s.register x) := h.of_knowAlike fun g => s.knowAlike_register x g w
      exact he.within hc hregister (hin.seeks f t x hs (by simp [hk]))
  | @link _ f x t _ _ hs _ hk he =>
      have hlink : s₀.Recalls w U (s.link f x) := h.of_knowAlike fun g => s.knowAlike_link x g f w
      exact he.within hc hlink (hin.seeks f t x hs (by simp [hk]))
  | @unread x registered _ _ _ =>
      exact ⟨h.of_knowAlike fun g => s.knowAlike_drop x g registered w, within_done _,
        by simp [Session.walkedSince]⟩
  | @store x registered due text found hr hf =>
      have hx := hin.reads x rfl
      have hstore := h.store hx (hu x rfl) hr
      exact ⟨hstore.parsed hx (Session.tracked_of_found hf), within_follows hc hstore hx hf,
        by simp [Session.walkedSince]⟩
  | notice => cases hleaf
  | keep _ => cases hleaf
  | refresh _ _ => cases hleaf

theorem Falls.recalls {c c' : Session × Multiset Path} {E : List (Path × Outcome)} (h : Falls c E c')
    (hr : s₀.Recalls w U c.1) : s₀.Recalls w U c'.1 := by
  induction h with
  | rest => exact hr
  | pass _ ih => exact ih
  | fail _ ih => exact ih.of_knowAlike fun f => Session.knowAlike_drop _ _ f _ w

theorem Within.walking {t : Task} (h : t.Within w U) : ∀ x ∈ t.walking, x ∈ U := by
  intro x hx
  rcases Multiset.mem_add.mp hx with hx | hx
  · exact h.parents x hx
  · obtain ⟨leaf, hl, hreads⟩ := (Multiset.mem_filterMap _ _).mp hx
    exact (h.waiting leaf hl).reads x hreads

end Task

theorem Session.recalls_bare {s₀ s : Session} {w : Surroundings} {U : Set Path} :
    s₀.Recalls w U s.bare ↔ s₀.Recalls w U s := by
  constructor <;> intro h <;> refine h.of_knowAlike fun f => ?_ <;>
    apply Session.knowAlike_of_same_parts <;> rfl

/-! ## Runs -/

/-- Work at a moment of a check keeps within a closed set, and so are all walks that are open then. -/
theorem Moment.within {s₀ : Session} {roots : List Path} {h : History} {m : Moment} {U : Set Path}
    (hw : Watched s₀ roots h (m.session, m.task)) (hp : m.task.waitsAt m.place = true)
    (hc : s₀.ClosedUnder m.around U) (hr : s₀.Recalls m.around U m.session) (hin : m.task.Within m.around U) :
    s₀.Recalls m.around U m.after.1 ∧ m.after.2.Within m.around U ∧ ∀ f ∈ m.nested, f ∈ U := by
  obtain ⟨leaf, s', t', R, E, hl, hmem, hd, hwait, hwait', -, hfalls⟩ :=
    m.leafStep hp fun l hl => .inl (hw.checking l hl)
  have huntracked : ∀ x, leaf.reads? = some x → m.session.bare.isTracked x = false := fun x hx =>
    (hw.kept.awaited x ((Multiset.mem_filterMap _ _).mpr ⟨leaf, hmem, hx⟩)).2
  obtain ⟨hrecalls, hwithin, hwalked⟩ :=
    hd.within (hw.checking leaf hmem) (hin.waiting leaf hmem) huntracked hc (Session.recalls_bare.mpr hr)
  refine ⟨Session.recalls_bare.mp (hfalls.recalls hrecalls), ⟨fun x hx => ?_, fun l hl => ?_⟩, ?_⟩
  · rcases Multiset.mem_add.mp (Multiset.mem_of_le hfalls.le hx) with hx | hx
    · exact hin.parents x hx
    · exact hwithin.parents x hx
  · rw [hwait', Multiset.mem_add] at hl
    rcases hl with hl | hl
    · exact hin.waiting l (by simp [hwait, hl])
    · exact hwithin.waiting l hl
  · intro f hf
    have hsince : m.session.walkedSince m.after.1 = m.session.bare.walkedSince s' := by
      rw [Session.walkedSince, Session.walkedSince, Session.walks_bare, ← hfalls.walks, Session.walks_bare]
    rw [Moment.nested, hl, hsince] at hf
    rcases List.mem_append.mp hf with hf | hf
    · exact hin.walking f (Multiset.mem_of_le (Task.around_le hl) hf)
    · exact hwalked f hf

section

variable {s : Session} {w : Surroundings} {t : Task} {roots : List Path} {U : Set Path} {h : History}

theorem Runs.within {c : Session × Task} (hr : Runs (s, t) h c) (ht : t.Asks roots)
    (hroots : ∀ r ∈ roots, r ∈ U) (hc : s.ClosedUnder w U) (hw : ∀ m ∈ h, m.around = w) :
    s.Recalls w U c.1 ∧ c.2.Within w U := by
  induction hr with
  | rest =>
      refine ⟨s.recalls_refl w U, fun x hx => ?_, fun leaf hl => ?_⟩
      · rw [ht.parents] at hx
        cases hx
      · obtain ⟨r, hr, rfl⟩ := ht.waiting leaf hl
        refine ⟨by simp [Task.reads?], fun x hx => ?_, fun f t x hs => by cases hs⟩
        cases hx
        exact hroots r hr
  | @step h m hr hp ih =>
      obtain rfl : m.around = w := hw m (by simp)
      obtain ⟨hrecalls, hwithin⟩ := ih fun m' hm' => hw m' (List.mem_append.mpr (.inl hm'))
      obtain ⟨hrecalls', hwithin', -⟩ := Moment.within (hr.watched ht) hp hc hrecalls hwithin
      exact ⟨hrecalls', hwithin'⟩

/-- The walks that are open inside of each other at a moment of a check of files in a closed set: all are of files
in the set, and none is of the place of another one. -/
theorem Runs.nested {m : Moment} (hr : Runs (s, t) h (m.session, m.task)) (ht : t.Asks roots)
    (hroots : ∀ r ∈ roots, r ∈ U) (hc : s.ClosedUnder w U) (hw : ∀ m ∈ h, m.around = w) (hm : m.around = w)
    (hp : m.task.waitsAt m.place = true) :
    (∀ f ∈ m.nested, f ∈ U) ∧ (m.nested.map Path.components).Nodup := by
  subst hm
  obtain ⟨hrecalls, hwithin⟩ := hr.within ht hroots hc hw
  exact ⟨(Moment.within (hr.watched ht) hp hc hrecalls hwithin).2.2, Moment.nested_distinct (hr.watched ht) hp⟩

end

end ImportCheck
