import ImportCheck.Proofs.Walk.FileEffect

/-!
# Where links come from

The links of a valid file are those that its last walk found, and those of older walks that were under way when
it began: a walk that begins drops the links of its file, but not the work that has been started on it.
-/

namespace ImportCheck

open ImportCheck.Task (FileEffect Begins reads?)

variable {w : Surroundings} {f x : Path} {s s' : Session} {leaf t' : Task} {K L R : Multiset Task}
  {Old : Path → Prop}

/-- A source file that leaves look for, to link it. -/
def Sought (w : Surroundings) (f : Path) (L : Multiset Task) (x : Path) : Prop :=
  x.kind = .source ∧ ∃ l ∈ L, ∃ t, l.Seeks w f t (.ok x)

theorem sought_add : Sought w f (K + L) x ↔ Sought w f K x ∨ Sought w f L x := by
  simp only [Sought, Multiset.mem_add, or_and_right, exists_or, and_or_left]

theorem not_sought_start {requests : List Request} (hc : ∀ q ∈ requests, ∀ g t, q ≠ .follow g t)
    (hl : ∀ l ∈ L, ∃ q ∈ requests, l = .start q) : ¬Sought w f L x := by
  rintro ⟨-, l, hmem, t, hs⟩
  obtain ⟨q, hq, rfl⟩ := hl l hmem
  generalize ha : Except.ok x = a at hs
  cases hs
  exact hc _ hq _ _ rfl

theorem not_sought_single (h : ∀ t a, ¬leaf.Seeks w f t a) : ¬Sought w f {leaf} x := by
  rintro ⟨-, l, hl, t, hs⟩
  exact h t _ (Multiset.mem_singleton.mp hl ▸ hs)

theorem sought_follows {registered : Bool} {specifiers : List String} :
    Sought w f (Task.walk f registered (Task.follows f specifiers)).waiting x ↔
      ∃ t ∈ specifiers, w.resolve f t = .ok x ∧ x.kind = .source := by
  constructor
  · rintro ⟨hk, l, hl, u, hs⟩
    obtain ⟨t, ht, rfl⟩ := Task.mem_waiting_follows.mp hl
    obtain ⟨-, rfl, hr⟩ := (Task.Seeks.follow (w := w) f t).eq hs
    exact ⟨t, ht, hr, hk⟩
  · rintro ⟨t, ht, hr, hk⟩
    exact ⟨hk, _, Task.mem_waiting_follows.mpr ⟨t, ht, rfl⟩, t, hr ▸ .follow f t⟩

theorem Task.Begins.sought (h : Begins f s s' t') : Sought w f t'.waiting x ↔ x ∈ s'.sources w f := by
  rcases h.leaves with ⟨hu, registered, due, rfl⟩ | ⟨-, registered, rfl⟩
  · have hnone : ¬x ∈ s'.sources w f := by simp [Session.sources, Session.named_of_untracked hu]
    exact iff_of_false (not_sought_single fun t a hs => by cases hs) hnone
  · rw [sought_follows, Session.mem_sources]

/-! ## Links and the leaves that will add to them -/

/-- The links of a file, with what its leaves are to add, are some old targets. -/
structure Linked (w : Surroundings) (f : Path) (Old : Path → Prop) (s : Session) (L : Multiset Task) : Prop where
  seeks : ∀ x, Sought w f L x → Old x
  links : ∀ q, s.graph.hasDependency f q = true → ∃ x, Old x ∧ x.Same q
  old : ∀ x, Old x → s.graph.hasDependency f x = true ∨ Sought w f L x
  sources : ∀ x ∈ s.sources w f, Old x
  tracked : f ∈ L.filterMap reads? ∨ s.isTracked f = true

theorem Task.Begins.linked (h : Begins f s s' t') :
    Linked w f (fun x => Sought w f R x ∨ x ∈ s'.sources w f) s' (R + t'.waiting) where
  seeks x hx := (sought_add.mp hx).imp id h.sought.mp
  links q hq := by simp [h.links q] at hq
  old x hx := .inr (sought_add.mpr (hx.imp id h.sought.mpr))
  sources x hx := .inr hx
  tracked := by
    rcases h.leaves with ⟨-, registered, due, rfl⟩ | ⟨ht, -⟩
    · exact .inl (by simp [Task.waiting, Task.reads?])
    · exact .inr ht

/-- A leaf that is worked at links what it looked for, or leaves it to others, and so it is with the targets of a
text that it has looked at. -/
theorem Linked.step (h : Linked w f Old s (R + {leaf}))
    (hl : ∀ q, s.graph.hasDependency f q = true → s'.graph.hasDependency f q = true)
    (hl' : ∀ q, s'.graph.hasDependency f q = true →
      s.graph.hasDependency f q = true ∨ ∃ x, Sought w f {leaf} x ∧ x.Same q)
    (hn : ∀ x, Sought w f t'.waiting x → Sought w f {leaf} x ∨ x ∈ s'.sources w f)
    (hf : ∀ x, Sought w f {leaf} x → s'.graph.hasDependency f x = true ∨ Sought w f t'.waiting x)
    (hs : ∀ x ∈ s'.sources w f, x ∈ s.sources w f ∨ Sought w f t'.waiting x)
    (ht : f ∈ R.filterMap reads? ∨ s'.isTracked f = true) :
    Linked w f (fun x => Old x ∨ x ∈ s'.sources w f) s' (R + t'.waiting) := by
  have hleaf : ∀ x, Sought w f {leaf} x → Old x := fun x hx => h.seeks x (sought_add.mpr (.inr hx))
  have hold : ∀ x, Old x → s'.graph.hasDependency f x = true ∨ Sought w f (R + t'.waiting) x := by
    intro x hx
    rcases h.old x hx with hlink | hx
    · exact .inl (hl x hlink)
    · rcases sought_add.mp hx with hx | hx
      · exact .inr (sought_add.mpr (.inl hx))
      · exact (hf x hx).imp id fun hx => sought_add.mpr (.inr hx)
  constructor
  case seeks =>
      intro x hx
      rcases sought_add.mp hx with hx | hx
      · exact .inl (h.seeks x (sought_add.mpr (.inl hx)))
      · exact (hn x hx).imp (hleaf x) id
  case links =>
      intro q hq
      rcases hl' q hq with hlink | ⟨x, hx, hsame⟩
      · obtain ⟨x, hx, hsame⟩ := h.links q hlink
        exact ⟨x, .inl hx, hsame⟩
      · exact ⟨x, .inl (hleaf x hx), hsame⟩
  case old =>
      rintro x (hx | hx)
      · exact hold x hx
      · rcases hs x hx with hx | hx
        · exact hold x (h.sources x hx)
        · exact .inr (sought_add.mpr (.inr hx))
  case sources => exact fun x hx => .inr hx
  case tracked => exact ht.imp (fun hf => by simp [hf]) id

/-- Whatever is done, unless a walk of the file begins, the old targets stay, and those of its text are added. -/
theorem Linked.fileEffect (h : Linked w f Old s (R + {leaf})) (hb : FileEffect w f s leaf s' t')
    (hv : s'.isValid f = true) (hn : ¬Begins f s s' t') :
    Linked w f (fun x => Old x ∨ x ∈ s'.sources w f) s' (R + t'.waiting) := by
  cases hb with
  | begins hb _ => exact absurd hb hn
  | loses hv' _ => simp [hv] at hv'
  | scans hr _ _ hl ht hs =>
      obtain ⟨registered, rfl⟩ := hs
      have hnew : ∀ x, Sought w f (Task.walk f registered (Task.follows f (s'.named f))).waiting x ↔
          x ∈ s'.sources w f := fun x => by rw [sought_follows, Session.mem_sources]
      have hleaf : ∀ x, ¬Sought w f {leaf} x := fun x =>
        not_sought_single fun t a hs => by simp [hs.reads?] at hr
      refine h.step ?_ ?_ ?_ ?_ ?_ (.inr ht)
      · exact fun q hq => (hl q).trans hq
      · exact fun q hq => .inl ((hl q).symm.trans hq)
      · exact fun x hx => .inr ((hnew x).mp hx)
      · exact fun x hx => absurd hx (hleaf x)
      · exact fun x hx => .inr ((hnew x).mpr hx)
  | keeps hsteady hr _ hl hl' hseeks hfound =>
      have hself := Multiset.mem_singleton_self leaf
      refine h.step hl ?_ ?_ ?_ ?_ ?_
      · exact fun q hq => (hl' q hq).imp id fun ⟨t, x, hs, hk, hsame⟩ => ⟨x, ⟨hk, leaf, hself, t, hs⟩, hsame⟩
      · exact fun x ⟨hk, l, hmem, t, hs⟩ => .inl ⟨hk, leaf, hself, t, hseeks l hmem t _ hs⟩
      · rintro x ⟨hk, l, hmem, t, hs⟩
        obtain rfl := Multiset.mem_singleton.mp hmem
        exact (hfound t x hs hk).imp id fun ⟨l', hmem', hs'⟩ => ⟨hk, l', hmem', t, hs'⟩
      · exact fun x hx => .inl (Session.sources_congr hsteady.named ▸ hx)
      · -- the leaf does not wait for the text of the file, so another one does, or it is tracked
        rcases h.tracked with hread | ht
        · rw [Multiset.filterMap_add, Multiset.mem_add] at hread
          refine .inl (hread.resolve_right fun hleaf => ?_)
          obtain ⟨l, hmem, hx⟩ := (Multiset.mem_filterMap _ _).mp hleaf
          exact hr (Multiset.mem_singleton.mp hmem ▸ hx)
        · exact .inr (hsteady.tracked.trans ht)

/-- The targets of a file, at rest, are those it is linked to. -/
theorem Linked.hasDependency_iff (h : Linked w f Old s L) (hl : ∀ x, ¬Sought w f L x) (q : Path) :
    s.graph.hasDependency f q = true ↔ ∃ x, Old x ∧ x.Same q := by
  refine ⟨h.links q, fun ⟨x, hx, hsame⟩ => ?_⟩
  have hlink := (h.old x hx).resolve_right (hl x)
  rwa [s.graph.hasDependency_congr (Path.Same.refl f) hsame] at hlink

/-! ## A text that is read once -/

/-- The file is read at most once more, and only if there is no text; so its text names whatever it had. -/
structure Sole (w : Surroundings) (f : Path) (Had : Path → Prop) (s : Session) (L : Multiset Task) : Prop where
  once : (L.filterMap reads?).count f ≤ 1
  unread : f ∈ L.filterMap reads? → s.isTracked f = false
  had : ∀ x, Had x → x ∈ s.sources w f

theorem Task.Begins.sole (h : Begins f s s' t') (hr : f ∉ R.filterMap reads?) :
    Sole w f (· ∈ s'.sources w f) s' (R + t'.waiting) := by
  have hcount : (R.filterMap reads?).count f = 0 := Multiset.count_eq_zero.mpr hr
  rcases h.leaves with ⟨hu, registered, due, rfl⟩ | ⟨-, registered, rfl⟩
  · have hone : ({Task.reading f (.walk registered) due} : Multiset Task).filterMap reads? = {f} := rfl
    exact ⟨by simp [Task.waiting, hone, hcount], fun _ => hu, fun _ => id⟩
  · refine ⟨by simp [Task.waiting, Task.reads?_follows, hcount], fun hf => absurd hf ?_, fun _ => id⟩
    simpa [Task.waiting, Task.reads?_follows] using hr

theorem Sole.fileEffect {Had : Path → Prop} (h : Sole w f Had s (R + {leaf})) (hb : FileEffect w f s leaf s' t')
    (hv : s'.isValid f = true) (hn : ¬Begins f s s' t') :
    Sole w f (fun x => Had x ∨ x ∈ s'.sources w f) s' (R + t'.waiting) := by
  have honce := h.once
  rw [Multiset.filterMap_add, Multiset.count_add] at honce
  cases hb with
  | begins hb _ => exact absurd hb hn
  | loses hv' _ => simp [hv] at hv'
  | scans hr _ _ _ _ hs =>
      obtain ⟨registered, rfl⟩ := hs
      have hread : f ∈ ({leaf} : Multiset Task).filterMap reads? :=
        (Multiset.mem_filterMap _ _).mpr ⟨leaf, Multiset.mem_singleton_self leaf, hr⟩
      have hleft : (R.filterMap reads?).count f = 0 := by
        have := Multiset.count_pos.mpr hread
        omega
      have hu : s.isTracked f = false := h.unread (by simp [hread])
      refine ⟨by simp [Task.waiting, Task.reads?_follows, hleft], fun hf => absurd hf ?_, ?_⟩
      · simpa [Task.waiting, Task.reads?_follows] using Multiset.count_eq_zero.mp hleft
      · rintro x (hx | hx)
        · simpa [Session.sources, Session.named_of_untracked hu] using h.had x hx
        · exact hx
  | keeps hsteady _ hr' _ _ _ _ =>
      have hnew : (t'.waiting.filterMap reads?).count f = 0 := Multiset.count_eq_zero.mpr hr'
      have hsources := Session.sources_congr (w := w) hsteady.named
      refine ⟨by rw [Multiset.filterMap_add, Multiset.count_add]; omega, fun hf => ?_, ?_⟩
      · rw [Multiset.filterMap_add, Multiset.mem_add] at hf
        exact hsteady.tracked.trans (h.unread (by simp [hf.resolve_right hr']))
      · exact fun x hx => hx.elim (fun hx => hsources ▸ h.had x hx) id

/-! ## Since the last walk began -/

/-- A walk of the file begins, while other leaves wait. -/
structure Moment.Enters (m : Moment) (f : Path) (others : Multiset Task) : Prop where
  walked : f ∈ m.session.walkedSince m.after.1
  waiting : ∃ leaf, m.leaf? = some leaf ∧ m.task.waiting = others + {leaf}

/-- The source files that were named by the texts of the file. -/
def History.Had (w : Surroundings) (f : Path) (h : History) (x : Path) : Prop :=
  ∃ m ∈ h, x ∈ m.after.1.sources w f

theorem History.had_concat {h : History} {m : Moment} :
    History.Had w f (h ++ [m]) x ↔ History.Had w f h x ∨ x ∈ m.after.1.sources w f := by
  simp [History.Had, or_and_right, exists_or]

/-- The last walk of the file began at the moment, and this has happened after it. -/
structure Lasting (w : Surroundings) (f : Path) (m : Moment) (others : Multiset Task) (since : History)
    (s : Session) (L : Multiset Task) : Prop where
  enters : m.Enters f others
  last : f ∉ m.after.1.walkedSince s
  linked : Linked w f (fun x => Sought w f others x ∨ History.Had w f (m :: since) x) s L
  sole : f ∉ others.filterMap reads? → Sole w f (History.Had w f (m :: since)) s L

theorem Linked.of_iff {New : Path → Prop} (h : Linked w f Old s L) (hn : ∀ x, Old x ↔ New x) :
    Linked w f New s L := (funext fun x => propext (hn x) : Old = New) ▸ h

theorem Sole.of_iff {New : Path → Prop} (h : Sole w f Old s L) (hn : ∀ x, Old x ↔ New x) :
    Sole w f New s L := (funext fun x => propext (hn x) : Old = New) ▸ h

theorem Session.not_mem_walkedSince {s₀ : Session} {l : List Path} (h : f ∉ s₀.walkedSince s)
    (hw : s'.walks = s.walks ++ l) (hl : f ∉ l) : f ∉ s₀.walkedSince s' := by
  rw [Session.walkedSince, hw, List.drop_append, List.mem_append]
  exact not_or.mpr ⟨h, fun hf => hl (List.mem_of_mem_drop hf)⟩

theorem Runs.served {c c' : Session × Task} {h : History} (hr : Runs c h c')
    (hc : Served c.1 c.2.waiting) : Served c'.1 c'.2.waiting := by
  induction hr with
  | rest => exact hc
  | @step h m _ hp ih => exact m.served hp ih

/-- A file that was not valid and is valid in the end has been walked since. -/
theorem Runs.lasting {c c' : Session × Task} {h : History} (hr : Runs c h c') (hc : Served c.1 c.2.waiting)
    (hinvalid : c.1.isValid f = false) (hw : ∀ m ∈ h, m.around.resolver = w.resolver)
    (hs : ∀ p ∈ c'.1.walks, p.Same f → p = f) (hv : c'.1.isValid f = true) :
    ∃ before m since others, h = before ++ m :: since ∧
      Lasting w f m others since c'.1 c'.2.waiting := by
  induction hr with
  | rest => simp [hinvalid] at hv
  | @step h m hr hp ih =>
      obtain ⟨leaf, t', R, hl, hwait, hwait', hb⟩ :=
        m.fileEffect hp (Runs.served hr hc) (hw m (by simp)) hs hv
      obtain ⟨l, hwalks⟩ := hb.walks
      by_cases hbegins : Begins f m.session m.after.1 t'
      · refine ⟨h, m, [], R, rfl, ⟨⟨?_, leaf, hl, hwait⟩, by simp [Session.walkedSince], ?_, fun hr => ?_⟩⟩
        · simp [Session.walkedSince, hbegins.walks]
        · rw [hwait']
          exact hbegins.linked.of_iff fun x => by simp [History.Had]
        · rw [hwait']
          exact (hbegins.sole hr).of_iff fun x => by simp [History.Had]
      · obtain ⟨hvalid, l', hwalks', hn⟩ := hb.stays hv hbegins
        obtain ⟨before, m₀, since, others, rfl, hlast⟩ := ih (fun m' hm => hw m' (by simp [hm]))
          (fun p hp => hs p (hwalks ▸ List.mem_append.mpr (.inl hp))) hvalid
        have hlinked := hlast.linked
        have hsole := hlast.sole
        rw [hwait] at hlinked hsole
        refine ⟨before, m₀, since ++ [m], others, by simp, ⟨hlast.enters, ?_, ?_, fun hr => ?_⟩⟩
        · exact Session.not_mem_walkedSince hlast.last hwalks' hn
        · rw [hwait']
          refine (hlinked.fileEffect hb hv hbegins).of_iff fun x => ?_
          rw [← List.cons_append, History.had_concat, or_assoc]
        · rw [hwait']
          refine ((hsole hr).fileEffect hb hv hbegins).of_iff fun x => ?_
          rw [← List.cons_append, History.had_concat]

end ImportCheck
