import ImportCheck.Proofs.Walk.Confined

/-!
# What walked files name

A walk takes up all that is named in its file, and checks take up nothing else. What is named in a file does not change
after its walk has begun: its text stays as it is, and the service remembers the parse.
-/

namespace ImportCheck

namespace Session

/-- The tree is remembered as the parse of the text that is stored now. -/
def Remembers (s : Session) (x : Path) (tree : SourceTree) : Prop :=
  ∃ r, s.files.get? x = some r ∧ s.service.parsed.get? x = some (r.version, tree)

variable {s s' : Session} {x y : Path} {tree : SourceTree} {found : List Dependency}

theorem Remembers.of_same_parts (h : s.Remembers x tree) (hf : s'.files = s.files)
    (hp : s'.service.parsed = s.service.parsed) : s'.Remembers x tree := by
  rw [Remembers, hf, hp]
  exact h

theorem Remembers.of_same (h : s.Remembers x tree) (hs : x.Same y) : s.Remembers y tree := by
  obtain ⟨r, hr, hp⟩ := h
  exact ⟨r, (s.files.get?_congr hs).symm.trans hr, (s.service.parsed.get?_congr hs).symm.trans hp⟩

theorem Remembers.findImports (h : s.Remembers x tree) : (s.findImports x).2 = .ok (tree.dependencies s.cwd) := by
  obtain ⟨r, hr, hp⟩ := h
  simp [findImports_snd, hr, treeOf, hp]

theorem Remembers.parsed (h : s.Remembers x tree) (hy : s.isTracked y = true) : (s.parsed y).Remembers x tree := by
  obtain ⟨r, hr, hp⟩ := h
  obtain ⟨r', hr'⟩ := Option.isSome_iff_exists.mp ((isTracked_eq_isSome s y).symm.trans hy)
  refine ⟨r, hr, ?_⟩
  rcases service_parsed hr' with hs | hs
  · rw [hs, hp]
  · rw [hs, PathMap.get?_insert]
    split
    · next hsame =>
      obtain rfl : r' = r := Option.some.inj (hr'.symm.trans ((s.files.get?_congr hsame).trans hr))
      simp [treeOf, (s.service.parsed.get?_congr hsame).trans hp]
    · exact hp

theorem Remembers.updateFile (h : s.Remembers x tree) (hy : s.isTracked y = false) (text : String) (checked : Bool) :
    (s.updateFile y text checked).1.Remembers x tree := by
  obtain ⟨r, hr, hp⟩ := h
  refine ⟨r, ?_, hp⟩
  have hsame : ¬y.Same x := fun hs => by
    rw [isTracked_eq_isSome, s.files.get?_congr hs, hr] at hy
    cases hy
  exact (s.files.get?_update y text checked x).trans ((if_neg hsame).trans hr)

theorem remembers_parsed (hf : (s.findImports x).2 = .ok found) :
    ∃ tree, (s.parsed x).Remembers x tree ∧ found = tree.dependencies s.cwd := by
  obtain ⟨r, hr⟩ := Option.isSome_iff_exists.mp ((isTracked_eq_isSome s x).symm.trans (tracked_of_found hf))
  refine ⟨s.treeOf x r, ⟨r, hr, ?_⟩, ?_⟩
  · cases hp : s.service.parsed.get? x with
    | none =>
        simp [Session.parsed, Session.sourceTree, Service.sourceTree, hr, hp, treeOf, PathMap.get?_insert,
          Path.Same.refl]
    | some e =>
        obtain ⟨version, tree⟩ := e
        by_cases hv : version = r.version <;>
          simp [Session.parsed, Session.sourceTree, Service.sourceTree, hr, hp, treeOf, hv, PathMap.get?_insert,
            Path.Same.refl]
  · rw [findImports_snd, hr] at hf
    exact (Except.ok.inj hf).symm

end Session

/-! ## Specifiers that are taken up -/

/-- The specifier whose target the leaf starts to look for. -/
def Task.follow? : Task → Option String
  | .start (.follow _ t) => some t
  | _ => none

/-- The specifiers that have been followed, in order. -/
def History.followed (h : History) : List String := h.filterMap fun m => m.leaf?.bind Task.follow?

/-- The specifiers that are taken up are those that are named in files which are walked and tracked. -/
structure Named (s₀ s : Session) (taken : Multiset String) : Prop where
  cwd : s.cwd = s₀.cwd
  complete : ∀ x ∈ s₀.walkedSince s, s.isTracked x = true →
    ∃ tree, s.Remembers x tree ∧ ∀ d ∈ tree.dependencies s.cwd, d.text ∈ taken
  sound : ∀ t ∈ taken, ∃ x ∈ s₀.walkedSince s, ∃ tree, s.Remembers x tree ∧ ∃ d ∈ tree.dependencies s.cwd, d.text = t

namespace Named

variable {w : Surroundings} {s₀ s s' : Session} {taken : Multiset String} {x : Path}

theorem of_same_parts (h : Named s₀ s taken) (hc : s'.cwd = s.cwd) (hf : s'.files = s.files)
    (hp : s'.service.parsed = s.service.parsed) (hw : s'.walks = s.walks) : Named s₀ s' taken := by
  have hsince : s₀.walkedSince s' = s₀.walkedSince s := by simp only [Session.walkedSince, hw]
  constructor
  case cwd => exact hc.trans h.cwd
  case complete =>
      rw [hsince, hc]
      intro x hx ht
      rw [Session.isTracked, hf] at ht
      obtain ⟨tree, hr, hd⟩ := h.complete x hx ht
      exact ⟨tree, hr.of_same_parts hf hp, hd⟩
  case sound =>
      rw [hsince, hc]
      intro t ht
      obtain ⟨x, hx, tree, hr, hd⟩ := h.sound t ht
      exact ⟨x, hx, tree, hr.of_same_parts hf hp, hd⟩

/-- A walk that waits for its text names nothing yet. -/
theorem begin (h : Named s₀ s taken) (hw : s.walks = s₀.walks ++ s₀.walkedSince s) (hx : s.isTracked x = false) :
    Named s₀ (s.enter x) taken := by
  have hsince := Session.walkedSince_enter hw x
  constructor
  case cwd => exact h.cwd
  case complete =>
      rw [hsince]
      intro y hy ht
      rcases List.mem_append.mp hy with hy | hy
      · exact h.complete y hy ht
      · obtain rfl := List.mem_singleton.mp hy
        rw [Session.isTracked_enter, hx] at ht
        cases ht
  case sound =>
      rw [hsince]
      intro t ht
      obtain ⟨y, hy, hd⟩ := h.sound t ht
      exact ⟨y, List.mem_append_left _ hy, hd⟩

/-- The file of a walk is looked at, and all that is found is taken up. -/
theorem scan {tree : SourceTree} (h : Named s₀ s taken) (hc : s'.cwd = s.cwd)
    (hwalked : ∀ y, y ∈ s₀.walkedSince s' ↔ y ∈ s₀.walkedSince s ∨ y = x)
    (hkeep : ∀ y tree, s.Remembers y tree → s'.Remembers y tree)
    (htracked : ∀ y, ¬x.Same y → s'.isTracked y = true → s.isTracked y = true) (hr : s'.Remembers x tree)
    {found : List Dependency} (hf : found = tree.dependencies s.cwd) :
    Named s₀ s' (taken + ↑(found.map (·.text))) := by
  subst hf
  constructor
  case cwd => exact hc.trans h.cwd
  case complete =>
      rw [hc]
      intro y hy ht
      by_cases hs : x.Same y
      · refine ⟨tree, hr.of_same hs, fun d hd => ?_⟩
        exact Multiset.mem_add.mpr (.inr (Multiset.mem_coe.mpr (List.mem_map_of_mem hd)))
      · have hy : y ∈ s₀.walkedSince s := ((hwalked y).mp hy).resolve_right fun he => hs (he ▸ .refl x)
        obtain ⟨tree', hr', hd⟩ := h.complete y hy (htracked y hs ht)
        exact ⟨tree', hkeep y tree' hr', fun d hm => Multiset.mem_add.mpr (.inl (hd d hm))⟩
  case sound =>
      rw [hc]
      intro t ht
      rcases Multiset.mem_add.mp ht with ht | ht
      · obtain ⟨y, hy, tree', hr', hd⟩ := h.sound t ht
        exact ⟨y, (hwalked y).mpr (.inl hy), tree', hkeep y tree' hr', hd⟩
      · obtain ⟨d, hd, he⟩ := List.mem_map.mp (Multiset.mem_coe.mp ht)
        exact ⟨x, (hwalked x).mpr (.inr rfl), tree, hr, d, hd, he⟩

theorem falls {c c' : Session × Multiset Path} {E : List (Path × Outcome)} (hf : Task.Falls c E c')
    (h : Named s₀ c.1 taken) : Named s₀ c'.1 taken := by
  induction hf with
  | rest => exact h
  | pass _ ih => exact ih
  | fail _ ih => exact ih.of_same_parts rfl rfl rfl rfl

theorem filterMap_follow?_follows {registered : Bool} {specifiers : List String} :
    (Task.walk x registered (Task.follows x specifiers)).waiting.filterMap Task.follow? = ↑specifiers := by
  rw [Task.waiting, Task.waitingIn_follows, Multiset.filterMap_coe, Task.follows, List.filterMap_map]
  exact congrArg _ List.filterMap_some

theorem add_done (h : Named s₀ s taken) (o : Outcome) :
    Named s₀ s (taken + (Task.done o).waiting.filterMap Task.follow?) := by
  simpa [Task.waiting] using h

theorem filterMap_follow?_singleton (leaf : Task) :
    Multiset.filterMap Task.follow? {leaf} = ↑leaf.follow?.toList := by
  rw [← Multiset.coe_singleton, Multiset.filterMap_coe]
  cases h : leaf.follow? <;> simp [h]

theorem add_of_none (h : Named s₀ s taken) {leaf : Task} (hl : leaf.follow? = none) :
    Named s₀ s (taken + Multiset.filterMap Task.follow? {leaf}) := by
  rw [filterMap_follow?_singleton, hl]
  simpa using h

theorem entered {registered : Bool} {t' : Task} (h : Named s₀ s taken)
    (hw : s.walks = s₀.walks ++ s₀.walkedSince s) (he : Task.Entered x registered s s' t') :
    Named s₀ s' (taken + t'.waiting.filterMap Task.follow?) := by
  cases he with
  | trusted _ => exact h.add_done _
  | @scanned found hv ht hf =>
      obtain ⟨tree, hr, he⟩ := Session.remembers_parsed hf
      have hsince : s₀.walkedSince ((s.enter x).parsed x) = s₀.walkedSince s ++ [x] :=
        Session.walkedSince_enter hw x
      have hkeep : ∀ y tree, s.Remembers y tree → ((s.enter x).parsed x).Remembers y tree := fun y tree hy =>
        have henter : (s.enter x).Remembers y tree := hy.of_same_parts rfl rfl
        henter.parsed ht
      rw [filterMap_follow?_follows]
      refine h.scan ?_ ?_ hkeep ?_ hr he
      · rfl
      · simp [hsince]
      · exact fun y _ hy => hy
  | begun hv ht =>
      have hbegun : Named s₀ ((s.enter x).record (.read x)) taken :=
        (h.begin hw ht).of_same_parts rfl rfl rfl ((s.enter x).walks_record rfl)
      exact hbegun.add_of_none rfl

theorem leafStep {leaf t' : Task} (h : Named s₀ s taken) (hw : s.walks = s₀.walks ++ s₀.walkedSince s)
    (hd : Task.LeafStep w s leaf s' t') (hc : leaf.Checks)
    (hr : ∀ x, leaf.reads? = some x → x ∈ s₀.walkedSince s ∧ s.isTracked x = false) :
    Named s₀ s' (taken + t'.waiting.filterMap Task.follow?) := by
  cases hd with
  | check he => exact h.entered hw he
  | @ask _ f t c _ rest due _ _ _ =>
      have hasked : Named s₀ (s.record (.call f.directory c)) taken :=
        h.of_same_parts rfl rfl rfl (s.walks_record rfl)
      exact hasked.add_of_none rfl
  | unresolved _ _ => exact h.add_done _
  | pass _ _ _ => exact h.add_done _
  | @register _ f y t _ _ hs ho hk hd he =>
      have hregistered : Named s₀ (s.register y) taken := h.of_same_parts rfl rfl rfl rfl
      exact hregistered.entered hw he
  | @link _ f y t _ _ hs ho hk he =>
      have hlinked : Named s₀ (s.link f y) taken := h.of_same_parts rfl rfl rfl rfl
      exact hlinked.entered hw he
  | @unread y registered due fault _ =>
      have hdropped : Named s₀ (s.drop y registered) taken := h.of_same_parts rfl rfl rfl rfl
      exact hdropped.add_done _
  | @store y registered due text found _ hf =>
      obtain ⟨hwalked, hu⟩ := hr y rfl
      obtain ⟨tree, hremembered, he⟩ := Session.remembers_parsed hf
      have hstored : (s.updateFile y text false).1.isTracked y = true := Session.tracked_of_found hf
      rw [filterMap_follow?_follows]
      refine h.scan ?_ ?_ (fun z tree' hz => (hz.updateFile hu text false).parsed hstored) ?_ hremembered he
      · rfl
      · intro z
        simpa [Session.walkedSince] using fun he => he ▸ hwalked
      · intro z hz ht
        simpa [hz] using ht
  | notice => cases hc
  | keep _ => cases hc
  | refresh _ _ => cases hc

end Named

/-! ## Runs of checks -/

theorem Task.eq_of_follow? {leaf : Task} {t : String} (h : leaf.follow? = some t) :
    ∃ f, leaf = .start (.follow f t) := by
  unfold follow? at h
  split at h
  · cases h
    exact ⟨_, rfl⟩
  · cases h

theorem Task.mem_follow? {L : Multiset Task} {t : String} :
    t ∈ L.filterMap Task.follow? ↔ ∃ f, .start (.follow f t) ∈ L := by
  rw [Multiset.mem_filterMap]
  constructor
  · rintro ⟨leaf, hl, ht⟩
    obtain ⟨f, rfl⟩ := eq_of_follow? ht
    exact ⟨f, hl⟩
  · rintro ⟨f, hl⟩
    exact ⟨_, hl, rfl⟩

theorem Task.Asks.named {roots : List Path} {t : Task} (ht : t.Asks roots) (s : Session) :
    Named s s (t.waiting.filterMap Task.follow? + ↑(History.followed [])) := by
  have hwalked : s.walkedSince s = [] := by simp [Session.walkedSince]
  constructor
  case cwd => rfl
  case complete => simp [hwalked]
  case sound =>
      intro u hu
      rw [History.followed, List.filterMap_nil, Multiset.coe_nil, add_zero] at hu
      obtain ⟨f, hl⟩ := Task.mem_follow?.mp hu
      obtain ⟨r, -, he⟩ := ht.waiting _ hl
      cases he

theorem Named.after {s₀ : Session} {roots : List Path} {h : History} {m : Moment}
    (hn : Named s₀ m.session (m.task.waiting.filterMap Task.follow? + ↑h.followed))
    (hw : Watched s₀ roots h (m.session, m.task)) (hp : m.task.waitsAt m.place = true) :
    Named s₀ m.after.1 (m.after.2.waiting.filterMap Task.follow? + ↑(History.followed (h ++ [m]))) := by
  obtain ⟨leaf, s', t', R, E, hl, hmem, hd, hwait, hwait', -, hfalls⟩ :=
    m.leafStep hp fun l hl => .inl (hw.checking l hl)
  have hbare : Named s₀ m.session.bare (m.task.waiting.filterMap Task.follow? + ↑h.followed) :=
    hn.of_same_parts rfl rfl rfl m.session.walks_bare
  have hreads : ∀ x, leaf.reads? = some x →
      x ∈ s₀.walkedSince m.session.bare ∧ m.session.bare.isTracked x = false := by
    intro x hx
    have hawaited := hw.kept.awaited x ((Multiset.mem_filterMap _ _).mpr ⟨leaf, hmem, hx⟩)
    exact ⟨hw.kept.sublist.subset hawaited.1, hawaited.2⟩
  have hdone : Named s₀ m.after.1.bare _ :=
    Named.falls hfalls (hbare.leafStep hw.traced.walks hd (hw.checking leaf hmem) hreads)
  have hafter : Named s₀ m.after.1 _ := hdone.of_same_parts rfl rfl rfl m.after.1.walks_bare.symm
  have hfollowed : History.followed (h ++ [m]) = h.followed ++ leaf.follow?.toList := by
    cases hf : leaf.follow? <;> simp [History.followed, hl, hf]
  have htaken : m.after.2.waiting.filterMap Task.follow? + ↑(History.followed (h ++ [m])) =
      m.task.waiting.filterMap Task.follow? + ↑h.followed + t'.waiting.filterMap Task.follow? := by
    rw [hwait, hwait', hfollowed, Multiset.filterMap_add, Multiset.filterMap_add, filterMap_follow?_singleton,
      ← Multiset.coe_add]
    ac_rfl
  rwa [htaken]

/-- What is named in the files that a run of checks has walked is what has been followed, or is still to be. -/
theorem Runs.named {s : Session} {t : Task} {roots : List Path} {h : History} {c : Session × Task}
    (hr : Runs (s, t) h c) (ht : t.Asks roots) :
    Named s c.1 (c.2.waiting.filterMap Task.follow? + ↑h.followed) := by
  induction hr with
  | rest => exact ht.named s
  | step hr hp ih => exact ih.after (hr.watched ht) hp

end ImportCheck
