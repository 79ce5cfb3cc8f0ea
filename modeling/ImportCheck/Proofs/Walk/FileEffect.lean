import ImportCheck.Proofs.Walk.Confined
import ImportCheck.Proofs.Walk.Parsed

/-!
# What work means for one file

Texts may change while walks of the file are under way. For a file that is spelled in one way only, whatever is
done at a leaf begins a walk of it, or takes its mark, or looks at its text when that has come from the disk, or
leaves its mark and its text alone and perhaps follows one of its specifiers.
-/

namespace ImportCheck

namespace Session

/-- The texts under which the dependencies of the stored text are resolved. -/
def named (s : Session) (f : Path) : List String :=
  ((s.files.text? f).map fun text => (SourceTree.ofText f text).texts s.cwd).getD []

/-- The source files that the stored text names. -/
def sources (s : Session) (w : Surroundings) (f : Path) : List Path :=
  ((s.named f).filterMap fun t => (w.resolve f t).toOption).filter fun x => decide (x.kind = .source)

variable {s s' : Session} {w : Surroundings} {f x : Path}

theorem mem_sources : x ∈ s.sources w f ↔ ∃ t ∈ s.named f, w.resolve f t = .ok x ∧ x.kind = .source := by
  simp only [sources, List.mem_filter, List.mem_filterMap, decide_eq_true_eq]
  constructor
  · rintro ⟨⟨t, ht, hx⟩, hk⟩
    cases hr : w.resolve f t with
    | error e => simp [hr, Except.toOption] at hx
    | ok y => exact ⟨t, ht, by simpa [hr, Except.toOption] using hx, hk⟩
  · rintro ⟨t, ht, hr, hk⟩
    exact ⟨⟨t, ht, by simp [hr, Except.toOption]⟩, hk⟩

theorem named_congr (hc : s'.cwd = s.cwd) (hf : s'.files.get? f = s.files.get? f) : s'.named f = s.named f := by
  simp only [named, FileStore.text?, hc, hf]

theorem sources_congr (h : s'.named f = s.named f) : s'.sources w f = s.sources w f := by
  simp only [sources, h]

theorem named_of_untracked (h : s.isTracked f = false) : s.named f = [] := by
  have hnone : s.files.get? f = none := by simpa [isTracked_eq_isSome] using h
  simp [named, FileStore.text?, hnone]

theorem Coherent.found_eq_named (h : s.Coherent) {found : List Dependency}
    (hf : (s.findImports f).2 = .ok found) : found.map (·.text) = s.named f := by
  rw [findImports_snd] at hf
  cases hr : s.files.get? f with
  | none => simp [hr] at hf
  | some r =>
      obtain rfl : (s.treeOf f r).dependencies s.cwd = found := by simpa [hr] using hf
      refine (h.texts_treeOf fun r' hr' => Option.some.inj (hr'.symm.trans hr)).trans ?_
      simp [named, FileStore.text?, hr]

end Session

namespace Task

variable {w w' : Surroundings} {s s' : Session} {leaf t' : Task} {f x : Path}

/-- The leaf looks for a target for the file, or waits for its text. -/
def Serves (f : Path) (leaf : Task) : Prop := leaf.asker? = some f ∨ leaf.reads? = some f

/-- What a leaf looks for does not depend on the disk. -/
theorem Seeks.around {t : String} {a : Except ResolverFault Path} (h : leaf.Seeks w' f t a)
    (hw : w'.resolver = w.resolver) : leaf.Seeks w f t a := by
  obtain ⟨disk, resolver⟩ := w
  obtain ⟨disk', resolver'⟩ := w'
  obtain rfl : resolver' = resolver := hw
  cases h with
  | follow f t => exact .follow f t
  | resolving f t c rest due => exact .resolving f t c rest due

/-- Nothing in the task looks for a target for the file or waits for its text. -/
structure Idles (w : Surroundings) (f : Path) (t : Task) : Prop where
  seeks : ∀ l ∈ t.waiting, ∀ u a, ¬l.Seeks w f u a
  reads : f ∉ t.waiting.filterMap reads?

theorem idles_done (o : Outcome) : (done o).Idles w f := ⟨by simp [waiting], by simp [waiting]⟩

theorem idles_reading (goal : ReadGoal) (due : Nat) (h : goal = .refresh ∨ x ≠ f) :
    (reading x goal due).Idles w f := by
  constructor
  case seeks =>
      intro l hl u a hs
      obtain rfl := Multiset.mem_singleton.mp hl
      cases hs
  case reads =>
      intro hf
      obtain ⟨l, hl, hx⟩ := (Multiset.mem_filterMap _ _).mp hf
      obtain rfl := Multiset.mem_singleton.mp hl
      rcases h with rfl | h
      · cases hx
      · cases goal with
        | walk registered => exact h (Option.some.inj hx)
        | _ => cases hx

theorem idles_follows (registered : Bool) (specifiers : List String) (h : x ≠ f) :
    (walk x registered (follows x specifiers)).Idles w f := by
  constructor
  case seeks =>
      intro l hl u a hs
      obtain ⟨t, -, rfl⟩ := mem_waiting_follows.mp hl
      exact h (Option.some.inj hs.asker?)
  case reads => rw [waiting, reads?_follows]; exact Multiset.notMem_zero f

/-! ## One step at a leaf -/

theorem Entered.mem_walks {registered : Bool} (he : Entered x registered s s' t') {p : Path}
    (hp : p ∈ s.walks) : p ∈ s'.walks := by
  cases he with
  | trusted _ => exact hp
  | scanned _ _ _ => exact (Session.walks_enter s x) ▸ List.mem_append.mpr (.inl hp)
  | begun _ _ =>
      rw [Session.walks_record _ rfl, Session.walks_enter]
      exact List.mem_append.mpr (.inl hp)

theorem LeafStep.mem_walks (hd : LeafStep w s leaf s' t') {p : Path} (hp : p ∈ s.walks) : p ∈ s'.walks := by
  cases hd with
  | check he => exact he.mem_walks hp
  | ask _ _ _ => rwa [Session.walks_record _ rfl]
  | register _ _ _ _ he => exact he.mem_walks hp
  | link _ _ _ he => exact he.mem_walks hp
  | notice => rwa [Session.walks_record _ rfl]
  | _ => exact hp

theorem Entered.coherent {registered : Bool} (he : Entered x registered s s' t') (hc : s.Coherent) :
    s'.Coherent := by
  have henter : (s.enter x).Coherent := Session.coherent_of_same_parts hc rfl rfl
  cases he with
  | trusted _ => exact hc
  | scanned _ ht _ => exact henter.parsed ht
  | begun _ _ => exact Session.coherent_of_same_parts henter rfl rfl

theorem LeafStep.coherent (hd : LeafStep w s leaf s' t') (hc : s.Coherent) : s'.Coherent := by
  cases hd with
  | check he => exact he.coherent hc
  | register _ _ _ _ he => exact he.coherent (Session.coherent_of_same_parts hc rfl rfl)
  | link _ _ _ he => exact he.coherent (Session.coherent_of_same_parts hc rfl rfl)
  | store _ hf => exact (hc.updateFile _ _ _).parsed (Session.tracked_of_found hf)
  | refresh _ _ => exact Session.coherent_of_same_parts (hc.updateFile _ _ _) rfl rfl
  | _ => exact Session.coherent_of_same_parts hc rfl rfl

theorem Entered.serves {registered : Bool} (he : Entered x registered s s' t') {l : Task}
    (hl : l ∈ t'.waiting) {g : Path} (hg : l.Serves g) : g ∈ s'.walks := by
  cases he with
  | trusted _ => exact absurd hl (Multiset.notMem_zero l)
  | scanned _ _ _ =>
      obtain ⟨t, -, rfl⟩ := mem_waiting_follows.mp hl
      obtain rfl : x = g := by simpa [Serves, asker?, reads?] using hg
      exact (Session.walks_enter s x) ▸ List.mem_append_right _ (List.mem_singleton_self x)
  | begun _ _ =>
      obtain rfl := Multiset.mem_singleton.mp hl
      obtain rfl : x = g := by simpa [Serves, asker?, reads?] using hg
      rw [Session.walks_record _ rfl, Session.walks_enter]
      exact List.mem_append_right _ (List.mem_singleton_self x)

/-- Leaves work for files whose walks have begun. -/
theorem LeafStep.serves (hd : LeafStep w s leaf s' t') (hleaf : ∀ g, leaf.Serves g → g ∈ s.walks) {l : Task}
    (hl : l ∈ t'.waiting) {g : Path} (hg : l.Serves g) : g ∈ s'.walks := by
  cases hd with
  | check he => exact he.serves hl hg
  | @ask _ f t c _ rest due hs _ _ =>
      obtain rfl := Multiset.mem_singleton.mp hl
      obtain rfl : f = g := by simpa [Serves, asker?, reads?] using hg
      rw [Session.walks_record _ rfl]
      exact hleaf f (.inl hs.asker?)
  | register _ _ _ _ he => exact he.serves hl hg
  | link _ _ _ he => exact he.serves hl hg
  | @store x registered due text found _ _ =>
      obtain ⟨t, -, rfl⟩ := mem_waiting_follows.mp hl
      obtain rfl : x = g := by simpa [Serves, asker?, reads?] using hg
      exact hleaf x (.inr rfl)
  | notice =>
      obtain rfl := Multiset.mem_singleton.mp hl
      simp [Serves, asker?, reads?] at hg
  | _ => exact absurd hl (Multiset.notMem_zero l)

theorem LeafStep.kinds (hd : LeafStep w s leaf s' t') (hc : leaf.Checks ∨ leaf.Refreshes) :
    ∀ l ∈ t'.waiting, l.Checks ∨ l.Refreshes := by
  rcases hc with hc | hc
  · exact fun l hl => .inl (hd.checking hc l hl)
  · cases hc with
    | fileChanged x =>
        cases hd with
        | notice => exact fun l hl => .inr (Multiset.mem_singleton.mp hl ▸ .reading x _)
        | ask hs _ _ => cases hs
        | unresolved hs _ => cases hs
        | pass hs _ _ => cases hs
        | register hs _ _ _ _ => cases hs
        | link hs _ _ _ => cases hs
    | reading x due =>
        cases hd with
        | keep _ => simp [waiting]
        | refresh _ _ => simp [waiting]
        | ask hs _ _ => cases hs
        | unresolved hs _ => cases hs
        | pass hs _ _ => cases hs
        | register hs _ _ _ _ => cases hs
        | link hs _ _ _ => cases hs

/-- The file keeps its mark and its text, and no walk of it begins. -/
structure Steady (f : Path) (s s' : Session) : Prop where
  valid : s'.isValid f = s.isValid f
  tracked : s'.isTracked f = s.isTracked f
  named : s'.named f = s.named f
  walks : ∃ l, s'.walks = s.walks ++ l ∧ f ∉ l

theorem steady_of_same (hw : s'.walks = s.walks) (hf : s'.files = s.files) (hc : s'.cwd = s.cwd)
    (hv : s'.isValid f = s.isValid f) : Steady f s s' where
  valid := hv
  tracked := by simp only [Session.isTracked, hf]
  named := Session.named_congr hc (by rw [hf])
  walks := ⟨[], by simp [hw], by simp⟩

/-- A walk of the file begins: it has no links, and waits for its text, or for what it names. -/
structure Begins (f : Path) (s s' : Session) (t' : Task) : Prop where
  invalid : s.isValid f = false
  valid : s'.isValid f = true
  walks : s'.walks = s.walks ++ [f]
  links : ∀ q, s'.graph.hasDependency f q = false
  leaves : (s'.isTracked f = false ∧ ∃ registered due, t' = reading f (.walk registered) due) ∨
    s'.isTracked f = true ∧ ∃ registered, t' = walk f registered (follows f (s'.named f))

/-- What work at a leaf means for a file. -/
inductive FileEffect (w : Surroundings) (f : Path) (s : Session) (leaf : Task) (s' : Session) (t' : Task) : Prop
  | begins (h : Begins f s s' t') (hr : leaf.reads? = none)
  | loses (hv : s'.isValid f = false) (hw : ∃ l, s'.walks = s.walks ++ l ∧ f ∉ l)
  | scans (hr : leaf.reads? = some f) (hv : s'.isValid f = s.isValid f) (hw : s'.walks = s.walks)
      (hl : ∀ q, s'.graph.hasDependency f q = s.graph.hasDependency f q) (ht : s'.isTracked f = true)
      (hs : ∃ registered, t' = walk f registered (follows f (s'.named f)))
  | keeps (h : Steady f s s') (hr : leaf.reads? ≠ some f) (hr' : f ∉ t'.waiting.filterMap reads?)
      (hl : ∀ q, s.graph.hasDependency f q = true → s'.graph.hasDependency f q = true)
      (hl' : ∀ q, s'.graph.hasDependency f q = true → s.graph.hasDependency f q = true ∨
        ∃ t x, leaf.Seeks w f t (.ok x) ∧ x.kind = .source ∧ x.Same q)
      (hs : ∀ l ∈ t'.waiting, ∀ t a, l.Seeks w f t a → leaf.Seeks w f t a)
      (hf : ∀ t x, leaf.Seeks w f t (.ok x) → x.kind = .source →
        s'.graph.hasDependency f x = true ∨ ∃ l ∈ t'.waiting, l.Seeks w f t (.ok x))

/-- A check of a file begins a walk of it, or of another one, or none. -/
theorem Entered.fileEffect {registered : Bool} (he : Entered x registered s s' t') (hc : s.Coherent)
    (hs : ∀ p ∈ s'.walks, p.Same f → p = f) :
    Begins f s s' t' ∨ Steady f s s' ∧ (∀ q, s'.graph.hasDependency f q = s.graph.hasDependency f q) ∧
      t'.Idles w f := by
  -- the file is another place than one that is walked under another spelling
  have hother : x ∈ s'.walks → x ≠ f → ¬x.Same f := fun hx hne hsame => hne (hs x hx hsame)
  have hsteady : ¬x.Same f → Steady f s (s.enter x) := fun hn =>
    ⟨by simp [hn], rfl, Session.named_congr rfl rfl,
      ⟨[x], Session.walks_enter s x, fun hx => hn (List.mem_singleton.mp hx ▸ Path.Same.refl f)⟩⟩
  cases he with
  | trusted _ => exact .inr ⟨steady_of_same rfl rfl rfl rfl, fun _ => rfl, idles_done _⟩
  | @scanned found hv ht hf =>
      have hwalks : ((s.enter x).parsed x).walks = s.walks ++ [x] := Session.walks_enter s x
      by_cases hx : x = f
      · subst hx
        have hcoherent : (s.enter x).Coherent := Session.coherent_of_same_parts hc rfl rfl
        have hnamed : found.map (·.text) = ((s.enter x).parsed x).named x := hcoherent.found_eq_named hf
        exact .inl ⟨hv, by simp [Path.Same.refl], hwalks, by simp [Path.Same.refl],
          .inr ⟨ht, registered, by rw [hnamed]⟩⟩
      · have hn := hother (by rw [hwalks]; simp) hx
        have hsame := hsteady hn
        exact .inr ⟨⟨hsame.valid, hsame.tracked, hsame.named, hsame.walks⟩, fun q => by simp [hn],
          idles_follows _ _ hx⟩
  | @begun due hv ht =>
      have hwalks : ((s.enter x).record (.read x)).walks = s.walks ++ [x] := by
        rw [Session.walks_record _ rfl, Session.walks_enter]
      by_cases hx : x = f
      · subst hx
        exact .inl ⟨hv, (Session.isValid_enter s x x).trans (by simp [Path.Same.refl]), hwalks,
          fun q => (Session.hasDependency_enter s x x q).trans (by simp [Path.Same.refl]),
          .inl ⟨ht, registered, due, rfl⟩⟩
      · have hn := hother (by rw [hwalks]; simp) hx
        have hsame := hsteady hn
        exact .inr ⟨⟨hsame.valid, hsame.tracked, hsame.named,
            ⟨[x], hwalks, fun hf => hx (List.mem_singleton.mp hf).symm⟩⟩,
          fun q => (Session.hasDependency_enter s x f q).trans (by simp [hn]), idles_reading _ _ (.inr hx)⟩

theorem FileEffect.of_entered {s₁ : Session} {registered : Bool} (he : Entered x registered s₁ s' t')
    (hc : s₁.Coherent) (hs : ∀ p ∈ s'.walks, p.Same f → p = f) (hr : leaf.reads? = none)
    (h : Steady f s s₁) (hw : s₁.walks = s.walks)
    (hl : ∀ q, s.graph.hasDependency f q = true → s₁.graph.hasDependency f q = true)
    (hl' : ∀ q, s₁.graph.hasDependency f q = true → s.graph.hasDependency f q = true ∨
      ∃ t y, leaf.Seeks w f t (.ok y) ∧ y.kind = .source ∧ y.Same q)
    (hf : ∀ t y, leaf.Seeks w f t (.ok y) → y.kind = .source → s₁.graph.hasDependency f y = true) :
    FileEffect w f s leaf s' t' := by
  rcases he.fileEffect (w := w) hc hs with hb | ⟨hsteady, hlinks, hidle⟩
  · exact .begins ⟨h.valid ▸ hb.invalid, hb.valid, hw ▸ hb.walks, hb.links, hb.leaves⟩ hr
  · obtain ⟨l, hwalks, hn⟩ := hsteady.walks
    refine .keeps ⟨hsteady.valid.trans h.valid, hsteady.tracked.trans h.tracked, hsteady.named.trans h.named,
      ⟨l, hw ▸ hwalks, hn⟩⟩ (by simp [hr]) hidle.reads ?_ ?_ ?_ ?_
    · exact fun q hq => (hlinks q).trans (hl q hq)
    · exact fun q hq => hl' q ((hlinks q).symm.trans hq)
    · exact fun l hl t a hs => absurd hs (hidle.seeks l hl t a)
    · exact fun t y hs hk => .inl ((hlinks y).trans (hf t y hs hk))

theorem FileEffect.of_same (h : Steady f s s') (hr : leaf.reads? ≠ some f) (ht : t'.Idles w f)
    (hl : ∀ q, s'.graph.hasDependency f q = s.graph.hasDependency f q)
    (hf : ∀ t x, leaf.Seeks w f t (.ok x) → x.kind ≠ .source) : FileEffect w f s leaf s' t' :=
  .keeps h hr ht.reads (fun q hq => (hl q).trans hq) (fun q hq => .inl ((hl q).symm.trans hq))
    (fun l hl t a hs => absurd hs (ht.seeks l hl t a)) fun t x hs hk => absurd hk (hf t x hs)

theorem LeafStep.fileEffect (hd : LeafStep w' s leaf s' t') (hw : w'.resolver = w.resolver) (hc : s.Coherent)
    (hleaf : ∀ g, leaf.Serves g → g ∈ s.walks) (hs : ∀ p ∈ s'.walks, p.Same f → p = f) :
    FileEffect w f s leaf s' t' := by
  -- a leaf that looks for one target looks for no other
  have hseeks : ∀ {g t a}, leaf.Seeks w' g t a → ∀ t' x, leaf.Seeks w f t' (.ok x) → a = .ok x :=
    fun hs _ _ hs' => ((hs.around hw).eq hs').2.2
  cases hd with
  | check he =>
      exact .of_entered he hc hs rfl (steady_of_same rfl rfl rfl rfl) rfl (fun _ => id) (fun _ => .inl)
        (fun t y hs => by cases hs)
  | @ask _ g t c a rest due hseek hn _ =>
      have hnone : (resolving g t c rest .follow due).waiting.filterMap reads? = 0 := rfl
      refine .keeps (steady_of_same (Session.walks_record _ rfl) rfl rfl rfl) (by simp [hseek.reads?])
        (by simp [hnone]) (fun _ => id) (fun _ => .inl) ?_ ?_
      · intro l hl u b hs
        obtain rfl := Multiset.mem_singleton.mp hl
        obtain ⟨rfl, rfl, rfl⟩ := (hn.around hw).eq hs
        exact hseek.around hw
      · intro u x hs _
        obtain ⟨rfl, rfl, rfl⟩ := (hseek.around hw).eq hs
        exact .inr ⟨_, Multiset.mem_singleton_self _, hn.around hw⟩
  | unresolved hseek _ =>
      refine .of_same (steady_of_same rfl rfl rfl rfl) (by simp [hseek.reads?]) (idles_done _) (fun _ => rfl) ?_
      exact fun u x hs => by cases hseeks hseek u x hs
  | pass hseek _ hk =>
      refine .of_same (steady_of_same rfl rfl rfl rfl) (by simp [hseek.reads?]) (idles_done _) (fun _ => rfl) ?_
      intro u x hs
      cases hseeks hseek u x hs
      rcases hk with hk | ⟨hk, -⟩ <;> simp [hk]
  | @register _ g y t _ _ hseek _ hk hdecl he =>
      have hcoherent : (s.register y).Coherent := Session.coherent_of_same_parts hc rfl rfl
      refine .of_entered he hcoherent hs hseek.reads? (steady_of_same rfl rfl rfl rfl) rfl (fun _ => id)
        (fun _ => .inl) ?_
      intro u x hs hsource
      cases hseeks hseek u x hs
      rw [hk] at hsource
      cases hsource
  | @link _ g y t _ _ hseek _ hk he =>
      have hcoherent : (s.link g y).Coherent := Session.coherent_of_same_parts hc rfl rfl
      have hg : g ∈ s'.walks := he.mem_walks (hleaf g (.inl hseek.asker?))
      refine .of_entered he hcoherent hs hseek.reads? (steady_of_same rfl rfl rfl rfl) rfl ?_ ?_ ?_
      · intro q hq
        simp [hq]
      · intro q hq
        rw [Session.hasDependency_link, Bool.or_eq_true, decide_eq_true_eq] at hq
        refine hq.imp id fun ⟨hsame, hy⟩ => ⟨t, y, ?_, hk, hy⟩
        rw [← hs g hg hsame]
        exact hseek.around hw
      · intro u x hs' _
        obtain ⟨rfl, rfl, heq⟩ := (hseek.around hw).eq hs'
        obtain rfl : y = x := Except.ok.inj heq
        simp [Path.Same.refl]
  | @unread y registered due fault _ =>
      by_cases hsame : y.Same f
      · exact .loses (by simp [hsame]) ⟨[], by simp, by simp⟩
      · have hne : y ≠ f := fun h => hsame (h ▸ Path.Same.refl f)
        refine .of_same (steady_of_same rfl rfl rfl (by simp [hsame])) (by simpa [reads?] using hne)
          (idles_done _) (fun q => by simp) fun t x hs => by cases hs
  | @store y registered due text found _ hf =>
      have hwalked : y ∈ s.walks := hleaf y (.inr rfl)
      by_cases hy : y = f
      · subst hy
        have hnamed := (hc.updateFile y text false).found_eq_named hf
        exact .scans rfl rfl rfl (fun _ => rfl) (by simp [Path.Same.refl])
          ⟨registered, by rw [hnamed]; rfl⟩
      · have hsame : ¬y.Same f := fun h => hy (hs y hwalked h)
        have hget : (s.updateFile y text false).1.files.get? f = s.files.get? f := by
          simp [Session.updateFile, FileStore.get?_update, hsame]
        refine .of_same ⟨rfl, by simp [hsame], Session.named_congr rfl hget, ⟨[], by simp, by simp⟩⟩
          (by simpa [reads?] using hy) (idles_follows _ _ hy) (fun _ => rfl) fun t x hs => by cases hs
  | @notice y due =>
      exact .of_same (steady_of_same (Session.walks_record _ rfl) rfl rfl rfl) (by simp [reads?])
        (idles_reading _ _ (.inl rfl)) (fun _ => rfl) fun t x hs => by cases hs
  | keep _ =>
      exact .of_same (steady_of_same rfl rfl rfl rfl) (by simp [reads?]) (idles_done _) (fun _ => rfl)
        fun t x hs => by cases hs
  | refresh _ _ => exact .loses rfl ⟨[], by simp [Session.walks, Session.invalidateAll, Session.resetProgram,
      Session.updateFile], by simp⟩

/-! ## What the outside sees of it -/

/-- Nothing is different for the file. -/
structure Unmoved (f : Path) (s s' : Session) : Prop where
  valid : s'.isValid f = s.isValid f
  tracked : s'.isTracked f = s.isTracked f
  named : s'.named f = s.named f
  walks : s'.walks = s.walks
  links : ∀ q, s'.graph.hasDependency f q = s.graph.hasDependency f q

theorem unmoved_of_alike (h : s.Alike s') : Unmoved f s s' where
  valid := by simp only [Session.isValid, h.valid]
  tracked := by simp only [Session.isTracked, h.files]
  named := Session.named_congr h.cwd (by rw [h.files])
  walks := h.walks
  links q := by rw [h.graph]

theorem Begins.congr {r r' : Session} (h : Begins f s s' t') (hs : Unmoved f s r) (hs' : Unmoved f s' r') :
    Begins f r r' t' where
  invalid := hs.valid.trans h.invalid
  valid := hs'.valid.trans h.valid
  walks := by rw [hs'.walks, hs.walks, h.walks]
  links q := (hs'.links q).trans (h.links q)
  leaves := by
    rw [hs'.tracked, hs'.named]
    exact h.leaves

theorem FileEffect.congr {r r' : Session} (h : FileEffect w f s leaf s' t') (hs : Unmoved f s r)
    (hs' : Unmoved f s' r') : FileEffect w f r leaf r' t' := by
  cases h with
  | begins h hr => exact .begins (h.congr hs hs') hr
  | loses hv hw =>
      refine .loses (hs'.valid.trans hv) ?_
      rw [hs'.walks, hs.walks]
      exact hw
  | scans hr hv hw hl ht hscan =>
      refine .scans hr (by rw [hs'.valid, hs.valid, hv]) (by rw [hs'.walks, hs.walks, hw])
        (fun q => by rw [hs'.links, hs.links, hl]) (hs'.tracked.trans ht) ?_
      rw [hs'.named]
      exact hscan
  | keeps h hr hr' hl hl' hseeks hf =>
      have hsteady : Steady f r r' :=
        ⟨by rw [hs'.valid, hs.valid, h.valid], by rw [hs'.tracked, hs.tracked, h.tracked],
          by rw [hs'.named, hs.named, h.named], by rw [hs'.walks, hs.walks]; exact h.walks⟩
      refine .keeps hsteady hr hr' ?_ ?_ hseeks ?_
      · simpa only [hs.links, hs'.links] using hl
      · simpa only [hs.links, hs'.links] using hl'
      · simpa only [hs'.links] using hf

theorem FileEffect.walks (h : FileEffect w f s leaf s' t') : ∃ l, s'.walks = s.walks ++ l := by
  cases h with
  | begins h _ => exact ⟨_, h.walks⟩
  | loses _ h => exact h.imp fun _ h => h.1
  | scans _ _ hw _ _ _ => exact ⟨[], by simp [hw]⟩
  | keeps h _ _ _ _ _ _ => exact h.walks.imp fun _ h => h.1

/-- A file that stays valid was valid before, unless a walk of it begins. -/
theorem FileEffect.stays (h : FileEffect w f s leaf s' t') (hv : s'.isValid f = true) (hn : ¬Begins f s s' t') :
    s.isValid f = true ∧ ∃ l, s'.walks = s.walks ++ l ∧ f ∉ l := by
  cases h with
  | begins h _ => exact absurd h hn
  | loses hv' _ => simp [hv] at hv'
  | scans _ hv' hw _ _ _ => exact ⟨hv'.symm.trans hv, [], by simp [hw], by simp⟩
  | keeps h _ _ _ _ _ _ => exact ⟨h.valid.symm.trans hv, h.walks⟩

/-- Walks that end take marks and registrations back, and leave the rest alone. -/
theorem Falls.unmoved {c c' : Session × Multiset Path} {E : List (Path × Outcome)} (h : Falls c E c')
    (hv : c'.1.isValid f = true) : Unmoved f c.1 c'.1 := by
  induction h with
  | rest => exact ⟨rfl, rfl, rfl, rfl, fun _ => rfl⟩
  | pass _ ih => exact ih hv
  | @fail _ s _ x registered _ _ ih =>
      have hsame : s.isValid f = true ∧ (s.drop x registered).isValid f = s.isValid f := by
        have hdrop := Session.isValid_drop s x f registered
        cases hd : decide (x.Same f) <;> simp_all
      have h := ih hsame.1
      exact ⟨hsame.2.trans h.valid, h.tracked, h.named, h.walks, fun q => by simp [h.links]⟩

theorem Falls.coherent {c c' : Session × Multiset Path} {E : List (Path × Outcome)} (h : Falls c E c')
    (hc : c.1.Coherent) : c'.1.Coherent := by
  induction h with
  | rest => exact hc
  | pass _ ih => exact ih
  | fail _ ih => exact Session.coherent_of_same_parts ih rfl rfl

end Task

/-! ## One moment -/

/-- The leaves belong to checks and notices, and those that serve a file serve one that has been walked. -/
structure Served (s : Session) (L : Multiset Task) : Prop where
  coherent : s.Coherent
  kinds : ∀ l ∈ L, l.Checks ∨ l.Refreshes
  walked : ∀ l ∈ L, ∀ g, l.Serves g → g ∈ s.walks

namespace Served

variable {w : Surroundings} {s s' : Session} {leaf t' : Task} {L R : Multiset Task}

theorem bare (h : Served s L) : Served s.bare L :=
  ⟨h.coherent, h.kinds, s.walks_bare.symm ▸ h.walked⟩

theorem of_bare (h : Served s.bare L) : Served s L :=
  ⟨h.coherent, h.kinds, s.walks_bare ▸ h.walked⟩

theorem leafStep (h : Served s (R + {leaf})) (hd : Task.LeafStep w s leaf s' t') : Served s' (R + t'.waiting) := by
  have hleaf : leaf ∈ R + {leaf} := by simp
  constructor
  case coherent => exact hd.coherent h.coherent
  case kinds =>
      intro l hl
      rcases Multiset.mem_add.mp hl with hl | hl
      · exact h.kinds l (by simp [hl])
      · exact hd.kinds (h.kinds leaf hleaf) l hl
  case walked =>
      intro l hl g hg
      rcases Multiset.mem_add.mp hl with hl | hl
      · exact hd.mem_walks (h.walked l (by simp [hl]) g hg)
      · exact hd.serves (h.walked leaf hleaf) hl hg

theorem falls {c c' : Session × Multiset Path} {E : List (Path × Outcome)} (hf : Task.Falls c E c')
    (h : Served c.1 L) : Served c'.1 L :=
  ⟨hf.coherent h.coherent, h.kinds, hf.walks.symm ▸ h.walked⟩

end Served

namespace Moment

variable {w : Surroundings} {f : Path} (m : Moment) (hp : m.task.waitsAt m.place = true)
  (h : Served m.session m.task.waiting)

include hp h

theorem served : Served m.after.1 m.after.2.waiting := by
  obtain ⟨leaf, s', t', R, E, -, -, hd, hwait, hwait', -, hfalls⟩ := m.leafStep hp h.kinds
  rw [hwait] at h
  rw [hwait']
  exact .of_bare (.falls hfalls (h.bare.leafStep hd))

/-- What a moment means for a file that is valid after it. -/
theorem fileEffect (hw : m.around.resolver = w.resolver) (hs : ∀ p ∈ m.after.1.walks, p.Same f → p = f)
    (hv : m.after.1.isValid f = true) : ∃ leaf t' R, m.leaf? = some leaf ∧ m.task.waiting = R + {leaf} ∧
      m.after.2.waiting = R + t'.waiting ∧ Task.FileEffect w f m.session leaf m.after.1 t' := by
  obtain ⟨leaf, s', t', R, E, hl, hmem, hd, hwait, hwait', -, hfalls⟩ := m.leafStep hp h.kinds
  have hwalks : m.after.1.walks = s'.walks := m.after.1.walks_bare.symm.trans hfalls.walks
  have hb := hd.fileEffect hw h.bare.coherent (h.bare.walked leaf hmem) fun p hp => hs p (hwalks ▸ hp)
  refine ⟨leaf, t', R, hl, hwait, hwait', hb.congr ?_ ?_⟩
  · exact Task.unmoved_of_alike ⟨rfl, rfl, rfl, rfl, rfl, m.session.walks_bare.symm⟩
  · have hend := hfalls.unmoved (f := f) hv
    exact ⟨hend.valid, hend.tracked, hend.named, hwalks, hend.links⟩

end Moment

end ImportCheck
