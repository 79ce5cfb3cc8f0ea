import ImportCheck.Proofs.Walk.Outcomes

/-!
# What checks leave alone

Whatever the disk and the resolver do meanwhile, checks walk only roots and targets that were found, link only
files that they walk, and store a text only where there was none.
-/

namespace ImportCheck

/-- The places at which the disk was asked for a text since an earlier moment. -/
def Session.readsSince (s₀ s : Session) : List Path := s.reads.drop s₀.reads.length

namespace Session

variable (s : Session) (x f : Path)

@[simp] theorem reads_record_read : (s.record (.read x)).reads = s.reads ++ [x] := by
  simp [reads, record, Occurrence.read?]

@[simp] theorem reads_record_call (d : Path) (c : String) : (s.record (.call d c)).reads = s.reads := by
  simp [reads, record, Occurrence.read?]

@[simp] theorem reads_enter : (s.enter x).reads = s.reads := by
  simp [enter, reads, record, Occurrence.read?]

@[simp] theorem reads_parsed : (s.parsed x).reads = s.reads := rfl

end Session

/-- The file for which the leaf looks for a target. -/
def Task.asker? : Task → Option Path
  | .start (.follow f _) => some f
  | .resolving f .. => some f
  | _ => none

theorem Task.Seeks.asker? {w : Surroundings} {leaf : Task} {f : Path} {t : String}
    {a : Except ResolverFault Path} (h : leaf.Seeks w f t a) : leaf.asker? = some f := by
  cases h <;> rfl

/-! ## Walks, marks and links -/

/-- What has happened since an earlier moment has a reason in the roots or in the targets that were found. -/
structure Rooted (s₀ : Session) (roots found : List Path) (s : Session) (L : Multiset Task) : Prop where
  walks : s.walks = s₀.walks ++ s₀.walkedSince s
  aimed : ∀ x ∈ s₀.walkedSince s, x ∈ roots ∨ x ∈ found ∧ x.kind ≠ .compiled
  asked : ∀ x, .start (.check x) ∈ L → x ∈ roots
  askers : ∀ leaf ∈ L, ∀ f, leaf.asker? = some f → f ∈ s₀.walkedSince s
  valid_new : ∀ p, s.isValid p = true → s₀.isValid p = true ∨ ∃ x ∈ s₀.walkedSince s, x.Same p
  declared_new : ∀ p, s.graph.hasDeclaration p = true → s₀.graph.hasDeclaration p = true ∨
    ∃ x ∈ found, x.kind = .declaration ∧ x.Same p
  links_new : ∀ p q, s.graph.hasDependency p q = true → s₀.graph.hasDependency p q = true ∨
    ∃ x ∈ found, x.kind = .source ∧ x.Same q
  links_old : ∀ p, (∀ f ∈ s₀.walkedSince s, ¬f.Same p) → s.graph.targets p = s₀.graph.targets p
  program : s.program = s₀.program
  warmed : s.warmed = s₀.warmed

namespace Rooted

variable {w : Surroundings} {s₀ s s' : Session} {roots found found' : List Path} {K L : Multiset Task}
  {x f : Path}

theorem mono (h : Rooted s₀ roots found s L) (hf : ∀ y ∈ found, y ∈ found') :
    Rooted s₀ roots found' s L where
  walks := h.walks
  aimed y hy := (h.aimed y hy).imp id fun ⟨hy, hk⟩ => ⟨hf y hy, hk⟩
  asked := h.asked
  askers := h.askers
  valid_new := h.valid_new
  declared_new p hp := (h.declared_new p hp).imp id fun ⟨y, hy, hk⟩ => ⟨y, hf y hy, hk⟩
  links_new p q hp := (h.links_new p q hp).imp id fun ⟨y, hy, hk⟩ => ⟨y, hf y hy, hk⟩
  links_old := h.links_old
  program := h.program
  warmed := h.warmed

theorem of_session (h : Rooted s₀ roots found s K) (hw : s'.walks = s.walks)
    (hv : ∀ p, s'.isValid p = true → s.isValid p = true)
    (hd : ∀ p, s'.graph.hasDeclaration p = true → s.graph.hasDeclaration p = true)
    (hg : s'.graph.targets = s.graph.targets) (hp : s'.program = s.program) (hwarm : s'.warmed = s.warmed) :
    Rooted s₀ roots found s' K := by
  have hsince : s₀.walkedSince s' = s₀.walkedSince s := by simp only [Session.walkedSince, hw]
  constructor
  case walks => rw [hsince, hw]; exact h.walks
  case aimed => rw [hsince]; exact h.aimed
  case asked => exact h.asked
  case askers => rw [hsince]; exact h.askers
  case valid_new => rw [hsince]; exact fun p hp => h.valid_new p (hv p hp)
  case declared_new => exact fun p hp => h.declared_new p (hd p hp)
  case links_new =>
      intro p q hpq
      rw [DependencyGraph.hasDependency, hg] at hpq
      exact h.links_new p q hpq
  case links_old => rw [hsince, hg]; exact h.links_old
  case program => exact hp.trans h.program
  case warmed => exact hwarm.trans h.warmed

theorem of_leaves (h : Rooted s₀ roots found s K)
    (hl : ∀ leaf ∈ L, leaf ∈ K ∨ (∀ y, leaf ≠ .start (.check y)) ∧
      ∀ f, leaf.asker? = some f → f ∈ s₀.walkedSince s) : Rooted s₀ roots found s L where
  walks := h.walks
  aimed := h.aimed
  asked y hy := by
    rcases hl _ hy with hy | ⟨hc, -⟩
    · exact h.asked y hy
    · exact absurd rfl (hc y)
  askers leaf hleaf f hf := by
    rcases hl leaf hleaf with hleaf | ⟨-, ha⟩
    · exact h.askers leaf hleaf f hf
    · exact ha f hf
  valid_new := h.valid_new
  declared_new := h.declared_new
  links_new := h.links_new
  links_old := h.links_old
  program := h.program
  warmed := h.warmed

theorem add (h : Rooted s₀ roots found s K) (leaf : Task) (hc : ∀ y, leaf ≠ .start (.check y))
    (ha : ∀ f, leaf.asker? = some f → f ∈ s₀.walkedSince s) : Rooted s₀ roots found s (K + {leaf}) := by
  refine h.of_leaves fun l hl => ?_
  rcases Multiset.mem_add.mp hl with hl | hl
  · exact .inl hl
  · exact .inr (Multiset.mem_singleton.mp hl ▸ ⟨hc, ha⟩)

theorem follow (h : Rooted s₀ roots found s K) (hx : x ∈ s₀.walkedSince s) {registered : Bool}
    {specifiers : List String} :
    Rooted s₀ roots found s (K + (Task.walk x registered (Task.follows x specifiers)).waiting) := by
  refine h.of_leaves fun l hl => ?_
  rcases Multiset.mem_add.mp hl with hl | hl
  · exact .inl hl
  · obtain ⟨t, -, rfl⟩ := Task.mem_waiting_follows.mp hl
    exact .inr ⟨by simp, by rintro f ⟨⟩; exact hx⟩

theorem enter (h : Rooted s₀ roots found s K) (hx : x ∈ roots ∨ x ∈ found ∧ x.kind ≠ .compiled) :
    Rooted s₀ roots found (s.enter x) K := by
  have hsince := Session.walkedSince_enter h.walks x
  constructor
  case walks => rw [hsince, Session.walks_enter, h.walks]; simp
  case aimed =>
      rw [hsince]
      intro y hy
      rcases List.mem_append.mp hy with hy | hy
      · exact h.aimed y hy
      · exact List.mem_singleton.mp hy ▸ hx
  case asked => exact h.asked
  case askers =>
      rw [hsince]
      exact fun leaf hl f hf => List.mem_append.mpr (.inl (h.askers leaf hl f hf))
  case valid_new =>
      rw [hsince]
      intro p hp
      rw [Session.isValid_enter, Bool.or_eq_true, decide_eq_true_eq] at hp
      rcases hp with hp | hp
      · exact .inr ⟨x, by simp, hp⟩
      · rcases h.valid_new p hp with hp | ⟨y, hy, hs⟩
        · exact .inl hp
        · exact .inr ⟨y, List.mem_append.mpr (.inl hy), hs⟩
  case declared_new =>
      intro p hp
      rw [Session.hasDeclaration_enter] at hp
      exact h.declared_new p hp
  case links_new =>
      intro p q hpq
      rw [Session.hasDependency_enter, Bool.and_eq_true] at hpq
      exact h.links_new p q hpq.2
  case links_old =>
      rw [hsince]
      intro p hp
      have hne : ¬x.Same p := hp x (by simp)
      exact (DependencyGraph.targets_clearDependencies_of_not_same s.graph hne).trans
        (h.links_old p fun y hy => hp y (List.mem_append.mpr (.inl hy)))
  case program => exact h.program
  case warmed => exact h.warmed

theorem register (h : Rooted s₀ roots found s K) (hx : x ∈ found) (hk : x.kind = .declaration) :
    Rooted s₀ roots found (s.register x) K where
  walks := h.walks
  aimed := h.aimed
  asked := h.asked
  askers := h.askers
  valid_new := h.valid_new
  declared_new p hp := by
    rw [Session.hasDeclaration_register, Bool.or_eq_true, decide_eq_true_eq] at hp
    rcases hp with hp | hp
    · exact .inr ⟨x, hx, hk, hp⟩
    · exact h.declared_new p hp
  links_new := h.links_new
  links_old := h.links_old
  program := h.program
  warmed := h.warmed

theorem link (h : Rooted s₀ roots found s K) (hf : f ∈ s₀.walkedSince s) (hx : x ∈ found)
    (hk : x.kind = .source) : Rooted s₀ roots found (s.link f x) K where
  walks := h.walks
  aimed := h.aimed
  asked := h.asked
  askers := h.askers
  valid_new := h.valid_new
  declared_new p hp := by
    rw [Session.hasDeclaration_link] at hp
    exact h.declared_new p hp
  links_new p q hpq := by
    rw [Session.hasDependency_link, Bool.or_eq_true, decide_eq_true_eq] at hpq
    rcases hpq with hpq | hpq
    · exact h.links_new p q hpq
    · exact .inr ⟨x, hx, hk, hpq.2⟩
  links_old p hp :=
    (DependencyGraph.targets_addDependency_of_not_same s.graph x (hp f hf)).trans (h.links_old p hp)
  program := h.program
  warmed := h.warmed

theorem drop (h : Rooted s₀ roots found s K) (registered : Bool) :
    Rooted s₀ roots found (s.drop x registered) K := by
  refine h.of_session rfl (fun p hp => ?_) (fun p hp => ?_) ?_ rfl rfl
  · rw [Session.isValid_drop, Bool.and_eq_true] at hp
    exact hp.2
  · rw [Session.hasDeclaration_drop, Bool.and_eq_true] at hp
    exact hp.2
  · cases registered <;> rfl

theorem falls {c c' : Session × Multiset Path} {E : List (Path × Outcome)} (hf : Task.Falls c E c')
    (h : Rooted s₀ roots found c.1 K) : Rooted s₀ roots found c'.1 K := by
  induction hf with
  | rest => exact h
  | pass _ ih => exact ih
  | fail _ ih => exact ih.drop _

theorem entered {registered : Bool} {t' : Task} (h : Rooted s₀ roots found s K)
    (hx : x ∈ roots ∨ x ∈ found ∧ x.kind ≠ .compiled) (he : Task.Entered x registered s s' t') :
    Rooted s₀ roots found s' (K + t'.waiting) := by
  have henter := h.enter hx
  have hwalked : x ∈ s₀.walkedSince (s.enter x) := by
    rw [Session.walkedSince_enter h.walks]
    simp
  cases he with
  | trusted _ => simpa [Task.waiting] using h
  | scanned _ _ _ =>
      exact (henter.follow hwalked).of_session rfl (fun _ => id) (fun _ => id) rfl rfl rfl
  | @begun due _ _ =>
      exact (henter.add (.reading x (.walk registered) due) (by simp)
        (by simp [Task.asker?])).of_session (Session.walks_record _ rfl) (fun _ => id) (fun _ => id) rfl rfl rfl

theorem leafStep {leaf t' : Task} (h : Rooted s₀ roots found s (K + {leaf})) (hd : Task.LeafStep w s leaf s' t')
    (hc : leaf.Checks) (hopen : ∀ x, leaf.reads? = some x → x ∈ s₀.walkedSince s)
    (hfound : ∀ x, leaf.found? w = some x → x ∈ found) :
    Rooted s₀ roots found s' (K + t'.waiting) := by
  have hrest : Rooted s₀ roots found s K := h.of_leaves fun l hl => .inl (by simp [hl])
  have hasker : ∀ {f t a}, leaf.Seeks w f t a → f ∈ s₀.walkedSince s := fun hs =>
    h.askers leaf (by simp) _ hs.asker?
  cases hd with
  | @check x _ _ he => exact hrest.entered (.inl (h.asked x (by simp))) he
  | ask hs _ _ =>
      refine (hrest.add _ (by simp) fun g hg => ?_).of_session (Session.walks_record _ rfl) (fun _ => id)
        (fun _ => id) rfl rfl rfl
      cases hg
      exact hasker hs
  | unresolved _ _ => simpa [Task.waiting] using hrest
  | pass _ _ _ => simpa [Task.waiting] using hrest
  | @register _ _ x _ _ _ hs ho hk _ he =>
      have hx := hfound x (hs.found? ho)
      exact (hrest.register hx hk).entered (.inr ⟨hx, by simp [hk]⟩) he
  | @link _ f x _ _ _ hs ho hk he =>
      have hx := hfound x (hs.found? ho)
      exact (hrest.link (hasker hs) hx hk).entered (.inr ⟨hx, by simp [hk]⟩) he
  | unread _ => simpa [Task.waiting] using hrest.drop _
  | @store x _ _ _ _ _ _ =>
      exact (hrest.follow (hopen x rfl)).of_session rfl (fun _ => id) (fun _ => id) rfl rfl rfl
  | notice => cases hc
  | keep _ => cases hc
  | refresh _ _ => cases hc

end Rooted

/-! ## Texts -/

/-- What the disk was asked for since an earlier moment, and what was made of the texts that it gave. The files
whose texts are awaited are those in `O`. -/
structure Kept (s₀ : Session) (l : List (Path × String)) (s : Session) (O : Multiset Path) : Prop where
  reads : s.reads = s₀.reads ++ s₀.readsSince s
  sublist : (s₀.readsSince s).Sublist (s₀.walkedSince s)
  fresh : ∀ x ∈ s₀.readsSince s, s₀.isTracked x = false
  awaited : ∀ x ∈ O, x ∈ s₀.readsSince s ∧ s.isTracked x = false
  old : ∀ p r, s₀.files.get? p = some r → s.files.get? p = some r
  new : ∀ p r, s₀.files.get? p = none → s.files.get? p = some r →
    r.version = 0 ∧ r.path.Same p ∧ (r.path, r.text) ∈ l
  returned : ∀ e ∈ l, e.1 ∈ s₀.readsSince s ∧ s.isTracked e.1 = true
  once : (l.map fun e => e.1.components).Nodup

namespace Kept

variable {w : Surroundings} {s₀ s s' : Session} {l : List (Path × String)} {O O' : Multiset Path} {x : Path}

theorem tracked_old (h : Kept s₀ l s O) {p : Path} (hp : s₀.isTracked p = true) : s.isTracked p = true := by
  rw [Session.isTracked_eq_isSome] at hp ⊢
  obtain ⟨r, hr⟩ := Option.isSome_iff_exists.mp hp
  simp [h.old p r hr]

theorem of_session (h : Kept s₀ l s O) (hw : s'.walks = s.walks) (hr : s'.reads = s.reads)
    (hf : s'.files = s.files) (ho : O' ≤ O) : Kept s₀ l s' O' := by
  have hwalked : s₀.walkedSince s' = s₀.walkedSince s := by simp only [Session.walkedSince, hw]
  have hread : s₀.readsSince s' = s₀.readsSince s := by simp only [Session.readsSince, hr]
  have htracked : ∀ p, s'.isTracked p = s.isTracked p := fun p => by simp only [Session.isTracked, hf]
  constructor
  case reads => rw [hread, hr]; exact h.reads
  case sublist => rw [hread, hwalked]; exact h.sublist
  case fresh => rw [hread]; exact h.fresh
  case awaited =>
      intro y hy
      rw [hread, htracked]
      exact h.awaited y (Multiset.mem_of_le ho hy)
  case old => rw [hf]; exact h.old
  case new => rw [hf]; exact h.new
  case returned => simpa only [hread, htracked] using h.returned
  case once => exact h.once

theorem enter (h : Kept s₀ l s O) (hw : s.walks = s₀.walks ++ s₀.walkedSince s) : Kept s₀ l (s.enter x) O := by
  have hwalked := Session.walkedSince_enter hw x
  have hread : s₀.readsSince (s.enter x) = s₀.readsSince s := by simp [Session.readsSince]
  constructor
  case reads => rw [hread, Session.reads_enter]; exact h.reads
  case sublist => rw [hread, hwalked]; exact h.sublist.trans (List.sublist_append_left _ _)
  case fresh => rw [hread]; exact h.fresh
  case awaited => rw [hread]; exact h.awaited
  case old => exact h.old
  case new => exact h.new
  case returned => rw [hread]; exact h.returned
  case once => exact h.once

theorem begin (h : Kept s₀ l s O) (hw : s.walks = s₀.walks ++ s₀.walkedSince s)
    (hx : s.isTracked x = false) : Kept s₀ l ((s.enter x).record (.read x)) (O + {x}) := by
  have hwalked : s₀.walkedSince ((s.enter x).record (.read x)) = s₀.walkedSince s ++ [x] := by
    rw [Session.walkedSince, Session.walks_record _ rfl]
    exact Session.walkedSince_enter hw x
  have hread : s₀.readsSince ((s.enter x).record (.read x)) = s₀.readsSince s ++ [x] := by
    rw [Session.readsSince, Session.reads_record_read, Session.reads_enter, h.reads]
    simp
  have hfresh : s₀.isTracked x = false := by
    by_contra hn
    rw [Bool.not_eq_false] at hn
    rw [h.tracked_old hn] at hx
    cases hx
  constructor
  case reads => rw [hread, Session.reads_record_read, Session.reads_enter, h.reads]; simp
  case sublist => rw [hread, hwalked]; exact h.sublist.append (.refl [x])
  case fresh =>
      rw [hread]
      intro y hy
      rcases List.mem_append.mp hy with hy | hy
      · exact h.fresh y hy
      · exact List.mem_singleton.mp hy ▸ hfresh
  case awaited =>
      rw [hread]
      intro y hy
      rcases Multiset.mem_add.mp hy with hy | hy
      · exact ⟨List.mem_append.mpr (.inl (h.awaited y hy).1), (h.awaited y hy).2⟩
      · obtain rfl := Multiset.mem_singleton.mp hy
        exact ⟨by simp, hx⟩
  case old => exact h.old
  case new => exact h.new
  case returned =>
      rw [hread]
      exact fun e he => ⟨List.mem_append.mpr (.inl (h.returned e he).1), (h.returned e he).2⟩
  case once => exact h.once

/-- A text is stored only where there is none. -/
theorem store (h : Kept s₀ l s (O + {x})) (hn : ∀ y ∈ O, ¬x.Same y) (text : String) :
    Kept s₀ (l ++ [(x, text)]) (s.updateFile x text false).1 O := by
  obtain ⟨hx, hu⟩ := h.awaited x (by simp)
  have hget : ∀ p, (s.updateFile x text false).1.files.get? p =
      if x.Same p then some { path := x, text, version := 0 } else s.files.get? p := by
    intro p
    have hnone : s.files.get? x = none := by simpa [Session.isTracked_eq_isSome] using hu
    simp [Session.updateFile, FileStore.get?_update, hnone]
  constructor
  case reads => exact h.reads
  case sublist => exact h.sublist
  case fresh => exact h.fresh
  case awaited =>
      intro y hy
      rw [Session.isTracked_updateFile, decide_eq_false (hn y hy), Bool.false_or]
      exact h.awaited y (by simp [hy])
  case old =>
      intro p r hr
      have hne : ¬x.Same p := fun hs => by
        have := h.tracked_old (p := p) (by simp [Session.isTracked_eq_isSome, hr])
        rw [Session.isTracked, ← s.files.contains_congr hs] at this
        rw [show s.isTracked x = true from this] at hu
        cases hu
      rw [hget, if_neg hne]
      exact h.old p r hr
  case new =>
      intro p r hp hr
      rw [hget] at hr
      by_cases hs : x.Same p
      · rw [if_pos hs] at hr
        cases hr
        exact ⟨rfl, hs, by simp⟩
      · rw [if_neg hs] at hr
        obtain ⟨hv, hsame, hl⟩ := h.new p r hp hr
        exact ⟨hv, hsame, List.mem_append.mpr (.inl hl)⟩
  case returned =>
      intro e he
      rw [Session.isTracked_updateFile, Bool.or_eq_true, decide_eq_true_eq]
      rcases List.mem_append.mp he with he | he
      · exact ⟨(h.returned e he).1, .inr (h.returned e he).2⟩
      · obtain rfl := List.mem_singleton.mp he
        exact ⟨hx, .inl (Path.Same.refl x)⟩
  case once =>
      rw [List.map_append, List.nodup_append]
      refine ⟨h.once, by simp, ?_⟩
      intro a ha b hb
      obtain ⟨e, he, rfl⟩ := List.mem_map.mp ha
      obtain rfl : b = x.components := by simpa using hb
      intro hs
      have := (h.returned e he).2
      rw [Session.isTracked, s.files.contains_congr hs] at this
      rw [show s.isTracked x = true from this] at hu
      cases hu

theorem falls {c c' : Session × Multiset Path} {E : List (Path × Outcome)} (hf : Task.Falls c E c')
    (h : Kept s₀ l c.1 O) : Kept s₀ l c'.1 O := by
  induction hf with
  | rest => exact h
  | pass _ ih => exact ih
  | fail _ ih => exact ih.of_session rfl rfl rfl le_rfl

theorem entered {registered : Bool} {t' : Task} (h : Kept s₀ l s O)
    (hw : s.walks = s₀.walks ++ s₀.walkedSince s) (he : Task.Entered x registered s s' t') :
    Kept s₀ l s' (O + t'.waiting.filterMap Task.reads?) := by
  cases he with
  | trusted _ => simpa [Task.waiting] using h
  | scanned _ _ _ =>
      rw [Task.waiting, Task.reads?_follows, add_zero]
      exact (h.enter hw).of_session rfl rfl rfl le_rfl
  | begun _ ht =>
      rw [Task.reads?_reading]
      exact h.begin hw ht

theorem leafStep {leaf t' : Task} (h : Kept s₀ l s (O + leaf.waiting.filterMap Task.reads?))
    (hw : s.walks = s₀.walks ++ s₀.walkedSince s) (hd : Task.LeafStep w s leaf s' t') (hc : leaf.Checks)
    (hn : ∀ x, leaf.reads? = some x → ∀ y ∈ O, ¬x.Same y) :
    Kept s₀ (l ++ (leaf.read? w).toList) s' (O + t'.waiting.filterMap Task.reads?) := by
  have hseeks : ∀ {f t a}, leaf.Seeks w f t a → Kept s₀ (l ++ (leaf.read? w).toList) s O := fun hs => by
    cases hs <;> simpa [Task.read?] using h.of_session rfl rfl rfl (Multiset.le_add_right _ _)
  cases hd with
  | check he =>
      exact entered (by simpa [Task.read?] using h.of_session rfl rfl rfl (Multiset.le_add_right _ _)) hw he
  | @ask _ f t c _ rest due hs _ _ =>
      have hcall : Kept s₀ _ (s.record (.call f.directory c)) O :=
        (hseeks hs).of_session (Session.walks_record _ rfl) (Session.reads_record_call ..) rfl le_rfl
      have hnone : (Task.resolving f t c rest .follow due).waiting.filterMap Task.reads? = 0 := rfl
      rwa [hnone, add_zero]
  | unresolved hs _ => simpa [Task.waiting] using hseeks hs
  | pass hs _ _ => simpa [Task.waiting] using hseeks hs
  | @register _ _ y _ _ _ hs _ _ _ he =>
      have hr : Kept s₀ _ (s.register y) O := (hseeks hs).of_session rfl rfl rfl le_rfl
      exact hr.entered hw he
  | @link _ f y _ _ _ hs _ _ he =>
      have hl : Kept s₀ _ (s.link f y) O := (hseeks hs).of_session rfl rfl rfl le_rfl
      exact hl.entered hw he
  | @unread y registered due _ hr =>
      have hread : Task.read? w (.reading y (.walk registered) due) = none := by
        simp [Task.read?, hr, Except.toOption]
      have hdrop : Kept s₀ l (s.drop y registered) O := h.of_session rfl rfl rfl (Multiset.le_add_right _ _)
      simpa [hread, Task.waiting] using hdrop
  | @store y registered due text _ hr _ =>
      have hread : Task.read? w (.reading y (.walk registered) due) = some (y, text) := by
        simp [Task.read?, hr, Except.toOption]
      rw [Task.reads?_reading] at h
      rw [Task.waiting, Task.reads?_follows, add_zero, hread]
      exact (h.store (hn y rfl) text).of_session rfl rfl rfl le_rfl
  | notice => cases hc
  | keep _ => cases hc
  | refresh _ _ => cases hc

end Kept

/-! ## Runs of checks -/

/-- Nothing has started yet, and all that is asked for are checks of the roots. -/
structure Task.Asks (roots : List Path) (t : Task) : Prop where
  parents : t.parents = 0
  waiting : ∀ leaf ∈ t.waiting, ∃ r ∈ roots, leaf = .start (.check r)

theorem asks_check (root : Path) : (Task.start (.check root)).Asks [root] :=
  ⟨rfl, fun _ hl => ⟨root, by simp, Multiset.mem_singleton.mp hl⟩⟩

theorem asks_checks (roots : List Path) :
    (Task.group (roots.map fun r => .start (.check r))).Asks roots := by
  constructor
  case parents =>
      rw [Task.parents]
      induction roots with
      | nil => rfl
      | cons r roots ih => simpa [Task.parentsIn, Task.parents] using ih
  case waiting =>
      intro leaf hl
      obtain ⟨t, ht, hl⟩ := Task.mem_waitingIn.mp hl
      obtain ⟨r, hr, rfl⟩ := List.mem_map.mp ht
      exact ⟨r, hr, Multiset.mem_singleton.mp hl⟩

/-- All that is known of a run of checks, whatever the disk and the resolver have done meanwhile. -/
structure Watched (s₀ : Session) (roots : List Path) (h : History) (c : Session × Task) : Prop where
  checking : c.2.Checking
  traced : Traced s₀ h.endings c.1.bare c.2.walking
  rooted : Rooted s₀ roots h.found c.1.bare c.2.waiting
  kept : Kept s₀ h.reads c.1.bare (c.2.waiting.filterMap Task.reads?)

theorem Task.Asks.watched {roots : List Path} {t : Task} (ht : t.Asks roots) (s : Session) :
    Watched s roots [] (s, t) := by
  have hreads : t.waiting.filterMap Task.reads? = 0 := by
    refine Task.filterMap_reads?_eq_zero fun leaf hl => ?_
    obtain ⟨r, -, rfl⟩ := ht.waiting leaf hl
    rfl
  have hwalking : t.walking = 0 := by rw [Task.walking, hreads, ht.parents, add_zero]
  have hwalks : s.walkedSince s.bare = [] := by simp [Session.walkedSince]
  have hread : s.readsSince s.bare = [] := by simp [Session.readsSince]
  constructor
  case checking =>
      intro leaf hl
      obtain ⟨r, -, rfl⟩ := ht.waiting leaf hl
      exact .check r
  case traced =>
      rw [hwalking]
      exact ⟨⟨by simp, by simp⟩, by simp [hwalks], by simp [hwalks, History.endings], fun p _ => rfl⟩
  case rooted =>
      constructor
      case walks => simp [hwalks]
      case aimed => simp [hwalks]
      case asked =>
          intro x hx
          obtain ⟨r, hr, he⟩ := ht.waiting _ hx
          cases he
          exact hr
      case askers =>
          intro leaf hl f hf
          obtain ⟨r, -, rfl⟩ := ht.waiting leaf hl
          cases hf
      case valid_new => exact fun p hp => .inl hp
      case declared_new => exact fun p hp => .inl hp
      case links_new => exact fun p q hpq => .inl hpq
      case links_old => exact fun _ _ => rfl
      case program => rfl
      case warmed => rfl
  case kept =>
      rw [hreads]
      constructor
      case reads => simp [hread]
      case sublist => simp [hread]
      case fresh => simp [hread]
      case awaited => simp
      case old => exact fun _ _ => id
      case new =>
          intro p r hp hr
          rw [show s.bare.files.get? p = s.files.get? p from rfl, hp] at hr
          cases hr
      case returned => simp [History.reads]
      case once => simp [History.reads]

theorem Watched.after {s₀ : Session} {roots : List Path} {h : History} {m : Moment}
    (hw : Watched s₀ roots h (m.session, m.task)) (hp : m.task.waitsAt m.place = true) :
    Watched s₀ roots (h ++ [m]) m.after := by
  have hreads : History.reads (h ++ [m]) = h.reads ++ m.read?.toList := by
    cases hm : m.read? <;> simp [History.reads, hm]
  have hfound : History.found (h ++ [m]) = h.found ++ m.found?.toList := by
    cases hm : m.found? <;> simp [History.found, hm]
  have hendings : History.endings (h ++ [m]) = h.endings ++ m.endings := by simp [History.endings]
  obtain ⟨leaf, s', t', R, E, hl, hmem, hd, hwait, hwait', -, hfalls⟩ :=
    m.leafStep hp fun l hl => .inl (hw.checking l hl)
  have hleaf := hw.checking leaf hmem
  have hself : leaf.waiting = {leaf} := by cases hleaf <;> rfl
  have hrooted : Rooted s₀ roots h.found m.session.bare (R + {leaf}) := by
    rw [← hwait]
    exact hw.rooted
  have hkept : Kept s₀ h.reads m.session.bare
      (R.filterMap Task.reads? + leaf.waiting.filterMap Task.reads?) := by
    rw [hself, ← Multiset.filterMap_add, ← hwait]
    exact hw.kept
  have hstart : ∀ x, leaf.reads? = some x → leaf.waiting.filterMap Task.reads? = {x} := fun x hx => by
    rw [hself, ← Multiset.cons_zero, Multiset.filterMap_cons_some _ _ _ hx]
    rfl
  constructor
  case checking => exact m.checking_after hp hw.checking
  case traced =>
      rw [hendings]
      exact m.traced hp hw.checking hw.traced
  case rooted =>
      have hopen : ∀ x, leaf.reads? = some x → x ∈ s₀.walkedSince m.session.bare := fun x hx =>
        hkept.sublist.subset (hkept.awaited x (by simp [hstart x hx])).1
      have hmono : Rooted s₀ roots (h.found ++ m.found?.toList) m.session.bare (R + {leaf}) :=
        hrooted.mono (by simp +contextual)
      have hstep := hmono.leafStep hd hleaf hopen fun x hx => by simp [Moment.found?, hl, hx]
      rw [hfound, hwait']
      exact Rooted.falls hfalls hstep
  case kept =>
      have hn : ∀ x, leaf.reads? = some x → ∀ y ∈ R.filterMap Task.reads?, ¬x.Same y := by
        intro x hx y hy
        have hwalking : m.task.walking = m.task.parents + R.filterMap Task.reads? + {x} := by
          rw [Task.walking, hwait, ← hself, Multiset.filterMap_add, hstart x hx, add_assoc]
        have happart := hw.traced.apart
        rw [hwalking] at happart
        exact happart.not_same (Multiset.mem_add.mpr (.inr hy))
      have hstep := hkept.leafStep hw.traced.walks hd hleaf hn
      rw [hreads, hwait', Multiset.filterMap_add]
      refine Kept.falls hfalls ?_
      simpa [Moment.read?, hl] using hstep

/-- Checks of some roots, however the disk and the resolver change under them. -/
theorem Runs.watched {s : Session} {t : Task} {roots : List Path} {h : History} {c : Session × Task}
    (hr : Runs (s, t) h c) (ht : t.Asks roots) : Watched s roots h c := by
  induction hr with
  | rest => exact ht.watched s
  | step _ hp ih => exact ih.after hp

end ImportCheck
