import ImportCheck.Proofs.Check.Fresh

/-!
# What attempts leave behind

A session in which one root has been checked again and again holds marks, links and registrations of attempts
that failed. None of them is in the way of the next attempt: a walked file that is not valid is reached from
the root by way of files that are not valid either, past no registration, and what is valid is settled.
-/

namespace ImportCheck

section

variable (w : Surroundings) (root : Path) (s : Session)

/-- The file is reached from the root by way of walked files. -/
inductive Session.Traced : Path → Prop
  | root : Traced root
  | link {f x : Path} (hf : Traced f) (hw : f ∈ s.walks) (ht : s.isTracked f = true)
      (hx : s.Imports w f x) : Traced x

/-- The file is reached from the root by way of walked files that are not valid, and past no registration. -/
inductive Session.Exposed : Path → Prop
  | root : Exposed root
  | link {f x : Path} (hf : Exposed f) (hw : f ∈ s.walks) (ht : s.isTracked f = true)
      (hv : s.isValid f = false) (hx : s.Imports w f x)
      (hd : x.kind = .source ∨ s.graph.hasDeclaration x = false) : Exposed x

/-- What holds of a session after any number of checks of the root. -/
structure Tried : Prop where
  coherent : s.Coherent
  traced : ∀ f ∈ s.walks, s.Traced w root f
  exposed : ∀ f ∈ s.walks, s.isValid f = false → s.Exposed w root f
  valid : ∀ p, s.isValid p = true → ∃ f ∈ s.walks, f.Same p
  sound : ∀ f ∈ s.walks, s.isValid f = true → s.isTracked f = true ∧ s.Sound w f
  closed : ∀ f ∈ s.walks, s.isValid f = true → ∀ x, s.Imports w f x → x ∈ s.walks
  registered : ∀ f ∈ s.walks, s.isValid f = true → ∀ x ∈ s.targets w f, x.kind = .declaration →
    s.graph.hasDeclaration x = true ∨ x ∈ s.walks ∧ s.isValid x = false ∧ x ≠ root
  declared : ∀ p, s.graph.hasDeclaration p = true → ∃ f ∈ s.walks, s.isTracked f = true ∧
    ∃ x ∈ s.targets w f, x.kind = .declaration ∧ x.Same p ∧ x ∈ s.walks
  links : ∀ f ∈ s.walks, s.isValid f = true → ∀ q,
    s.graph.hasDependency f q = true ↔ ∃ x ∈ s.targets w f, x.kind = .source ∧ x.Same q
  links_none : ∀ p, (∀ f ∈ s.walks, ¬f.Same p) → ∀ q, s.graph.hasDependency p q = false

end

variable {w w' : Surroundings} {root : Path} {s s' : Session}

/-! ## Changes of the disk and the resolver -/

/-- The resolver gives the same answer to each specifier of a walked file that it gave a target for. -/
def Session.Keeps (s : Session) (w w' : Surroundings) : Prop :=
  ∀ f ∈ s.walks, s.isTracked f = true → ∀ t ∈ s.specifiers w f, ∀ x,
    w.resolve f t = .ok x → w'.resolve f t = .ok x

namespace Session

theorem specifiers_congr {f : Path} (ht : s.isTracked f = true) :
    s.specifiers w' f = s.specifiers w f := by
  simp only [specifiers, loaded, ht, ↓reduceIte]

namespace Keeps

variable (h : s.Keeps w w') {f : Path} (hf : f ∈ s.walks) (ht : s.isTracked f = true)

include h hf ht

theorem mem_targets {x : Path} (hx : x ∈ s.targets w f) : x ∈ s.targets w' f := by
  obtain ⟨t, hm, hr⟩ := Session.mem_targets.mp hx
  exact Session.mem_targets.mpr ⟨t, by rwa [specifiers_congr ht], h f hf ht t hm x hr⟩

theorem sound (hs : s.Sound w f) : s.Sound w' f := by
  refine ⟨.inl ht, fun t hm => ?_⟩
  rw [specifiers_congr ht] at hm
  obtain ⟨x, hx⟩ := hs.2 t hm
  exact ⟨x, h f hf ht t hm x hx⟩

theorem mem_targets_iff (hs : s.Sound w f) {x : Path} : x ∈ s.targets w' f ↔ x ∈ s.targets w f := by
  refine ⟨fun hx => ?_, h.mem_targets hf ht⟩
  obtain ⟨t, hm, hr⟩ := Session.mem_targets.mp hx
  rw [specifiers_congr ht] at hm
  obtain ⟨y, hy⟩ := hs.2 t hm
  obtain rfl : y = x := Except.ok.inj ((h f hf ht t hm y hy).symm.trans hr)
  exact Session.mem_targets.mpr ⟨t, hm, hy⟩

theorem imports {x : Path} (hx : s.Imports w f x) : s.Imports w' f x :=
  ⟨h.mem_targets hf ht hx.1, hx.2⟩

end Keeps

theorem Traced.change {f : Path} (h : s.Keeps w w') (hf : s.Traced w root f) : s.Traced w' root f := by
  induction hf with
  | root => exact .root
  | link _ hw ht hx ih => exact ih.link hw ht (h.imports hw ht hx)

theorem Exposed.change {f : Path} (h : s.Keeps w w') (hf : s.Exposed w root f) :
    s.Exposed w' root f := by
  induction hf with
  | root => exact .root
  | link _ hw ht hv hx hd ih => exact ih.link hw ht hv (h.imports hw ht hx) hd

end Session

/-- Answers that come to exist between attempts change nothing of what the attempts have left. -/
theorem Tried.change (h : Tried w root s) (hk : s.Keeps w w') : Tried w' root s := by
  have htargets : ∀ f ∈ s.walks, s.isValid f = true → ∀ x, x ∈ s.targets w' f ↔ x ∈ s.targets w f :=
    fun f hf hv x => hk.mem_targets_iff hf (h.sound f hf hv).1 (h.sound f hf hv).2
  constructor
  case coherent => exact h.coherent
  case traced => exact fun f hf => (h.traced f hf).change hk
  case exposed => exact fun f hf hv => (h.exposed f hf hv).change hk
  case valid => exact h.valid
  case sound =>
      intro f hf hv
      obtain ⟨ht, hs⟩ := h.sound f hf hv
      exact ⟨ht, hk.sound hf ht hs⟩
  case closed => exact fun f hf hv x hx => h.closed f hf hv x ⟨(htargets f hf hv x).mp hx.1, hx.2⟩
  case registered => exact fun f hf hv x hx => h.registered f hf hv x ((htargets f hf hv x).mp hx)
  case declared =>
      intro p hp
      obtain ⟨f, hf, ht, x, hx, hx'⟩ := h.declared p hp
      exact ⟨f, hf, ht, x, hk.mem_targets hf ht hx, hx'⟩
  case links =>
      intro f hf hv q
      rw [h.links f hf hv q]
      exact exists_congr fun x => and_congr_left fun _ => (htargets f hf hv x).symm
  case links_none => exact h.links_none

/-! ## What the next attempt reaches -/

namespace Session

theorem Traced.leads {f : Path} (h : s.Traced w root f) : s.Leads w root f := by
  induction h with
  | root => exact .refl
  | link _ _ _ hx ih => exact ih.tail hx

theorem Exposed.reached {x : Path} (h : s.Exposed w root x) (hv : s.isValid x = false) :
    s.Reached w [root] x := by
  induction h with
  | root => exact .root (List.mem_singleton_self root) hv
  | @link f x _ _ _ hv' hx hd ih =>
      obtain ⟨hx, hk⟩ := hx
      cases hkind : x.kind with
      | compiled => exact absurd hkind hk
      | source => exact .source (ih hv') hx hkind hv
      | declaration => exact .declaration (ih hv') hx hkind hv (hd.resolve_left (by simp [hkind]))

end Session

namespace Tried

variable (h : Tried w root s) (ha : s.afresh.SpelledAlike w [root])

include h ha

theorem eq_of_same {f x : Path} (hf : s.Leads w root f) (hx : s.Leads w root x) (hs : f.Same x) :
    f = x :=
  ha f x (h.coherent.reached_afresh_iff.mpr hf).met (h.coherent.reached_afresh_iff.mpr hx).met hs

theorem walked_of_valid {x : Path} (hx : s.Leads w root x) (hv : s.isValid x = true) :
    x ∈ s.walks := by
  obtain ⟨f, hf, hs⟩ := h.valid x hv
  exact h.eq_of_same ha (h.traced f hf).leads hx hs ▸ hf

theorem walked_of_declared {x : Path} (hx : s.Leads w root x) (hd : s.graph.hasDeclaration x = true) :
    x ∈ s.walks := by
  obtain ⟨f, hf, ht, y, hy, hk, hs, hw⟩ := h.declared x hd
  exact h.eq_of_same ha ((h.traced f hf).leads.tail ⟨hy, by simp [hk]⟩) hx hs ▸ hw

omit ha in
theorem reached_of_not_valid {x : Path} (hx : x ∈ s.walks) (hv : s.isValid x = false) :
    s.Reached w [root] x := (h.exposed x hx hv).reached hv

/-- The import closure consists of the valid files that were walked, and of what the next attempt reaches. -/
theorem leads_iff {g : Path} : s.Leads w root g ↔
    (g ∈ s.walks ∧ s.isValid g = true) ∨ s.Reached w [root] g := by
  constructor
  · intro hg
    induction hg with
    | refl =>
        cases hv : s.isValid root with
        | false => exact .inr (.root (List.mem_singleton_self root) hv)
        | true => exact .inl ⟨h.walked_of_valid ha .refl hv, rfl⟩
    | @tail f x hf hx ih =>
        cases hv : s.isValid x with
        | true => exact .inl ⟨h.walked_of_valid ha (hf.tail hx) hv, rfl⟩
        | false =>
            refine .inr ?_
            rcases ih with ⟨hw, hv'⟩ | hr
            · exact h.reached_of_not_valid (h.closed f hw hv' x hx) hv
            · obtain ⟨hmem, hk⟩ := hx
              cases hkind : x.kind with
              | compiled => exact absurd hkind hk
              | source => exact .source hr hmem hkind hv
              | declaration =>
                  cases hd : s.graph.hasDeclaration x with
                  | false => exact .declaration hr hmem hkind hv hd
                  | true =>
                      exact h.reached_of_not_valid
                        (h.walked_of_declared ha (hf.tail ⟨hmem, hk⟩) hd) hv
  · rintro (⟨hw, -⟩ | hr)
    · exact (h.traced g hw).leads
    · exact hr.leads_root

end Tried

/-! ## One more attempt -/

theorem Checked.mem_walks (hc : Checked w s root s') {f : Path} :
    f ∈ s'.walks ↔ f ∈ s.walks ∨ s.Reached w [root] f := by
  rw [hc.walks, List.mem_append, hc.walked]

theorem Checked.tracked_of_targets (hc : Checked w s root s') {f x : Path} (hf : s.Reached w [root] f)
    (hx : x ∈ s.targets w f) : s'.isTracked f = true :=
  (hc.tracked_new f hf).resolve_right fun hn => hn.1 (Session.obtainable_of_mem_targets hx)

namespace Tried

variable (h : Tried w root s) (ha : s.afresh.SpelledAlike w [root]) (hc : Checked w s root s')

include h ha hc

theorem knowAlike {f : Path} (hf : s.Leads w root f) : s.KnowAlike s' w f := by
  by_cases hr : ∃ g, s.Reached w [root] g ∧ g.Same f
  · obtain ⟨g, hg, hs⟩ := hr
    obtain rfl := h.eq_of_same ha hg.leads_root hf hs
    exact hc.known g (.inl hg.met)
  · exact hc.known f (.inr fun g hg hs => hr ⟨g, hg, hs⟩)

omit ha in
theorem leads_of_walked {f : Path} (hf : f ∈ s'.walks) : s.Leads w root f := by
  rcases hc.mem_walks.mp hf with hf | hf
  · exact (h.traced f hf).leads
  · exact hf.leads_root

theorem valid_before {f : Path} (hf : f ∈ s'.walks) (hv : s'.isValid f = true) :
    (f ∈ s.walks ∧ s.isValid f = true) ∨ s.Reached w [root] f := by
  rcases hc.mem_walks.mp hf with hf | hf
  · rcases hc.valid_new f hv with hv | ⟨g, hg, hs⟩
    · exact .inl ⟨hf, hv⟩
    · exact .inr (h.eq_of_same ha hg.leads_root (h.traced f hf).leads hs ▸ hg)
  · exact .inr hf

theorem traced_attempt {f : Path} (hf : f ∈ s'.walks) : s'.Traced w root f := by
  have hold : ∀ g, s.Traced w root g → s'.Traced w root g := by
    intro g hg
    induction hg with
    | root => exact .root
    | link hg hw ht hx ih =>
        exact ih.link (hc.mem_walks.mpr (.inl hw)) (hc.tracked_old _ ht)
          ((h.knowAlike ha hc hg.leads).imports.mpr hx)
  have hlink : ∀ g x, s.Reached w [root] g → s'.Traced w root g → s.Imports w g x →
      s'.Traced w root x := fun g x hg ih hx =>
    ih.link (hc.mem_walks.mpr (.inr hg)) (hc.tracked_of_targets hg hx.1)
      ((h.knowAlike ha hc hg.leads_root).imports.mpr hx)
  rcases hc.mem_walks.mp hf with hf | hf
  · exact hold f (h.traced f hf)
  · induction hf with
    | root hr _ => exact List.mem_singleton.mp hr ▸ .root
    | source hg hx hk _ ih =>
        exact hlink _ _ hg (ih (hc.mem_walks.mpr (.inr hg))) ⟨hx, by simp [hk]⟩
    | declaration hg hx hk _ _ ih =>
        exact hlink _ _ hg (ih (hc.mem_walks.mpr (.inr hg))) ⟨hx, by simp [hk]⟩

theorem exposed_attempt {x : Path} (hx : x ∈ s'.walks) (hv : s'.isValid x = false) :
    s'.Exposed w root x := by
  have hreached : s.Reached w [root] x := by
    rcases hc.mem_walks.mp hx with hx | hx
    · refine h.reached_of_not_valid hx ?_
      cases hv₀ : s.isValid x with
      | false => rfl
      | true => exact (hc.valid_old x hv₀).symm.trans hv
    · exact hx
  have hstranded := hc.stranded x hreached hv
  clear hx hv hreached
  induction hstranded with
  | root => exact .root
  | link _ hr hv hx hk hd ih =>
      exact ih.link (hc.mem_walks.mpr (.inr hr)) (hc.tracked_of_targets hr hx) hv
        ((h.knowAlike ha hc hr.leads_root).imports.mpr ⟨hx, hk⟩) hd

theorem knowAlike_walked {f : Path} (hf : f ∈ s'.walks) : s.KnowAlike s' w f :=
  h.knowAlike ha hc (h.leads_of_walked hc hf)

theorem walked_after_of_valid {x : Path} (hx : s.Leads w root x) (hv : s.isValid x = true) : x ∈ s'.walks :=
  hc.mem_walks.mpr (.inl (h.walked_of_valid ha hx hv))

theorem sound_attempt {f : Path} (hf : f ∈ s'.walks) (hv : s'.isValid f = true) :
    s'.isTracked f = true ∧ s'.Sound w f := by
  have hknow := h.knowAlike_walked ha hc hf
  rcases h.valid_before ha hc hf hv with ⟨hw, hv⟩ | hr
  · obtain ⟨ht, hs⟩ := h.sound f hw hv
    exact ⟨hc.tracked_old f ht, hknow.sound.mpr hs⟩
  · obtain ⟨ht, hs⟩ := hc.sound f hr hv
    exact ⟨ht, hknow.sound.mpr hs⟩

theorem closed_attempt {f x : Path} (hf : f ∈ s'.walks) (hv : s'.isValid f = true) (hx : s'.Imports w f x) :
    x ∈ s'.walks := by
  rw [(h.knowAlike_walked ha hc hf).imports] at hx
  rcases h.valid_before ha hc hf hv with ⟨hw, hv⟩ | hr
  · exact hc.mem_walks.mpr (.inl (h.closed f hw hv x hx))
  · have hleads := hr.leads_root.tail hx
    rcases hc.settled f hr x hx.1 hx.2 with hv | hr | ⟨-, hd⟩
    · exact h.walked_after_of_valid ha hc hleads hv
    · exact hc.mem_walks.mpr (.inr hr)
    · exact hc.mem_walks.mpr (.inl (h.walked_of_declared ha hleads hd))

theorem registered_attempt {f x : Path} (hf : f ∈ s'.walks) (hv : s'.isValid f = true) (hx : x ∈ s'.targets w f)
    (hk : x.kind = .declaration) :
    s'.graph.hasDeclaration x = true ∨ x ∈ s'.walks ∧ s'.isValid x = false ∧ x ≠ root := by
  rw [(h.knowAlike_walked ha hc hf).targets] at hx
  rcases h.valid_before ha hc hf hv with ⟨hw, hv⟩ | hr
  · rcases h.registered f hw hv x hx hk with hd | ⟨hxw, hxv, hne⟩
    · exact .inl (hc.declared_old x hd)
    · -- the declaration is walked again, and registered for it
      have hxr := h.reached_of_not_valid hxw hxv
      cases hv' : s'.isValid x with
      | true => exact .inl (hc.marked x hxr hk hne hv')
      | false => exact .inr ⟨hc.mem_walks.mpr (.inl hxw), rfl, hne⟩
  · rcases hc.registered f hr x hx hk with hd | ⟨hxr, hxv, hne⟩
    · exact .inl hd
    · exact .inr ⟨hc.mem_walks.mpr (.inr hxr), hxv, hne⟩

theorem declared_attempt {p : Path} (hp : s'.graph.hasDeclaration p = true) :
    ∃ f ∈ s'.walks, s'.isTracked f = true ∧ ∃ x ∈ s'.targets w f, x.kind = .declaration ∧ x.Same p ∧ x ∈ s'.walks := by
  rcases hc.declared_new p hp with hp | ⟨f, hr, x, hx, hk, hs, hset⟩
  · obtain ⟨f, hf, ht, x, hx, hk, hs, hw⟩ := h.declared p hp
    have hf' := hc.mem_walks.mpr (.inl hf)
    exact ⟨f, hf', hc.tracked_old f ht, x, by rwa [(h.knowAlike_walked ha hc hf').targets], hk, hs,
      hc.mem_walks.mpr (.inl hw)⟩
  · have hf' := hc.mem_walks.mpr (.inr hr)
    refine ⟨f, hf', hc.tracked_of_targets hr hx, x, by rwa [(h.knowAlike_walked ha hc hf').targets], hk, hs, ?_⟩
    rcases hset with hv | hr'
    · exact h.walked_after_of_valid ha hc (hr.leads_root.tail ⟨hx, by simp [hk]⟩) hv
    · exact hc.mem_walks.mpr (.inr hr')

/-- What attempts leave behind is what one more attempt leaves behind. -/
theorem attempt (hcoherent : s'.Coherent) : Tried w root s' := by
  constructor
  case coherent => exact hcoherent
  case traced => exact fun f hf => h.traced_attempt ha hc hf
  case exposed => exact fun x hx hv => h.exposed_attempt ha hc hx hv
  case valid =>
      intro p hp
      rcases hc.valid_new p hp with hp | ⟨f, hf, hs⟩
      · obtain ⟨f, hf, hs⟩ := h.valid p hp
        exact ⟨f, hc.mem_walks.mpr (.inl hf), hs⟩
      · exact ⟨f, hc.mem_walks.mpr (.inr hf), hs⟩
  case sound => exact fun f hf hv => h.sound_attempt ha hc hf hv
  case closed => exact fun f hf hv x hx => h.closed_attempt ha hc hf hv hx
  case registered => exact fun f hf hv x hx hk => h.registered_attempt ha hc hf hv hx hk
  case declared => exact fun p hp => h.declared_attempt ha hc hp
  case links =>
      intro f hf hv q
      rw [(h.knowAlike_walked ha hc hf).targets]
      by_cases hr : s.Reached w [root] f
      · exact hc.links f hr q
      · obtain ⟨hw, hv⟩ := (h.valid_before ha hc hf hv).resolve_right hr
        rw [hc.links_old f (fun g hg hs => ?_) q]
        · exact h.links f hw hv q
        · exact hr (h.eq_of_same ha hg.leads_root (h.traced f hw).leads hs ▸ hg)
  case links_none =>
      intro p hp q
      rw [hc.links_old p (fun f hf => hp f (hc.mem_walks.mpr (.inr hf))) q]
      exact h.links_none p (fun f hf => hp f (hc.mem_walks.mpr (.inl hf))) q

end Tried

end ImportCheck
