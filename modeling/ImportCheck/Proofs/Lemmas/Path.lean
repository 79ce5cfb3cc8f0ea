import ImportCheck.Path.Normal
import ImportCheck.Proofs.Lemmas.PathMap

/-!
# Spellings of one place

The parent, the join and the normal form of a path depend on its components only, so that two spellings of
one place have the same directory and resolve the same references.
-/

namespace ImportCheck.Path

variable {p q : Path}

theorem components_of_cons {s : Segment} {rest : List Segment} (h : p.segments = s :: rest)
    (hp : p ≠ blank) : p.components = Component.ofFirst s :: rest.filterMap Component.ofLater := by
  obtain ⟨segments, hne⟩ := p
  subst h
  cases rest with
  | nil =>
      have hs : s ≠ .empty := by
        rintro rfl
        exact hp rfl
      simp [components, hs]
  | cons t rest => rfl

theorem components_eq_nil_iff : p.components = [] ↔ p = blank := by
  constructor
  · intro h
    refine Classical.byContradiction fun hp => ?_
    obtain ⟨s, rest, hs⟩ := List.exists_cons_of_ne_nil p.nonempty
    rw [components_of_cons hs hp] at h
    cases h
  · rintro rfl
    rfl

theorem Same.blank_iff (h : p.Same q) : p = blank ↔ q = blank := by
  rw [← components_eq_nil_iff, ← components_eq_nil_iff, h]

theorem Same.isAbsolute_iff (h : p.Same q) : p.IsAbsolute ↔ q.IsAbsolute := by
  rw [IsAbsolute, IsAbsolute, h]

theorem ofLater_empty : Component.ofLater .empty = none := by decide

theorem ofLater_of_blank {s : Segment} (h : s.Blank) : Component.ofLater s = none := by
  simp [Component.ofLater, h]

theorem ofLater_of_not_blank {s : Segment} (h : ¬s.Blank) : ∃ c, Component.ofLater s = some c := by
  unfold Component.ofLater
  rw [if_neg h]
  split <;> exact ⟨_, rfl⟩

/-! ## Joins -/

/-- A component that is not first, as one that is: `.` is left out there. -/
def unlessHere : Component → Option Component
  | .here => none
  | c => some c

theorem unlessHere_of_later {s : Segment} {c : Component} (h : Component.ofLater s = some c) :
    unlessHere c = some c := by
  unfold Component.ofLater at h
  split at h
  · cases h
  · split at h <;> cases h <;> rfl

theorem unlessHere_ofFirst {s : Segment} (h : s ≠ .empty) :
    unlessHere (Component.ofFirst s) = Component.ofLater s := by
  unfold Component.ofFirst Component.ofLater Segment.Blank
  by_cases hd : s = .dot
  · simp [hd, unlessHere, show (Segment.dot : Segment) ≠ .empty by decide]
  · by_cases hu : s = .dotDot
    · simp [hu, unlessHere, show (Segment.dotDot : Segment) ≠ .empty by decide,
        show (Segment.dotDot : Segment) ≠ .dot by decide]
    · simp [h, hd, hu, unlessHere]

theorem filterMap_segments (h : ¬p.IsAbsolute) :
    p.segments.filterMap Component.ofLater = p.components.filterMap unlessHere := by
  by_cases hp : p = blank
  · subst hp
    rfl
  · obtain ⟨s, rest, hs⟩ := List.exists_cons_of_ne_nil p.nonempty
    have hc := components_of_cons hs hp
    have hfirst : s ≠ .empty := by
      rintro rfl
      refine h ?_
      rw [IsAbsolute, hc]
      rfl
    have hrest : (rest.filterMap Component.ofLater).filterMap unlessHere =
        rest.filterMap Component.ofLater := by
      rw [List.filterMap_filterMap]
      congr 1
      funext t
      cases ht : Component.ofLater t with
      | none => rfl
      | some c => exact unlessHere_of_later ht
    rw [hs, hc, List.filterMap_cons, List.filterMap_cons, unlessHere_ofFirst hfirst, hrest]

theorem components_join {base relative : Path} (hr : ¬relative.IsAbsolute) (hb : base ≠ blank) :
    (base.join relative).components =
      base.components ++ relative.segments.filterMap Component.ofLater := by
  obtain ⟨s, rest, hs⟩ := List.exists_cons_of_ne_nil base.nonempty
  obtain ⟨t, later, ht⟩ := List.exists_cons_of_ne_nil relative.nonempty
  have hcons : ∀ {front : List Segment} {r : Path}, r.segments = s :: front ++ relative.segments →
      r.components = Component.ofFirst s ::
        (front.filterMap Component.ofLater ++ relative.segments.filterMap Component.ofLater) := by
    intro front r hr
    have hne : r ≠ blank := by
      rintro rfl
      simp [blank, ht] at hr
    rw [components_of_cons hr hne, ← List.filterMap_append]
    rfl
  rw [components_of_cons hs hb, List.cons_append]
  by_cases hlast : base.segments.getLast base.nonempty = .empty
  · have hrest : rest ≠ [] := by
      rintro rfl
      refine hb ?_
      obtain ⟨segments, hne⟩ := base
      subst hs
      simp only [List.getLast_singleton] at hlast
      subst hlast
      rfl
    have hdrop : base.segments.dropLast = s :: rest.dropLast := by
      rw [hs, List.dropLast_cons_of_ne_nil hrest]
    have hend : rest.filterMap Component.ofLater = rest.dropLast.filterMap Component.ofLater := by
      have hl : rest.getLast hrest = .empty := by simpa [hs, List.getLast_cons hrest] using hlast
      conv => lhs; rw [← List.dropLast_concat_getLast hrest, hl]
      simp [ofLater_empty]
    rw [hend]
    refine hcons ?_
    simp [join, hr, hb, hlast, hdrop]
  · refine hcons ?_
    rw [← hs]
    simp [join, hr, hb, hlast]

theorem join_same {base base' relative relative' : Path} (hb : base.Same base')
    (hr : relative.Same relative') : (base.join relative).Same (base'.join relative') := by
  by_cases h : relative.IsAbsolute ∨ base = blank
  · have h' : relative'.IsAbsolute ∨ base' = blank := h.imp hr.isAbsolute_iff.mp hb.blank_iff.mp
    simpa [join, h, h'] using hr
  · obtain ⟨habs, hblank⟩ := not_or.mp h
    have habs' := mt hr.isAbsolute_iff.mpr habs
    rw [Same, components_join habs hblank, components_join habs' (mt hb.blank_iff.mpr hblank),
      filterMap_segments habs, filterMap_segments habs', hb, hr]

theorem normalize_eq (h : p.Same q) : p.normalize = q.normalize := by
  rw [normalize, normalize, normalComponents, normalComponents, h]

theorem resolveAgainst_eq (cwd : Path) {base base' : Path} (h : base.Same base') (relative : Path) :
    resolveAgainst cwd base relative = resolveAgainst cwd base' relative := by
  have hj := join_same h (Same.refl relative)
  simp only [resolveAgainst, hj.isAbsolute_iff]
  split
  · exact normalize_eq hj
  · exact normalize_eq (join_same (Same.refl cwd) hj)

/-! ## Parents -/

theorem filterMap_dropWhile (segments : List Segment) :
    (segments.dropWhile (decide ·.Blank)).filterMap Component.ofLater =
      segments.filterMap Component.ofLater := by
  induction segments with
  | nil => rfl
  | cons s rest ih =>
      by_cases hs : s.Blank
      · simp [hs, ih, ofLater_of_blank hs]
      · simp [hs]

theorem filterMap_trimEnd (later : List Segment) :
    (trimEnd later).filterMap Component.ofLater = later.filterMap Component.ofLater := by
  rw [trimEnd, List.filterMap_reverse, filterMap_dropWhile, List.filterMap_reverse, List.reverse_reverse]

theorem components_ofFirst (s : Segment) (later : List Segment) :
    (ofFirst s later).components = Component.ofFirst s :: later.filterMap Component.ofLater := by
  unfold ofFirst
  split
  · next h =>
    obtain ⟨rfl, rfl⟩ := h
    decide
  · next h =>
    refine components_of_cons rfl fun hb => h ?_
    have := congrArg segments hb
    simpa [blank] using this

/-- The parent has all components but the last one; only the root and the blank path have none. -/
theorem parent?_eq (p : Path) :
    p.parent? = none ∧ (p.components = [] ∨ p.components = [.root]) ∨
      ∃ d c, p.parent? = some d ∧ p.components = d.components ++ [c] ∧ p.components ≠ [.root] := by
  obtain ⟨s, rest, hs⟩ := List.exists_cons_of_ne_nil p.nonempty
  unfold parent? splitLast
  simp only [hs]
  have hrev : rest.filterMap Component.ofLater =
      ((rest.reverse.dropWhile (decide ·.Blank)).reverse).filterMap Component.ofLater := by
    rw [List.filterMap_reverse, filterMap_dropWhile, List.filterMap_reverse, List.reverse_reverse]
  cases hd : rest.reverse.dropWhile (decide ·.Blank) with
  | nil =>
      simp only [hd, List.reverse_nil, List.filterMap_nil] at hrev
      by_cases hp : p = blank
      · subst hp
        obtain ⟨rfl, -⟩ : Segment.empty = s ∧ [] = rest := by simpa [blank] using hs
        exact .inl ⟨by simp, .inl rfl⟩
      · have hc := components_of_cons hs hp
        rw [hrev] at hc
        by_cases he : s = .empty
        · subst he
          exact .inl ⟨by simp, .inr hc⟩
        · refine .inr ⟨blank, Component.ofFirst s, by simp [he], hc, ?_⟩
          rw [hc]
          unfold Component.ofFirst
          rw [if_neg he]
          split
          · simp
          · split <;> simp
  | cons last before =>
      have hlast : ¬last.Blank := by
        have := List.head?_dropWhile_not (decide ·.Blank) rest.reverse
        simpa [hd] using this
      obtain ⟨c, hc⟩ := ofLater_of_not_blank hlast
      have hp : p ≠ blank := by
        rintro rfl
        obtain ⟨-, rfl⟩ : Segment.empty = s ∧ [] = rest := by simpa [blank] using hs
        simp at hd
      have hcomp := components_of_cons hs hp
      simp only [hd, List.reverse_cons, List.filterMap_append] at hrev
      rw [hrev] at hcomp
      refine .inr ⟨ofFirst s (trimEnd before.reverse), c, rfl, ?_, ?_⟩
      · rw [components_ofFirst, filterMap_trimEnd, hcomp]
        simp [hc]
      · rw [hcomp]
        simp [hc]

theorem directory_same (h : p.Same q) : p.directory.Same q.directory := by
  unfold directory
  rcases parent?_eq p with ⟨hp, hcp⟩ | ⟨d, c, hp, hcp, hrp⟩ <;>
    rcases parent?_eq q with ⟨hq, hcq⟩ | ⟨e, c', hq, hcq, hrq⟩
  · simp [hp, hq, Same.refl]
  · rw [h] at hcp
    rcases hcp with hcp | hcp
    · simp [hcp] at hcq
    · exact absurd hcp hrq
  · rw [← h] at hcq
    rcases hcq with hcq | hcq
    · simp [hcq] at hcp
    · exact absurd hcq hrp
  · have hde : d.Same e := by
      rw [h, hcq] at hcp
      exact (List.append_inj_left' hcp rfl).symm
    simp only [hp, hq, hde.blank_iff]
    split
    · exact Same.refl _
    · exact hde

end ImportCheck.Path
