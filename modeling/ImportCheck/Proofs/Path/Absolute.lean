import ImportCheck.Proofs.Path.Normal
import ImportCheck.Text.Snapshot
import Mathlib.Algebra.GroupWithZero.Nat
import Mathlib.Algebra.Order.BigOperators.Group.List
import Mathlib.Algebra.Order.Group.Nat

/-!
# Absolute paths

An absolute path leads to one place, wherever it is read. It is in normal form exactly if it never steps up, and its
normal form is spelled by some of its own segments.
-/

namespace ImportCheck.Path

variable {p base relative : Path} {stack : DirStack}

/-! ## The normal form of an absolute path -/

theorem normalComponents_of_isAbsolute (h : p.IsAbsolute) :
    p.normalComponents = .root :: (p.act []).reverse.map .name := by
  have hroot := List.mem_reverse.mpr (root_mem_normalComponents.mpr h)
  obtain ⟨names, hn | ⟨n, hn⟩⟩ := (reduced_normalComponents p).shape
  · have hlead := lead_normalComponents p []
    rw [hn, Component.lead_names] at hlead
    have hnames : names = p.act [] := by simpa [Component.lead, Component.act] using hlead
    rw [← List.reverse_reverse p.normalComponents, hn, ← hnames]
    simp
  · rw [hn] at hroot
    simp at hroot

theorem isLater_of_mem_tail {c : Component} (h : c ∈ p.components.tail) : c.IsLater := by
  by_cases hp : p = blank
  · rw [components_eq_nil_iff.mpr hp] at h
    cases h
  · obtain ⟨s, rest, hs⟩ := List.exists_cons_of_ne_nil p.nonempty
    rw [components_of_cons hs hp] at h
    obtain ⟨t, -, ht⟩ := List.mem_filterMap.mp h
    exact Component.isLater_of_ofLater ht

/-- Components that are all names are the names of the directories that they enter. -/
theorem map_name_foldl_act {cs : List Component} (h : ∀ c ∈ cs, ∃ s, c = .name s) (stack : DirStack) :
    (cs.foldl (fun stack c => c.act stack) stack).reverse.map .name = stack.reverse.map .name ++ cs := by
  induction cs generalizing stack with
  | nil => simp
  | cons c cs ih =>
      obtain ⟨s, rfl⟩ := h c List.mem_cons_self
      rw [List.foldl_cons, ih fun c hc => h c (List.mem_cons_of_mem _ hc)]
      simp [Component.act]

theorem same_normalize_iff (h : p.IsAbsolute) : p.normalize.Same p ↔ .up ∉ p.components := by
  rw [Same, components_normalize, normalComponents_of_isAbsolute h, if_neg (List.cons_ne_nil _ _)]
  constructor
  · intro he
    rw [← he]
    simp
  · intro hup
    obtain ⟨rest, hrest⟩ := List.head?_eq_some_iff.mp h
    have hnames : ∀ c ∈ rest, ∃ s, c = .name s := fun c hc => by
      rcases isLater_of_mem_tail (p := p) (by rwa [hrest]) with rfl | ⟨s, -, rfl⟩
      · exact absurd (hrest ▸ List.mem_cons_of_mem _ hc) hup
      · exact ⟨s, rfl⟩
    rw [hrest, act, hrest, List.foldl_cons, map_name_foldl_act hnames]
    rfl

theorem up_mem_join (hr : ¬relative.IsAbsolute) :
    .up ∈ (base.join relative).components ↔ .up ∈ base.components ∨ .up ∈ relative.components := by
  by_cases hb : base = blank
  · rw [join, if_pos (.inr hb), components_eq_nil_iff.mpr hb]
    simp
  · rw [components_join hr hb, filterMap_segments hr, List.mem_append, List.mem_filterMap]
    refine or_congr_right ⟨?_, fun h => ⟨.up, h, rfl⟩⟩
    rintro ⟨c, hc, hu⟩
    cases c <;> simp_all [unlessHere]

/-! ## Its spelling -/

theorem eq_empty_of_isAbsolute {s : Segment} {rest : List Segment} (h : p.IsAbsolute) (hs : p.segments = s :: rest) :
    s = .empty ∧ p.components = .root :: rest.filterMap Component.ofLater := by
  have hp : p ≠ blank := by
    rintro rfl
    cases h
  have hc := components_of_cons hs hp
  rw [IsAbsolute, hc, List.head?_cons, Option.some.injEq] at h
  refine ⟨?_, h ▸ hc⟩
  unfold Component.ofFirst at h
  split at h
  · assumption
  · split at h
    · cases h
    · split at h <;> cases h

theorem segments_normalize (h : p.IsAbsolute) (hn : p.act [] ≠ []) :
    p.normalize.segments = .empty :: (p.act []).reverse := by
  rw [normalize, normalComponents_of_isAbsolute h]
  cases hr : (p.act []).reverse with
  | nil => exact absurd (List.reverse_eq_nil_iff.mp hr) hn
  | cons s rest => simp [ofComponents, Component.segment, Function.comp_def]

theorem isName_of_mem_act (h : p.IsAbsolute) {s : Segment} (hs : s ∈ p.act []) : s.IsName := by
  refine isName_of_mem_components (p := p.normalize) ?_
  rw [components_normalize, normalComponents_of_isAbsolute h, if_neg (List.cons_ne_nil _ _)]
  simpa using hs

/-- Segments lead to a place whose names are among them, in their order. -/
theorem foldl_act_sublist (segments : List Segment) (stack : DirStack) :
    ((segments.filterMap Component.ofLater).foldl (fun stack c => c.act stack) stack).reverse.Sublist
      (stack.reverse ++ segments) := by
  induction segments generalizing stack with
  | nil => simp
  | cons s rest ih =>
      have hskip : (stack.reverse ++ rest).Sublist (stack.reverse ++ s :: rest) :=
        (List.sublist_cons_self s rest).append_left _
      cases hl : Component.ofLater s with
      | none => simpa only [List.filterMap_cons, hl] using (ih stack).trans hskip
      | some c =>
          simp only [List.filterMap_cons, hl, List.foldl_cons]
          unfold Component.ofLater at hl
          split at hl
          · cases hl
          · split at hl <;> cases hl
            · exact ((ih stack.tail).trans ((List.tail_sublist stack).reverse.append_right rest)).trans hskip
            · simpa only [Component.act, List.reverse_cons, List.append_assoc, List.singleton_append]
                using ih (s :: stack)

theorem byteCount_append (cs ds : List Char) :
    Text.byteCount (cs ++ ds) = Text.byteCount cs + Text.byteCount ds := by
  induction cs with
  | nil => simp [Text.byteCount]
  | cons c cs ih => simp [Text.byteCount, ih, Nat.add_assoc]

theorem byteCount_spell (s : Segment) (rest : List Segment) :
    Text.byteCount (spell (s :: rest)) =
      Text.byteCount s.chars + (rest.map fun t => 1 + Text.byteCount t.chars).sum := by
  induction rest generalizing s with
  | nil => simp [spell]
  | cons t rest ih =>
      rw [spell_cons_of_ne_nil s (List.cons_ne_nil t rest), byteCount_append, Text.byteCount, ih,
        show '/'.utf8Size = 1 from rfl, List.map_cons, List.sum_cons, Nat.add_assoc]

theorem mem_spell {c : Char} {segments : List Segment} (hc : c ≠ '/') :
    c ∈ spell segments ↔ ∃ s ∈ segments, c ∈ s.chars := by
  induction segments with
  | nil => simp [spell]
  | cons s rest ih =>
      cases rest with
      | nil => simp [spell]
      | cons t rest =>
          rw [spell_cons_of_ne_nil s (List.cons_ne_nil t rest), List.mem_append, List.mem_cons, ih]
          simp [hc]

/-- The normal form needs no more bytes than the path, and no other characters. -/
theorem chars_normalize (h : p.IsAbsolute) (hn : p.act [] ≠ []) :
    Text.byteCount p.normalize.chars ≤ Text.byteCount p.chars ∧
      ∀ c ∈ p.normalize.chars, c ≠ '/' → c ∈ p.chars := by
  obtain ⟨s, rest, hs⟩ := List.exists_cons_of_ne_nil p.nonempty
  obtain ⟨rfl, hc⟩ := eq_empty_of_isAbsolute h hs
  have hsub : (p.act []).reverse.Sublist rest := by
    rw [act, hc, List.foldl_cons]
    exact foldl_act_sublist rest []
  rw [chars, chars, segments_normalize h hn, hs]
  constructor
  · rw [byteCount_spell, byteCount_spell]
    exact Nat.add_le_add_left ((hsub.map _).sum_le_sum fun _ _ => Nat.zero_le _) _
  · intro c hc hslash
    rw [mem_spell hslash] at hc ⊢
    obtain ⟨t, ht, hct⟩ := hc
    exact ⟨t, (hsub.cons_cons _).mem ht, hct⟩

end ImportCheck.Path
