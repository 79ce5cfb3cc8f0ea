import ImportCheck.Proofs.Lemmas.Path
import Mathlib.Data.List.Basic

/-!
# Normal forms

A path stands for what it does to the stack of directories. Its normal form does the same, and two paths have one
normal form exactly if they do the same to every stack, so that nothing is left to normalize in a normal form, whatever
it was joined from.
-/

namespace ImportCheck

/-- A segment that names something wherever it stands. -/
def Segment.IsName (s : Segment) : Prop := ¬s.Blank ∧ s ≠ .dotDot

namespace Component

/-- A component that stands for itself after others. -/
def IsLater (c : Component) : Prop := c = up ∨ ∃ s, s.IsName ∧ c = name s

/-- Normal components, last one first: names after steps up, or after the root. -/
inductive Reduced : List Component → Prop
  | ups (n : Nat) : Reduced (.replicate n up)
  | root : Reduced [root]
  | name {done : List Component} {s : Segment} (hs : s.IsName) (h : Reduced done) : Reduced (name s :: done)

/-- What components that are held last one first do to a stack. -/
def lead (done : List Component) (stack : DirStack) : DirStack := done.foldr act stack

variable {done done' : List Component} {c : Component} {s : Segment}

/-! ## Components and their spelling -/

theorem isLater_of_ofLater (h : ofLater s = some c) : c.IsLater := by
  unfold ofLater at h
  split at h
  · cases h
  · next hb =>
    split at h
    · cases h
      exact .inl rfl
    · next hu =>
      cases h
      exact .inr ⟨s, ⟨hb, hu⟩, rfl⟩

theorem isName_of_ofFirst {t : Segment} (h : ofFirst s = name t) : t.IsName := by
  unfold ofFirst at h
  split at h
  · cases h
  · next he =>
    split at h
    · cases h
    · next hd =>
      split at h
      · cases h
      · next hu =>
        cases h
        exact ⟨not_or.mpr ⟨he, hd⟩, hu⟩

theorem ofFirst_segment (h : ∀ t, c = name t → t.IsName) : ofFirst c.segment = c := by
  cases c with
  | name t =>
      obtain ⟨hb, hu⟩ := h t rfl
      obtain ⟨he, hd⟩ := not_or.mp hb
      simp [segment, ofFirst, he, hd, hu]
  | _ => decide

theorem ofLater_segment (h : c.IsLater) : ofLater c.segment = some c := by
  rcases h with rfl | ⟨t, ⟨hb, hu⟩, rfl⟩
  · decide
  · simp [segment, ofLater, hb, hu]

/-! ## Reduced components -/

theorem lead_names (names : List Segment) (base : List Component) (stack : DirStack) :
    lead (names.map name ++ base) stack = names ++ lead base stack := by
  induction names with
  | nil => rfl
  | cons s names ih => exact congrArg (s :: ·) ih

theorem lead_ups (n : Nat) (stack : DirStack) : lead (.replicate n up) stack = stack.drop n := by
  induction n with
  | zero => rfl
  | succ n ih =>
      rw [List.replicate_succ, ← List.tail_drop, ← ih]
      rfl

/-- Names stand last, and before them the root or steps up. -/
theorem Reduced.shape (h : Reduced done) : ∃ names : List Segment,
    done = names.map Component.name ++ [Component.root] ∨
      ∃ n, done = names.map Component.name ++ .replicate n Component.up := by
  induction h with
  | ups n => exact ⟨[], .inr ⟨n, rfl⟩⟩
  | root => exact ⟨[], .inl rfl⟩
  | @name done s hs h ih =>
      obtain ⟨names, rfl | ⟨n, rfl⟩⟩ := ih
      · exact ⟨s :: names, .inl rfl⟩
      · exact ⟨s :: names, .inr ⟨n, rfl⟩⟩

theorem Reduced.later {first : Component} {rest : List Component} (h : Reduced done)
    (he : done.reverse = first :: rest) : (∀ t, first = Component.name t → t.IsName) ∧ ∀ d ∈ rest, d.IsLater := by
  induction h generalizing rest with
  | ups n =>
      have hall : ∀ d ∈ first :: rest, d = Component.up := fun d hd =>
        List.eq_of_mem_replicate (by simpa [← he] using hd)
      refine ⟨fun t ht => ?_, fun d hd => .inl (hall d (List.mem_cons_of_mem _ hd))⟩
      rw [hall first List.mem_cons_self] at ht
      cases ht
  | root =>
      cases he
      exact ⟨nofun, nofun⟩
  | @name done s hs h ih =>
      rw [List.reverse_cons] at he
      cases hd : done.reverse with
      | nil =>
          rw [hd] at he
          cases he
          refine ⟨fun t ht => ?_, nofun⟩
          cases ht
          exact hs
      | cons d rest' =>
          rw [hd] at he
          cases he
          obtain ⟨hfirst, hrest⟩ := ih hd
          refine ⟨hfirst, fun d hd => ?_⟩
          rcases List.mem_append.mp hd with hd | hd
          · exact hrest d hd
          · exact .inr ⟨s, hs, List.mem_singleton.mp hd⟩

/-- What is done to all stacks tells reduced components apart: the empty one shows the names, and one that is deep
enough how far they go up. -/
theorem Reduced.eq_of_lead (h : Reduced done) (h' : Reduced done') (hl : ∀ stack, lead done stack = lead done' stack) :
    done = done' := by
  have hdeep : ∀ (names names' : List Segment) (n : Nat),
      ¬∀ stack : DirStack, names = names' ++ stack.drop n := by
    intro names names' n hall
    have hempty := congrArg List.length (hall [])
    have hfull := congrArg List.length (hall (.replicate (n + 1) .empty))
    simp only [List.length_append, List.length_drop, List.length_replicate, List.length_nil] at hempty hfull
    omega
  obtain ⟨names, rfl | ⟨n, rfl⟩⟩ := h.shape <;> obtain ⟨names', rfl | ⟨n', rfl⟩⟩ := h'.shape <;>
    simp only [lead_names, lead_ups] at hl
  · have hnames := hl []
    simp only [lead, List.foldr_cons, act, List.append_nil] at hnames
    rw [hnames]
  · exact absurd (fun stack => by simpa [lead, act] using hl stack) (hdeep names names' n')
  · exact absurd (fun stack => by simpa [lead, act] using (hl stack).symm) (hdeep names' names n)
  · have hnames := hl []
    rw [List.drop_nil, List.drop_nil, List.append_nil, List.append_nil] at hnames
    have hups := congrArg List.length (hl (.replicate (n + n') .empty))
    simp only [List.length_append, List.length_drop, List.length_replicate, hnames] at hups
    rw [hnames, show n = n' by omega]

end Component

namespace Path

open Component (Reduced lead)

variable {done : List Component} {c : Component} {p q : Path}

/-- `.` alone, or names after the root, or names after as many steps up as the path has. -/
def IsNormal (p : Path) : Prop :=
  p = current ∨ ∃ names : List Segment,
    p.components = .root :: names.map .name ∨ ∃ n, p.components = .replicate n .up ++ names.map .name

/-! ## Absorbing one component after the other -/

theorem reduced_absorb (h : Reduced done) (hc : ∀ s, c = .name s → s.IsName) : Reduced (absorb done c) := by
  cases c with
  | root => exact .root
  | here => exact h
  | name s => exact .name (hc s rfl) h
  | up =>
      cases h with
      | root => exact .root
      | name hs h => exact h
      | ups n =>
          cases n with
          | zero => exact .ups 1
          | succ n => exact .ups (n + 2)

theorem lead_absorb (h : Reduced done) (c : Component) (stack : DirStack) :
    lead (absorb done c) stack = c.act (lead done stack) := by
  cases c with
  | up =>
      cases h with
      | ups n => cases n <;> rfl
      | _ => rfl
  | _ => rfl

theorem root_mem_absorb (h : Reduced done) (c : Component) :
    .root ∈ absorb done c ↔ .root ∈ done ∨ c = .root := by
  cases c with
  | up =>
      cases h with
      | ups n => cases n <;> simp [absorb, List.replicate_succ]
      | root => simp [absorb]
      | name hs h => simp [absorb]
  | root => simp [absorb]
  | here => simp [absorb]
  | name s => simp [absorb]

theorem reduced_foldl_absorb {cs : List Component} (h : Reduced done) (hc : ∀ s, .name s ∈ cs → s.IsName) :
    Reduced (cs.foldl absorb done) ∧
      (∀ stack, lead (cs.foldl absorb done) stack = cs.foldl (fun stack c => c.act stack) (lead done stack)) ∧
      (.root ∈ cs.foldl absorb done ↔ .root ∈ done ∨ .root ∈ cs) := by
  induction cs generalizing done with
  | nil => exact ⟨h, fun _ => rfl, by simp⟩
  | cons c cs ih =>
      have hfirst : Reduced (absorb done c) := reduced_absorb h fun s hs => hc s (hs ▸ List.mem_cons_self)
      obtain ⟨hreduced, hlead, hroot⟩ := ih hfirst fun s hs => hc s (List.mem_cons_of_mem _ hs)
      refine ⟨hreduced, fun stack => ?_, ?_⟩
      · rw [List.foldl_cons, hlead, lead_absorb h, List.foldl_cons]
      · rw [List.foldl_cons, hroot, root_mem_absorb h, List.mem_cons, or_assoc, eq_comm]

/-! ## Components of paths -/

theorem isName_of_mem_components {s : Segment} (h : .name s ∈ p.components) : s.IsName := by
  by_cases hp : p = blank
  · rw [components_eq_nil_iff.mpr hp] at h
    cases h
  · obtain ⟨first, rest, hs⟩ := List.exists_cons_of_ne_nil p.nonempty
    rw [components_of_cons hs hp] at h
    rcases List.mem_cons.mp h with h | h
    · exact Component.isName_of_ofFirst h.symm
    · obtain ⟨t, -, ht⟩ := List.mem_filterMap.mp h
      rcases Component.isLater_of_ofLater ht with he | ⟨t, hn, he⟩
      · cases he
      · cases he
        exact hn

/-- The root comes first or not at all. -/
theorem isAbsolute_iff_root_mem : p.IsAbsolute ↔ .root ∈ p.components := by
  refine ⟨fun h => List.mem_of_head? h, fun h => ?_⟩
  by_cases hp : p = blank
  · rw [components_eq_nil_iff.mpr hp] at h
    cases h
  · obtain ⟨first, rest, hs⟩ := List.exists_cons_of_ne_nil p.nonempty
    have hc := components_of_cons hs hp
    rw [hc] at h
    rcases List.mem_cons.mp h with h | h
    · rw [IsAbsolute, hc, List.head?_cons, ← h]
    · obtain ⟨t, -, ht⟩ := List.mem_filterMap.mp h
      rcases Component.isLater_of_ofLater ht with he | ⟨t, -, he⟩ <;> cases he

theorem components_ofComponents {rest : List Component} (hc : ∀ s, c = .name s → s.IsName)
    (hrest : ∀ d ∈ rest, d.IsLater) : (ofComponents (c :: rest)).components = c :: rest := by
  have hlater : (rest.map (·.segment)).filterMap Component.ofLater = rest := by
    rw [List.filterMap_map]
    exact (List.filterMap_congr fun d hd => Component.ofLater_segment (hrest d hd)).trans List.filterMap_some
  have hspelled : ∀ q : Path, q.segments = c.segment :: rest.map (·.segment) → q ≠ blank →
      q.components = c :: rest := by
    intro q hq hne
    rw [components_of_cons hq hne, Component.ofFirst_segment hc, hlater]
  cases rest with
  | cons d rest => exact hspelled _ (by cases c <;> rfl) (by cases c <;> simp [ofComponents, blank])
  | nil =>
      cases c with
      | root => decide
      | here => decide
      | up => decide
      | name s =>
          refine hspelled _ rfl fun hb => ?_
          exact (hc s rfl).1 (.inl (by simpa [ofComponents, blank, Component.segment] using congrArg segments hb))

/-! ## Normal components -/

theorem reduced_normalComponents (p : Path) : Reduced p.normalComponents.reverse := by
  rw [normalComponents, List.reverse_reverse]
  exact (reduced_foldl_absorb (.ups 0) fun _ => isName_of_mem_components).1

theorem lead_normalComponents (p : Path) (stack : DirStack) : lead p.normalComponents.reverse stack = p.act stack := by
  rw [normalComponents, List.reverse_reverse]
  exact (reduced_foldl_absorb (.ups 0) fun _ => isName_of_mem_components).2.1 stack

theorem root_mem_normalComponents : .root ∈ p.normalComponents ↔ p.IsAbsolute := by
  have habsorbed := (reduced_foldl_absorb (.ups 0) fun _ => isName_of_mem_components (p := p)).2.2
  rw [normalComponents, List.mem_reverse, isAbsolute_iff_root_mem]
  simpa using habsorbed

theorem components_normalize (p : Path) :
    p.normalize.components = if p.normalComponents = [] then [.here] else p.normalComponents := by
  have hreduced := reduced_normalComponents p
  rw [normalize]
  cases hp : p.normalComponents with
  | nil => decide
  | cons c rest =>
      rw [hp] at hreduced
      obtain ⟨hc, hrest⟩ := hreduced.later (List.reverse_reverse _)
      rw [components_ofComponents hc hrest, if_neg (List.cons_ne_nil c rest)]

theorem act_normalize (p : Path) (stack : DirStack) : p.normalize.act stack = p.act stack := by
  rw [← lead_normalComponents p, act, components_normalize]
  split
  · next h => rw [h]; rfl
  · rw [lead, List.foldr_reverse]

theorem normalize_eq_iff : p.normalize = q.normalize ↔ ∀ stack, p.act stack = q.act stack := by
  refine ⟨fun h stack => by rw [← act_normalize p, h, act_normalize], fun h => ?_⟩
  have hr : p.normalComponents.reverse = q.normalComponents.reverse :=
    (reduced_normalComponents p).eq_of_lead (reduced_normalComponents q) fun stack => by
      rw [lead_normalComponents, lead_normalComponents, h]
  rw [normalize, normalize, List.reverse_injective hr]

@[simp]
theorem normalize_normalize (p : Path) : p.normalize.normalize = p.normalize :=
  normalize_eq_iff.mpr (act_normalize p)

@[simp]
theorem isAbsolute_normalize : p.normalize.IsAbsolute ↔ p.IsAbsolute := by
  rw [isAbsolute_iff_root_mem, components_normalize, ← root_mem_normalComponents]
  split
  · next h => simp [h]
  · rfl

theorem isNormal_normalize (p : Path) : p.normalize.IsNormal := by
  obtain ⟨names, h⟩ := (reduced_normalComponents p).shape
  by_cases hp : p.normalComponents = []
  · exact .inl (by rw [normalize, hp]; rfl)
  · rw [IsNormal, components_normalize, if_neg hp, ← List.reverse_reverse p.normalComponents]
    refine .inr ⟨names.reverse, ?_⟩
    rcases h with h | ⟨n, h⟩
    · left
      simp [h]
    · right
      exact ⟨n, by simp [h]⟩

/-! ## Joins -/

theorem act_of_isAbsolute (h : p.IsAbsolute) (stack stack' : DirStack) : p.act stack = p.act stack' := by
  obtain ⟨rest, hrest⟩ := List.head?_eq_some_iff.mp h
  rw [act, act, hrest]
  rfl

theorem foldl_act_unlessHere (cs : List Component) (stack : DirStack) :
    (cs.filterMap unlessHere).foldl (fun stack c => c.act stack) stack =
      cs.foldl (fun stack c => c.act stack) stack := by
  induction cs generalizing stack with
  | nil => rfl
  | cons c cs ih => cases c <;> exact ih _

theorem act_join (base relative : Path) (stack : DirStack) :
    (base.join relative).act stack = relative.act (base.act stack) := by
  by_cases hr : relative.IsAbsolute
  · rw [join, if_pos (.inl hr)]
    exact act_of_isAbsolute hr _ _
  · by_cases hb : base = blank
    · rw [join, if_pos (.inr hb), hb]
      rfl
    · rw [act, components_join hr hb, filterMap_segments hr, List.foldl_append, foldl_act_unlessHere]
      rfl

theorem isAbsolute_join {base relative : Path} :
    (base.join relative).IsAbsolute ↔ base.IsAbsolute ∨ relative.IsAbsolute := by
  by_cases hr : relative.IsAbsolute
  · simp [join, hr]
  · by_cases hb : base = blank
    · subst hb
      simp [join, hr, show ¬blank.IsAbsolute by decide]
    · rw [IsAbsolute, components_join hr hb, List.head?_append_of_ne_nil _ (mt components_eq_nil_iff.mp hb)]
      exact (or_iff_left hr).symm

theorem resolveAgainst_eq_normalize (cwd base relative : Path) :
    resolveAgainst cwd base relative = ((cwd.join base).join relative).normalize := by
  rw [resolveAgainst, normalize_eq_iff]
  intro stack
  simp only [act_join]
  split
  · next h => rw [← act_join, act_of_isAbsolute h]
  · rw [act_join, act_join]

theorem isAbsolute_resolveAgainst {cwd : Path} (h : cwd.IsAbsolute) (base relative : Path) :
    (resolveAgainst cwd base relative).IsAbsolute := by
  rw [resolveAgainst_eq_normalize, isAbsolute_normalize, isAbsolute_join, isAbsolute_join]
  exact .inl (.inl h)

/-- Normal forms are sound and canonical: a normal form leads where the path leads, there is one for all paths that
lead there from everywhere, and it does not matter what is made normal before a join. -/
theorem normalize_canonical (p q base relative cwd : Path) :
    (∀ stack, p.normalize.act stack = p.act stack) ∧
      (p.normalize = q.normalize ↔ ∀ stack, p.act stack = q.act stack) ∧
      p.normalize.IsNormal ∧ p.normalize.normalize = p.normalize ∧ (p.normalize.IsAbsolute ↔ p.IsAbsolute) ∧
      (base.join relative).normalize = (base.normalize.join relative).normalize ∧
      resolveAgainst cwd base relative = ((cwd.join base).join relative).normalize ∧
      ∀ stack, (resolveAgainst cwd base relative).act stack = relative.act (base.act (cwd.act stack)) := by
  refine ⟨act_normalize p, normalize_eq_iff, isNormal_normalize p, normalize_normalize p, isAbsolute_normalize,
    normalize_eq_iff.mpr fun stack => ?_, resolveAgainst_eq_normalize cwd base relative, fun stack => ?_⟩
  · rw [act_join, act_join, act_normalize]
  · rw [resolveAgainst_eq_normalize, act_normalize, act_join, act_join]

example : (ofString "/a/./b/../../../c").normalize = ofString "/c" := by decide +kernel

end Path

end ImportCheck
