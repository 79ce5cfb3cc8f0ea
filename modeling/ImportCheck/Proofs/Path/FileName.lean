import ImportCheck.Proofs.Path.Normal

/-!
# File names, extensions and directories

The file name of a path is its last component, when that is a name. It has an extension exactly if it has a point that
is not its first character. The directory of a file leads where the components before the last one lead.
-/

namespace ImportCheck

theorem Segment.isSome_extension? (s : Segment) :
    s.extension?.isSome = true ↔ '.' ∈ s.chars.tail ∧ s ≠ .dotDot := by
  have hskip : ∀ {cs ds : List Char}, '.' ∉ cs → (cs ++ ds).dropWhile (· != '.') = ds.dropWhile (· != '.') :=
    fun h => List.dropWhile_append_of_pos fun c hc => bne_iff_ne.mpr fun he => h (he ▸ hc)
  unfold extension?
  cases hs : s.chars with
  | nil => simp
  | cons c rest =>
      -- Seen from the end, the first point decides unless it is the first character.
      by_cases hrest : '.' ∈ rest
      · obtain ⟨after, stem, hsplit, hafter⟩ := List.eq_append_cons_of_mem (List.mem_reverse.mpr hrest)
        have hback : (rest.reverse ++ [c]).dropWhile (· != '.') = '.' :: (stem ++ [c]) := by
          rw [hsplit, List.append_assoc, hskip hafter]
          rfl
        simp [hback, hrest]
      · have hback : (rest.reverse ++ [c]).dropWhile (· != '.') = [c].dropWhile (· != '.') :=
          hskip fun h => hrest (List.mem_reverse.mp h)
        by_cases hc : c = '.'
        · subst hc
          simp [hback, hrest]
        · simp [hback, hrest, hc]

namespace Path

variable {p : Path} {s : Segment}

/-- The segment of a component that is a name. -/
def nameOf? : Component → Option Segment
  | .name s => some s
  | _ => none

theorem nameOf?_ofFirst (hs : s ≠ .empty) :
    nameOf? (Component.ofFirst s) = if s = .dot ∨ s = .dotDot then none else some s := by
  unfold Component.ofFirst
  by_cases hd : s = .dot
  · simp [hd, nameOf?, show Segment.dot ≠ .empty by decide]
  · by_cases hu : s = .dotDot
    · simp [hu, nameOf?, show Segment.dotDot ≠ .empty by decide, show Segment.dotDot ≠ .dot by decide]
    · simp [hs, hd, hu, nameOf?]

theorem ofLater_eq_ofFirst (hs : ¬s.Blank) : Component.ofLater s = some (Component.ofFirst s) := by
  obtain ⟨he, hd⟩ := not_or.mp hs
  rw [Component.ofLater, if_neg hs, Component.ofFirst, if_neg he, if_neg hd]
  split <;> rfl

theorem fileName?_eq (p : Path) : p.fileName? = p.components.getLast?.bind nameOf? := by
  obtain ⟨s, rest, hs⟩ := List.exists_cons_of_ne_nil p.nonempty
  by_cases hp : p = blank
  · subst hp
    rfl
  · have hlater : rest.filterMap Component.ofLater =
        ((rest.reverse.dropWhile (decide ·.Blank)).reverse).filterMap Component.ofLater := by
      rw [List.filterMap_reverse, filterMap_dropWhile, List.filterMap_reverse, List.reverse_reverse]
    rw [components_of_cons hs hp, hlater, fileName?, splitLast]
    simp only [hs]
    cases hd : rest.reverse.dropWhile (decide ·.Blank) with
    | nil =>
        by_cases he : s = .empty
        · simp [he, Component.ofFirst, nameOf?]
        · simp [he, nameOf?_ofFirst]
    | cons last before =>
        have hblank : ¬last.Blank := by
          have := List.head?_dropWhile_not (decide ·.Blank) rest.reverse
          simpa [hd] using this
        simp [List.filterMap_append, ofLater_eq_ofFirst hblank, nameOf?_ofFirst (mt Or.inl hblank),
          List.getLast?_cons]

theorem isSome_extension?_iff (p : Path) :
    p.extension?.isSome = true ↔ ∃ name, p.components.getLast? = some (.name name) ∧ '.' ∈ name.chars.tail := by
  have hname : ∀ {name}, p.components.getLast? = some (.name name) → name ≠ .dotDot := fun h =>
    (isName_of_mem_components (List.mem_of_getLast? h)).2
  rw [extension?, fileName?_eq]
  cases hl : p.components.getLast? with
  | none => simp
  | some c =>
      cases c with
      | name name => simp [nameOf?, Segment.isSome_extension?, hname hl]
      | _ => simp [nameOf?]

/-- A text that ends in characters of a name spells a path whose last segment ends in them. -/
theorem exists_segments_ofChars_append (cs : List Char) (suffix : Segment) :
    ∃ before last, (ofChars (cs ++ suffix.chars)).segments = before ++ [last] ∧ suffix.chars <:+ last.chars := by
  unfold ofChars
  induction cs with
  | nil => exact ⟨[], suffix, by simp [cut_segment], List.suffix_refl _⟩
  | cons c cs ih =>
      obtain ⟨before, last, hs, hl⟩ := ih
      simp only [List.cons_append, cut] at hs ⊢
      by_cases hc : c = '/'
      · exact ⟨.empty :: before, last, by simp [hc, hs], hl⟩
      · cases before with
        | nil =>
            obtain ⟨rfl, hrest⟩ := List.cons_eq_cons.mp hs
            exact ⟨[], .cons c _ hc, by simp [hc, hrest], hl.trans (List.suffix_cons c _)⟩
        | cons s before =>
            obtain ⟨-, hrest⟩ := List.cons_eq_cons.mp hs
            exact ⟨.cons c (cut (cs ++ suffix.chars)).1 hc :: before, last, by simp [hc, hrest], hl⟩

theorem getLast?_components {before : List Segment} {last : Segment} (hs : p.segments = before ++ [last])
    (hl : last.IsName) : p.components.getLast? = some (.name last) := by
  have hp : p ≠ blank := by
    rintro rfl
    obtain ⟨rfl, he⟩ : [] = before ∧ Segment.empty = last := by cases before <;> simp_all [blank]
    exact hl.1 (.inl he.symm)
  have hname : Component.ofFirst last = .name last := Component.ofFirst_segment (c := .name last) fun t ht => by
    cases ht
    exact hl
  cases before with
  | nil => rw [components_of_cons hs hp, hname]; rfl
  | cons s before =>
      rw [components_of_cons hs hp]
      simp [List.filterMap_append, ofLater_eq_ofFirst hl.1, hname, List.getLast?_cons]

/-! ## Directories -/

theorem act_directory (file : Path) (stack : DirStack) :
    file.directory.act stack = file.components.dropLast.foldl (fun stack c => c.act stack) stack := by
  unfold directory
  rcases parent?_eq file with ⟨hp, hc | hc⟩ | ⟨d, c, hp, hc, -⟩
  · simp only [hp, hc]
    rfl
  · simp only [hp, hc]
    rfl
  · rw [hc, List.dropLast_concat]
    simp only [hp]
    split
    · next hd =>
      rw [components_eq_nil_iff.mpr hd]
      rfl
    · rfl

theorem isAbsolute_directory {file : Path} (h : file.IsAbsolute) (hr : file.components ≠ [.root]) :
    file.directory.IsAbsolute := by
  unfold directory
  rcases parent?_eq file with ⟨-, hc | hc⟩ | ⟨d, c, hp, hc, -⟩
  · rw [IsAbsolute, hc] at h
    cases h
  · exact absurd hc hr
  · have hd : d ≠ blank := by
      rintro rfl
      rw [show blank.components = [] from rfl, List.nil_append] at hc
      rw [IsAbsolute, hc, List.head?_cons, Option.some.injEq] at h
      exact hr (h ▸ hc)
    rw [IsAbsolute, hc, List.head?_append_of_ne_nil _ (mt components_eq_nil_iff.mp hd)] at h
    simp only [hp, if_neg hd]
    exact h

end Path

end ImportCheck
