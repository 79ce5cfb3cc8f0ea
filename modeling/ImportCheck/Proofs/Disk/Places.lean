import ImportCheck.Disk.Directory
import ImportCheck.Proofs.Path.Absolute

/-!
# Where paths lead on a disk

A disk follows a path segment by segment, but what it comes to is the place that the path leads to by its spelling.
So the paths of one file act alike, and the normal form of an absolute path of a file is a path of that file.
-/

namespace ImportCheck.FileNode

variable {root : FileNode} {stack stack' : DirStack} {p q : Path}

/-- There is something where the names lead, and each of them can be looked up. -/
structure Holds (root : FileNode) (stack : DirStack) : Prop where
  found : ∃ node, root.find? stack.reverse = some node
  short : ∀ s ∈ stack, Text.byteCount s.chars ≤ longestName

theorem find?_append (node : FileNode) (names more : List Segment) :
    node.find? (names ++ more) = (node.find? names).bind (·.find? more) := by
  induction names generalizing node with
  | nil => rfl
  | cons name names ih => simp only [List.cons_append, find?, ih, Option.bind_assoc]

theorem find?_concat (names : List Segment) (s : Segment) :
    root.find? (names ++ [s]) = (root.find? names).bind (·.child? s) := by
  rw [find?_append]
  exact congrArg _ (funext fun node => by simp [find?])

namespace Holds

theorem nil (root : FileNode) : Holds root [] := ⟨⟨root, rfl⟩, by simp⟩

theorem tail (h : Holds root stack) : Holds root stack.tail := by
  cases stack with
  | nil => exact h
  | cons s stack =>
      refine ⟨?_, fun t ht => h.short t (List.mem_cons_of_mem _ ht)⟩
      obtain ⟨node, hn⟩ := h.found
      rw [List.reverse_cons, find?_concat] at hn
      obtain ⟨inner, hi, -⟩ := Option.bind_eq_some_iff.mp hn
      exact ⟨inner, hi⟩

/-- Where a name is entered there is a directory. -/
theorem directory {s : Segment} (h : Holds root (s :: stack)) :
    ∃ entries, root.find? stack.reverse = some (.directory entries) ∧ (entries.find? (·.1 == s)).isSome := by
  obtain ⟨node, hn⟩ := h.found
  rw [List.reverse_cons, find?_concat] at hn
  obtain ⟨inner, hi, hc⟩ := Option.bind_eq_some_iff.mp hn
  cases inner with
  | file content => simp [child?] at hc
  | directory entries =>
      obtain ⟨e, he, -⟩ := Option.map_eq_some_iff.mp (show _ = some node from hc)
      exact ⟨entries, hi, by rw [he]; rfl⟩

theorem of_append {names : List Segment} (h : Holds root (names.reverse ++ stack)) : Holds root stack := by
  induction names generalizing stack with
  | nil => exact h
  | cons s names ih =>
      have hs : Holds root (names.reverse ++ s :: stack) := by simpa using h
      exact (ih hs).tail

end Holds

/-- What segments are followed to is where they lead by their spelling, and it is there. -/
theorem follow_ok {segments : List Segment} (h : root.follow stack segments = .ok stack') (hs : Holds root stack) :
    Holds root stack' ∧
      stack' = (segments.filterMap Component.ofLater).foldl (fun stack c => c.act stack) stack := by
  induction segments generalizing stack with
  | nil =>
      cases h
      exact ⟨hs, rfl⟩
  | cons s rest ih =>
      unfold follow at h
      split at h
      · cases h
      · cases h
      · next entries hd =>
        split at h
        · next hb =>
          rw [List.filterMap_cons, Path.ofLater_of_blank hb]
          exact ih h hs
        · next hb =>
          split at h
          · next hu =>
            have hup : Component.ofLater s = some .up := by rw [Component.ofLater, if_neg hb, if_pos hu]
            rw [List.filterMap_cons, hup]
            exact ih h hs.tail
          · next hu =>
            split at h
            · cases h
            · next hl =>
              split at h
              · next he =>
                have hin : Holds root (s :: stack) := by
                  refine ⟨?_, List.forall_mem_cons.mpr ⟨Nat.not_lt.mp hl, hs.short⟩⟩
                  obtain ⟨e, he⟩ := Option.isSome_iff_exists.mp he
                  exact ⟨e.2, by rw [List.reverse_cons, find?_concat, hd]; simp [child?, he]⟩
                have hname : Component.ofLater s = some (.name s) := by rw [Component.ofLater, if_neg hb, if_neg hu]
                rw [List.filterMap_cons, hname]
                exact ih h hin
              · cases h

/-- Names that are there can be followed. -/
theorem follow_names {names : List Segment} (hn : ∀ s ∈ names, s.IsName) (h : Holds root (names.reverse ++ stack)) :
    root.follow stack names = .ok (names.reverse ++ stack) := by
  induction names generalizing stack with
  | nil => rfl
  | cons s names ih =>
      obtain ⟨hname, hnames⟩ := List.forall_mem_cons.mp hn
      rw [List.reverse_cons, List.append_assoc] at h ⊢
      have hs : Holds root (s :: stack) := Holds.of_append h
      obtain ⟨entries, hd, he⟩ := hs.directory
      have hshort : ¬longestName < Text.byteCount s.chars := Nat.not_lt.mpr (hs.short s List.mem_cons_self)
      rw [follow, hd]
      simp only [if_neg hname.1, if_neg hname.2, if_neg hshort, if_pos he]
      exact ih hnames h

/-! ## Paths of files -/

/-- The path is one of the file that the names lead to. -/
def IsPathOf (root : FileNode) (names : DirStack) (p : Path) : Prop :=
  root.isFile p = true ∧ root.follow [] p.segments = .ok names

/-- The two paths lead to one file. -/
def SameFile (root : FileNode) (p q : Path) : Prop := ∃ names, root.IsPathOf names p ∧ root.IsPathOf names q

/-- A path can be looked up if it has no character that ends it, and is not too long. -/
def Allowed (p : Path) : Prop :=
  '\x00' ∉ p.chars ∧ p ≠ .blank ∧ Text.byteCount p.chars ≤ longestPath

theorem isFile_iff : root.isFile p = true ↔ Allowed p ∧ ∃ names content, root.follow [] p.segments = .ok names ∧
    root.find? names.reverse = some (.file content) := by
  unfold isFile locate Allowed
  by_cases h0 : '\x00' ∈ p.chars
  · simp [h0]
  · by_cases hb : p = .blank
    · simp [hb, show '\x00' ∉ Path.blank.chars by decide]
    · by_cases hl : longestPath < Text.byteCount p.chars
      · simp [h0, hb, hl]
      · cases hf : root.follow [] p.segments with
        | error e => simp [h0, hb, hl]
        | ok names =>
            cases hn : root.find? names.reverse with
            | none => simp [h0, hb, hl, hn, emptyDirectory]
            | some node => cases node <;> simp [h0, hb, hl, hn, Nat.not_lt.mp hl]

theorem act_of_follow {names : DirStack} (h : root.follow [] p.segments = .ok names) (hp : p ≠ .blank) :
    Holds root names ∧ names = p.act [] := by
  obtain ⟨s, rest, hs⟩ := List.exists_cons_of_ne_nil p.nonempty
  obtain ⟨hh, ha⟩ := follow_ok h (Holds.nil root)
  refine ⟨hh, ha.trans ?_⟩
  rw [Path.act, Path.components_of_cons hs hp, hs, List.filterMap_cons, List.foldl_cons]
  unfold Component.ofLater Component.ofFirst Segment.Blank
  by_cases he : s = .empty
  · simp [he, Component.act]
  · by_cases hd : s = .dot
    · simp [hd, Component.act, show Segment.dot ≠ .empty by decide]
    · by_cases hu : s = .dotDot
      · simp [hu, Component.act, show Segment.dotDot ≠ .empty by decide, show Segment.dotDot ≠ .dot by decide]
      · simp [he, hd, hu]

theorem isPathOf_iff {names : DirStack} : root.IsPathOf names p ↔ root.isFile p = true ∧ names = p.act [] := by
  refine and_congr_right fun hp => ?_
  obtain ⟨⟨-, hb, -⟩, stack, content, hf, -⟩ := isFile_iff.mp hp
  rw [hf, Except.ok.injEq, (act_of_follow hf hb).2, eq_comm]

/-- Two absolute paths of files lead to one file exactly if they have one normal form. -/
theorem sameFile_iff (hp : root.isFile p = true) (hq : root.isFile q = true) (ha : p.IsAbsolute) (hb : q.IsAbsolute) :
    root.SameFile p q ↔ p.normalize = q.normalize := by
  have hact : root.SameFile p q ↔ p.act [] = q.act [] := by
    simp [SameFile, isPathOf_iff, hp, hq]
  rw [hact, Path.normalize_eq_iff]
  refine ⟨fun h stack => ?_, fun h => h []⟩
  rw [Path.act_of_isAbsolute ha stack [], h, Path.act_of_isAbsolute hb [] stack]

theorem isFile_normalize (h : root.isFile p = true) (ha : p.IsAbsolute) : root.isFile p.normalize = true := by
  obtain ⟨⟨h0, hb, hl⟩, names, content, hf, hn⟩ := isFile_iff.mp h
  obtain ⟨hh, rfl⟩ := act_of_follow hf hb
  -- The file lies in a directory, so that it is not where a path starts.
  obtain ⟨entries, hd⟩ : ∃ entries, root = .directory entries := by
    obtain ⟨s, rest, hs⟩ := List.exists_cons_of_ne_nil p.nonempty
    rw [hs] at hf
    cases root with
    | file content => simp [follow, find?] at hf
    | directory entries => exact ⟨entries, rfl⟩
  have hne : p.act [] ≠ [] := by
    intro he
    rw [he, hd] at hn
    simp [find?] at hn
  obtain ⟨hcount, hchars⟩ := Path.chars_normalize ha hne
  have hsegments := Path.segments_normalize ha hne
  refine isFile_iff.mpr ⟨⟨fun h => h0 (hchars _ h (by decide)), ?_, hcount.trans hl⟩, p.act [], content, ?_, hn⟩
  · intro hblank
    rw [hblank] at hsegments
    simp [Path.blank, hne] at hsegments
  · have hnames : ∀ s ∈ (p.act []).reverse, s.IsName := fun s hs =>
      Path.isName_of_mem_act ha (List.mem_reverse.mp hs)
    have hfollow := follow_names hnames (show Holds root (_ ++ []) by simpa using hh)
    rw [hsegments, follow]
    simpa [hd, find?, Segment.Blank] using hfollow

end ImportCheck.FileNode
