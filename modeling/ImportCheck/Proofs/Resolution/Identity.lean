import ImportCheck.Proofs.Disk.Places
import ImportCheck.Proofs.Path.Ancestors
import ImportCheck.Proofs.Resolution.NodeModules

/-!
# One path for a file

What a path-like specifier means, and what a manifest declares, is made normal before it is looked at. What the name of
a package means is not, so that a step up inside of the name stays in the answer, and one file has several paths.
-/

namespace ImportCheck

theorem Path.prefix_of_mem_ancestors {a d : Path} (h : a ∈ d.ancestors) :
    a.components <+: d.components ∧ (d.IsAbsolute → a.IsAbsolute) := by
  have hstart : a.components ∈ d.starts := by
    have := List.mem_map_of_mem (f := components) h
    rwa [d.components_ancestors, List.mem_reverse] at this
  unfold starts at hstart
  split at hstart
  · next habs =>
    obtain ⟨rest, hrest⟩ := List.head?_eq_some_iff.mp habs
    rw [hrest, List.inits_cons, List.tail_cons] at hstart
    obtain ⟨front, hfront, he⟩ := List.mem_map.mp hstart
    refine ⟨?_, fun _ => by rw [IsAbsolute, ← he]; rfl⟩
    rw [← he, hrest]
    exact (List.prefix_cons_inj _).mpr ((List.mem_inits _ _).mp hfront)
  · next habs => exact ⟨(List.mem_inits _ _).mp hstart, fun h => absurd h habs⟩

namespace NodeModules

variable {v : Volume} {directory target p q : Path} {specifier : String}

/-- The directory is named in full and in normal form. -/
def Proper (directory : Path) : Prop := directory.IsAbsolute ∧ directory.normalize.Same directory

instance (directory : Path) : Decidable (Proper directory) := inferInstanceAs (Decidable (_ ∧ _))

/-- What some specifier means in some directory. -/
def IsAnswer (v : Volume) (p : Path) : Prop :=
  ∃ directory specifier, Proper directory ∧ ((resolver v).answer directory specifier).result = .ok p

/-! ## The targets of a specifier -/

theorem not_isAbsolute_of_not_isPathLike (h : isPathLike specifier = false) :
    ¬(Path.ofString specifier).IsAbsolute := by
  intro ha
  simp [isPathLike, ha] at h

/-- All targets are absolute, and they step up if the specifier names a package and steps up itself. -/
theorem targets_absolute (hd : Proper directory) (ht : target ∈ targets directory specifier) :
    target.IsAbsolute ∧
      (.up ∈ target.components ↔ isPathLike specifier = false ∧ .up ∈ (Path.ofString specifier).components) := by
  unfold targets at ht
  split at ht
  · next hs =>
    obtain rfl := List.mem_singleton.mp ht
    have habs : (directory.join (Path.ofString specifier)).normalize.IsAbsolute :=
      Path.isAbsolute_normalize.mpr (Path.isAbsolute_join.mpr (.inl hd.1))
    have hnormal := (Path.same_normalize_iff habs).mp (by rw [Path.normalize_normalize]; exact .refl _)
    simp [habs, hnormal, hs]
  · next hs =>
    rw [Bool.not_eq_true] at hs
    obtain ⟨a, ha, rfl⟩ := List.mem_map.mp ht
    obtain ⟨hinit, habs⟩ := Path.prefix_of_mem_ancestors ha
    have hup : .up ∉ a.components := fun h => (Path.same_normalize_iff hd.1).mp hd.2 (hinit.mem h)
    refine ⟨Path.isAbsolute_join.mpr (.inl (Path.isAbsolute_join.mpr (.inl (habs hd.1)))), ?_⟩
    rw [Path.up_mem_join (not_isAbsolute_of_not_isPathLike hs), Path.up_mem_join (by decide)]
    simp [hs, hup, show Component.up ∉ packageDirectory.components by decide]

theorem mem_entries (h : p ∈ entries v target) :
    declared? v target = some p ∨ p = target ∨ ∃ index ∈ indexFiles, p = target.join index := by
  unfold entries at h
  split at h
  · simp only [List.mem_cons, List.mem_append, Option.mem_toList, List.mem_map] at h
    rcases h with rfl | h | ⟨index, hi, rfl⟩
    · exact .inr (.inl rfl)
    · exact .inl h
    · exact .inr (.inr ⟨index, hi, rfl⟩)
  · exact .inr (.inl (List.mem_singleton.mp h))

theorem declared?_normal (ht : target.IsAbsolute) (h : declared? v target = some p) :
    p.IsAbsolute ∧ p.normalize = p := by
  unfold declared? at h
  split at h
  · cases h
  · obtain ⟨m, -, h⟩ := Option.bind_eq_some_iff.mp h
    obtain ⟨entry, -, h⟩ := Option.bind_eq_some_iff.mp h
    cases h
    exact ⟨Path.isAbsolute_normalize.mpr (Path.isAbsolute_join.mpr (.inl ht)), Path.normalize_normalize _⟩

/-- A target and its index files step up alike. -/
theorem up_mem_of_not_declared (h : p = target ∨ ∃ index ∈ indexFiles, p = target.join index) :
    (target.IsAbsolute → p.IsAbsolute) ∧ (.up ∈ p.components ↔ .up ∈ target.components) := by
  rcases h with rfl | ⟨index, hi, rfl⟩
  · exact ⟨id, .rfl⟩
  · have hindex : ¬index.IsAbsolute ∧ .up ∉ index.components := by
      revert index
      decide
    exact ⟨fun ht => Path.isAbsolute_join.mpr (.inl ht), by rw [Path.up_mem_join hindex.1]; simp [hindex.2]⟩

/-! ## Answers -/

theorem mem_targets_of_find (h : find v directory specifier = .ok p) :
    v.isFile p = true ∧ ∃ target ∈ targets directory specifier, p ∈ entries v target := by
  have hfound := (find_eq_ok_iff v directory).mp h
  refine ⟨List.find?_some hfound, ?_⟩
  obtain ⟨target, ht, hp⟩ := List.mem_flatMap.mp (List.mem_of_find?_eq_some hfound)
  exact ⟨target, ht, hp⟩

theorem isAbsolute_of_find (hd : Proper directory) (h : find v directory specifier = .ok p) : p.IsAbsolute := by
  obtain ⟨-, target, ht, hp⟩ := mem_targets_of_find h
  rcases mem_entries hp with hp | hp
  · exact (declared?_normal (targets_absolute hd ht).1 hp).1
  · exact (up_mem_of_not_declared hp).1 (targets_absolute hd ht).1

/-- An answer is in normal form unless it comes from the name of a package that steps up, and is not declared by a
manifest. -/
theorem normal_find_iff (hd : Proper directory) (h : find v directory specifier = .ok p) :
    p.normalize.Same p ↔ isPathLike specifier = true ∨ .up ∉ (Path.ofString specifier).components ∨
      ∃ target ∈ targets directory specifier, declared? v target = some p := by
  obtain ⟨-, target, ht, hp⟩ := mem_targets_of_find h
  obtain ⟨habs, hup⟩ := targets_absolute hd ht
  by_cases hdeclared : ∃ target ∈ targets directory specifier, declared? v target = some p
  · obtain ⟨target', ht', hp'⟩ := hdeclared
    have hnormal := (declared?_normal (targets_absolute hd ht').1 hp').2
    exact iff_of_true (by rw [hnormal]; exact .refl p) (.inr (.inr ⟨target', ht', hp'⟩))
  · have hp : p = target ∨ ∃ index ∈ indexFiles, p = target.join index :=
      (mem_entries hp).resolve_left fun hp => hdeclared ⟨target, ht, hp⟩
    rw [Path.same_normalize_iff ((up_mem_of_not_declared hp).1 habs), (up_mem_of_not_declared hp).2, hup]
    simp only [hdeclared, or_false, not_and_or, Bool.not_eq_false]

theorem isAnswer_iff : IsAnswer v p ↔ ∃ directory specifier, Proper directory ∧ find v directory specifier = .ok p :=
  .rfl

theorem IsAnswer.isFile (h : IsAnswer v p) : v.isFile p = true ∧ p.IsAbsolute := by
  obtain ⟨directory, specifier, hd, h⟩ := isAnswer_iff.mp h
  exact ⟨(mem_targets_of_find h).1, isAbsolute_of_find hd h⟩

/-- The normal form of an answer is an answer, to itself as a specifier. -/
theorem IsAnswer.normalize {root : FileNode} (h : IsAnswer root p) : IsAnswer root p.normalize := by
  obtain ⟨hfile, habs⟩ := h.isFile
  have hfile' : root.isFile p.normalize = true := FileNode.isFile_normalize hfile habs
  have habs' : p.normalize.IsAbsolute := Path.isAbsolute_normalize.mpr habs
  refine isAnswer_iff.mpr ⟨.root, p.normalize.toString, by decide, ?_⟩
  have hlike : isPathLike p.normalize.toString = true := by simp [isPathLike, Path.ofString_toString, habs']
  have htargets : targets .root p.normalize.toString = [p.normalize] := by
    rw [targets, if_pos hlike, Path.ofString_toString, Path.join, if_pos (.inl habs'), Path.normalize_normalize]
  rw [find_eq_ok_iff, candidates, htargets, List.flatMap_singleton, entries]
  exact List.find?_cons_of_pos hfile'

/-- Answers that name one file have one normal form. They are one path if both are in normal form, as all answers are
but those to the name of a package that steps up, where no manifest declares them. So a file has one path among all
answers exactly if all answers are in normal form. -/
theorem answers_identify_files (root : FileNode) :
    (∀ p q, IsAnswer root p → IsAnswer root q → (root.SameFile p q ↔ p.normalize = q.normalize)) ∧
      (∀ directory specifier p, Proper directory → ((resolver root).answer directory specifier).result = .ok p →
        (p.normalize.Same p ↔ isPathLike specifier = true ∨ .up ∉ (Path.ofString specifier).components ∨
          ∃ target ∈ targets directory specifier, declared? root target = some p)) ∧
      ((∀ p q, IsAnswer root p → IsAnswer root q → root.SameFile p q → p.Same q) ↔
        ∀ p, IsAnswer root p → p.normalize.Same p) := by
  have hsame : ∀ p q, IsAnswer root p → IsAnswer root q → (root.SameFile p q ↔ p.normalize = q.normalize) :=
    fun p q hp hq => FileNode.sameFile_iff hp.isFile.1 hq.isFile.1 hp.isFile.2 hq.isFile.2
  refine ⟨hsame, fun directory specifier p hd h => normal_find_iff hd h, ?_, ?_⟩
  · intro h p hp
    exact h _ _ hp.normalize hp ((hsame _ _ hp.normalize hp).mpr (Path.normalize_normalize p))
  · intro h p q hp hq hpq
    have hnormal := (hsame p q hp hq).mp hpq
    exact (h p hp).symm.trans (hnormal ▸ h q hq)

/-! ## A package with two names -/

namespace Twice

/-- The only file is the index file of a package. -/
def disk : FileNode := FileNode.emptyDirectory.putFile (.ofString "/p/node_modules/pkg/index.ts") .empty

def base : Path := .ofString "/p"

def straight : Path := .ofString "/p/node_modules/pkg/index.ts"

def winding : Path := .ofString "/p/node_modules/pkg/../pkg/index.ts"

theorem proper_base : Proper base := by decide

theorem find_straight : ((resolver disk).answer base "pkg").result = .ok straight := by rfl

theorem find_winding : ((resolver disk).answer base "pkg/../pkg").result = .ok winding := by rfl

end Twice

open Twice in
/-- The two answers name one file, and only the first is in normal form. -/
theorem answers_identify_files_package :
    disk.SameFile straight winding ∧ straight.normalize.Same straight ∧ ¬winding.normalize.Same winding :=
  have answers := answers_identify_files disk
  ⟨(answers.1 _ _ ⟨_, _, proper_base, find_straight⟩ ⟨_, _, proper_base, find_winding⟩).mpr (by decide),
    (answers.2.1 _ _ _ proper_base find_straight).mpr (.inr (.inl (by decide))),
    fun h => by
      rcases (answers.2.1 _ _ _ proper_base find_winding).mp h with h | h | ⟨target, ht, h⟩
      · exact absurd h (by decide)
      · exact absurd h (by decide)
      · revert target
        decide +kernel⟩

open Twice in
/-- One file has two paths among the answers, and the second is not in normal form. -/
theorem answers_name_file_twice : Proper base ∧
    ((resolver disk).answer base "pkg").result = .ok straight ∧
      ((resolver disk).answer base "pkg/../pkg").result = .ok winding ∧
        disk.SameFile straight winding ∧ ¬straight.Same winding ∧ ¬winding.normalize.Same winding :=
  ⟨proper_base, find_straight, find_winding,
    (FileNode.sameFile_iff (by decide) (by decide) (by decide) (by decide)).mpr (by decide), by decide, by decide⟩

end NodeModules

end ImportCheck
