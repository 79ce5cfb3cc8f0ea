import ImportCheck.Resolution.NodeModules

/-!
# Searches as lists

What a specifier may mean in a directory is a list of places. A search finds the first of them that is a file, whatever
goes wrong on the way.
-/

namespace ImportCheck.NodeModules

/-- The entry that the manifest of a directory declares. A manifest that is missing, or cannot be read, or is no
manifest, declares none. -/
def declared? (v : Volume) (directory : Path) : Option Path :=
  match v.read (directory.join manifestName) with
  | .error _ => none
  | .ok text => do
    let manifest ← PackageManifest.ofText? text
    let entry ← manifest.entry?
    return (directory.join (Path.ofString entry)).normalize

/-- What a target may be entered by: itself, and in a directory the declared entry before the index files. -/
def entries (v : Volume) (target : Path) : List Path :=
  target :: if v.isDirectory target then (declared? v target).toList ++ indexFiles.map target.join else []

/-- What a specifier is about: one place for a path, and for a package one in every directory from the nearest
outwards. -/
def targets (directory : Path) (specifier : String) : List Path :=
  if isPathLike specifier then [(directory.join (Path.ofString specifier)).normalize]
  else directory.ancestors.map fun ancestor => (ancestor.join packageDirectory).join (Path.ofString specifier)

def candidates (v : Volume) (directory : Path) (specifier : String) : List Path :=
  (targets directory specifier).flatMap (entries v)

variable (v : Volume) (directory target specifier : Path)

theorem orElse_snd (first : Search) (second : Unit → Search) :
    (first.orElse second).2 = first.2.or (second ()).2 := by
  obtain ⟨reports, found⟩ := first
  cases found <;> rfl

theorem manifestEntry_snd : (manifestEntry v directory).2 = (declared? v directory).toList.find? (v.isFile ·) := by
  cases hr : v.read (directory.join manifestName) with
  | error e => simp [manifestEntry, declared?, hr]
  | ok text =>
      cases hm : PackageManifest.ofText? text with
      | none => simp [manifestEntry, declared?, hr, hm]
      | some manifest =>
          cases he : manifest.entry? with
          | none => simp [manifestEntry, declared?, hr, hm, he]
          | some entry =>
              by_cases hf : v.isFile (directory.join (Path.ofString entry)).normalize <;>
                simp [manifestEntry, declared?, hr, hm, he, hf]

theorem ofPath_snd : (ofPath v target).2 = (entries v target).find? (v.isFile ·) := by
  unfold ofPath entries
  by_cases hf : v.isFile target
  · simp [hf]
  · by_cases hd : v.isDirectory target
    · simp [hf, hd, orElse_snd, manifestEntry_snd, indexEntry]
    · simp [hf, hd]

theorem ofPackage_snd (ancestors : List Path) :
    (ofPackage v specifier ancestors).2 =
      ((ancestors.map fun ancestor => (ancestor.join packageDirectory).join specifier).flatMap (entries v)).find?
        (v.isFile ·) := by
  induction ancestors with
  | nil => rfl
  | cons ancestor outer ih =>
      rw [ofPackage, orElse_snd, ih, ofPath_snd, List.map_cons, List.flatMap_cons, List.find?_append]

theorem search_snd (specifier : String) :
    (search v directory specifier).2 = (candidates v directory specifier).find? (v.isFile ·) := by
  unfold search candidates targets
  split
  · rw [ofPath_snd, List.flatMap_singleton]
  · exact ofPackage_snd v _ _

theorem find_eq_ok_iff {specifier : String} {p : Path} :
    find v directory specifier = .ok p ↔ (candidates v directory specifier).find? (v.isFile ·) = some p := by
  rw [find, search_snd]
  split <;> simp [*]

theorem find_eq_error_iff {specifier : String} {e : ResolverFault} :
    find v directory specifier = .error e ↔
      e = notFound directory specifier ∧ (candidates v directory specifier).find? (v.isFile ·) = none := by
  rw [find, search_snd]
  split <;> simp [*, eq_comm]

end ImportCheck.NodeModules
