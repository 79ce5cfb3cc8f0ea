import ImportCheck.Options.Key
import ImportCheck.Proofs.Lemmas.Ascii
import ImportCheck.Proofs.Lemmas.Text
import Mathlib.Data.List.Nodup
import Mathlib.Tactic.ByContra

/-!
# Canonical option keys

The canonical key is the key without underscores, in some case; so it is its own canonical key. A listed name is the
canonical key of its spellings alone, and case matters only to a key without underscores that is no such spelling.
-/

namespace ImportCheck

namespace OptionKey

variable {cs ds : List Char}

theorem toLower_eq_underscore_iff {c : Char} : c.toLower = '_' ↔ c = '_' := Text.toLower_eq_iff rfl

theorem map_toLower_map_toLower : (cs.map Char.toLower).map Char.toLower = cs.map Char.toLower := by
  simp [Text.toLower_toLower]

theorem underscore_mem_map_toLower : '_' ∈ cs.map Char.toLower ↔ '_' ∈ cs := by
  simp [toLower_eq_underscore_iff]

theorem underscore_not_mem_fold : '_' ∉ fold cs := by
  rw [fold, underscore_mem_map_toLower]
  simp

theorem fold_of_not_mem (h : '_' ∉ cs) : fold cs = cs.map Char.toLower := by
  rw [fold, List.filter_eq_self.mpr fun c hc => by simpa using ne_of_mem_of_not_mem hc h]

theorem flatten_words : (words cs).flatten = cs.filter (· != '_') := by
  have hwords : words cs = (Text.splitOn '_' cs).filter fun w => decide (w ≠ []) :=
    List.filter_congr fun w _ => by cases w <;> rfl
  rw [hwords, List.flatten_filter_ne_nil, Text.flatten_splitOn]

theorem map_toLower_capitalize : (capitalize cs).map Char.toLower = cs.map Char.toLower := by
  cases cs <;> simp [capitalize, Text.toLower_toUpper]

theorem map_toLower_camelCase : (camelCase cs).map Char.toLower = fold cs := by
  have hall (ws : List (List Char)) :
      ((ws.map (·.map Char.toLower)).flatMap capitalize).map Char.toLower = ws.flatten.map Char.toLower := by
    induction ws with
    | nil => rfl
    | cons w ws ih => simp [map_toLower_capitalize, Text.toLower_toLower, ih]
  rw [fold, ← flatten_words, camelCase]
  cases words cs with
  | nil => rfl
  | cons first rest =>
      calc (first.map Char.toLower ++ (rest.map (·.map Char.toLower)).flatMap capitalize).map Char.toLower
          = (first.map Char.toLower).map Char.toLower ++ rest.flatten.map Char.toLower := by
            rw [List.map_append, hall]
        _ = (first :: rest).flatten.map Char.toLower := by
            rw [map_toLower_map_toLower, List.flatten_cons, List.map_append]

theorem underscore_not_mem_known {name : String} (h : name ∈ known) : '_' ∉ name.toList :=
  (by decide +kernel : ∀ name ∈ known, '_' ∉ name.toList) name h

/-- The canonical key is the key without underscores, but for the case of its letters. -/
theorem map_toLower_canonicalChars : (canonicalChars cs).map Char.toLower = fold cs := by
  unfold canonicalChars
  split
  · rename_i name hname
    have hfold : fold name.toList = fold cs := by simpa using List.find?_some hname
    rw [← hfold, fold_of_not_mem (underscore_not_mem_known (List.mem_of_find?_eq_some hname))]
  · split
    · exact map_toLower_camelCase
    · rename_i h
      exact (fold_of_not_mem (by simpa using h)).symm

theorem underscore_not_mem_canonicalChars : '_' ∉ canonicalChars cs := by
  rw [← underscore_mem_map_toLower, map_toLower_canonicalChars]
  exact underscore_not_mem_fold

theorem fold_canonicalChars : fold (canonicalChars cs) = fold cs := by
  rw [fold_of_not_mem underscore_not_mem_canonicalChars, map_toLower_canonicalChars]

theorem canonicalChars_canonicalChars : canonicalChars (canonicalChars cs) = canonicalChars cs := by
  rw [canonicalChars, fold_canonicalChars]
  cases h : known.find? fun name => fold name.toList == fold cs with
  | some name => simp [canonicalChars, h]
  | none => simp [underscore_not_mem_canonicalChars]

/-- A canonical key is its own canonical key. -/
theorem canonical_canonical (key : String) : canonical (canonical key) = canonical key := by
  simp [canonical, canonicalChars_canonicalChars]

/-! ## Spellings of one option -/

/-- Equal but for the case of ASCII letters. -/
def EqButCase (cs ds : List Char) : Prop := cs.map Char.toLower = ds.map Char.toLower

/-- The key without its underscores is a name, in some case. -/
def Spells (key name : String) : Prop := EqButCase (key.toList.filter (· != '_')) name.toList

theorem spells_iff_fold {key name : String} (h : name ∈ known) :
    Spells key name ↔ fold name.toList = fold key.toList := by
  rw [Spells, EqButCase, ← fold, fold_of_not_mem (underscore_not_mem_known h)]
  exact eq_comm

/-- No two listed names differ in case only. -/
theorem fold_inj_of_mem_known {name name' : String} (h : name ∈ known) (h' : name' ∈ known)
    (hfold : fold name.toList = fold name'.toList) : name = name' :=
  List.inj_on_of_nodup_map (by decide +kernel : (known.map (fold ·.toList)).Nodup) h h' hfold

theorem canonical_of_spells {key name : String} (h : name ∈ known) (hs : Spells key name) : canonical key = name := by
  rw [spells_iff_fold h] at hs
  rw [canonical, canonicalChars]
  cases hf : known.find? fun name => fold name.toList == fold key.toList with
  | some name' =>
      have hname' : fold name'.toList = fold key.toList := by simpa using List.find?_some hf
      have : name' = name := fold_inj_of_mem_known (List.mem_of_find?_eq_some hf) h (hname'.trans hs.symm)
      simp [this]
  | none => exact absurd hs (by simpa using List.find?_eq_none.mp hf name h)

theorem canonical_of_not_spells {key : String} (h : ∀ name ∈ known, ¬Spells key name) (hu : '_' ∉ key.toList) :
    canonical key = key := by
  have hnone : (known.find? fun name => fold name.toList == fold key.toList) = none :=
    List.find?_eq_none.mpr fun name hname => by simpa [spells_iff_fold hname] using h name hname
  simp [canonical, canonicalChars, hnone, hu]

/-- A listed name is the canonical key of its spellings, and of nothing else. -/
theorem canonical_eq_iff_spells {key name : String} (h : name ∈ known) : canonical key = name ↔ Spells key name := by
  refine ⟨fun hc => ?_, canonical_of_spells h⟩
  rw [spells_iff_fold h, ← hc, canonical, String.toList_ofList, fold_canonicalChars]

/-! ## Keys in lower case -/

theorem filter_map_toLower : (cs.map Char.toLower).filter (· != '_') = (cs.filter (· != '_')).map Char.toLower := by
  rw [List.filter_map]
  refine congrArg _ (List.filter_congr fun c _ => ?_)
  simp only [Function.comp_apply, bne, beq_eq_decide, toLower_eq_underscore_iff]

theorem spells_toLower_iff {key name : String} : Spells (key.map Char.toLower) name ↔ Spells key name := by
  rw [Spells, Spells, String.toList_map, filter_map_toLower, EqButCase, EqButCase, map_toLower_map_toLower]

theorem camelCase_map_toLower : camelCase (cs.map Char.toLower) = camelCase cs := by
  have hwords : words (cs.map Char.toLower) = (words cs).map (·.map Char.toLower) := by
    rw [words, Text.splitOn_map fun _ => toLower_eq_underscore_iff, List.filter_map]
    refine congrArg _ (List.filter_congr fun w _ => ?_)
    cases w <;> rfl
  have hagain : ((words cs).map (·.map Char.toLower)).map (·.map Char.toLower) =
      (words cs).map (·.map Char.toLower) := by
    rw [List.map_map]
    exact List.map_congr_left fun w _ => map_toLower_map_toLower
  rw [camelCase, hwords, hagain, ← camelCase]

/-- Where there is an underscore, the words get their case anew. -/
theorem canonical_toLower_of_mem {key : String} (h : '_' ∈ key.toList) :
    canonical (key.map Char.toLower) = canonical key := by
  have hfold : fold (key.toList.map Char.toLower) = fold key.toList := by
    rw [fold, filter_map_toLower, map_toLower_map_toLower, fold]
  simp [canonical, canonicalChars, hfold, h, underscore_mem_map_toLower.mpr h, camelCase_map_toLower]

/-- A key may be brought to lower case first exactly if it has an underscore, is a spelling of a listed name, or is in
lower case. -/
theorem canonical_toLower_eq_iff {key : String} : canonical (key.map Char.toLower) = canonical key ↔
    '_' ∈ key.toList ∨ (∃ name ∈ known, Spells key name) ∨ key.map Char.toLower = key := by
  constructor
  · intro hc
    by_contra! hno
    obtain ⟨hu, hlisted, hlower⟩ := hno
    have hu' : '_' ∉ (key.map Char.toLower).toList := by
      rwa [String.toList_map, underscore_mem_map_toLower]
    rw [canonical_of_not_spells hlisted hu,
      canonical_of_not_spells (fun name hname => mt spells_toLower_iff.mp (hlisted name hname)) hu'] at hc
    exact hlower hc
  · rintro (hu | ⟨name, hname, hs⟩ | hlower)
    · exact canonical_toLower_of_mem hu
    · rw [canonical_of_spells hname hs, canonical_of_spells hname (spells_toLower_iff.mpr hs)]
    · rw [hlower]

/-- The canonical key is the key without underscores, in some case, and its own canonical key. It is a listed name
exactly if the key is a spelling of that name. Bringing a key to lower case first makes no difference if it has an
underscore or is a spelling of a listed name, and else only if it is in lower case already. -/
theorem canonical_retracts_spellings (key : String) :
    ('_' ∉ (canonical key).toList ∧ Spells key (canonical key)) ∧
    (∀ name ∈ known, canonical key = name ↔ Spells key name) ∧
    canonical (canonical key) = canonical key ∧
    (canonical (key.map Char.toLower) = canonical key ↔
      '_' ∈ key.toList ∨ (∃ name ∈ known, Spells key name) ∨ key.map Char.toLower = key) := by
  refine ⟨⟨?_, ?_⟩, fun name h => canonical_eq_iff_spells h, canonical_canonical key, canonical_toLower_eq_iff⟩
  · simpa [canonical] using underscore_not_mem_canonicalChars
  · rw [Spells, EqButCase, canonical, String.toList_ofList, map_toLower_canonicalChars, fold]

end OptionKey

end ImportCheck
