import ImportCheck.Value.Basic
import Mathlib.Data.List.Induction
import Mathlib.Data.List.Nodup
import Mathlib.Data.List.Sort
import Mathlib.Data.String.Basic

/-!
# Fields of an object

An object has its fields in key order, each key once. Whatever is set keeps it so, and such fields are known by what is
under each key. Laying one object over another unites them key by key.
-/

namespace ImportCheck

/-- With one entry for a key, what is there is what is found. -/
theorem mem_iff_find? {α : Type} {entries : List (String × α)} {key : String} {a : α}
    (h : (entries.map (·.1)).Nodup) : (key, a) ∈ entries ↔ (entries.find? (·.1 == key)).map (·.2) = some a := by
  constructor
  · intro hm
    obtain ⟨e, he⟩ := Option.isSome_iff_exists.mp
      (List.find?_isSome.mpr ⟨(key, a), hm, beq_self_eq_true _⟩ : (entries.find? (·.1 == key)).isSome)
    have hkey : e.1 = key := by simpa using List.find?_some he
    rw [he, List.inj_on_of_nodup_map h (List.mem_of_find?_eq_some he) hm hkey, Option.map_some]
  · intro hfind
    obtain ⟨e, he, rfl⟩ := Option.map_eq_some_iff.mp hfind
    have hkey : e.1 = key := by simpa using List.find?_some he
    exact hkey ▸ List.mem_of_find?_eq_some he

namespace Fields

variable {fields lower upper : Fields} {key k : String} {v : Value}

/-- The fields are in key order, each key once. -/
def Ascending (fields : Fields) : Prop := fields.Pairwise fun f g => f.1 < g.1

instance : Decidable (Ascending fields) := inferInstanceAs (Decidable (List.Pairwise _ _))

theorem get?_cons : get? ((key, v) :: fields) k = if key = k then some v else get? fields k := by
  unfold get?
  by_cases h : key = k <;> simp [h]

/-- What was put under a key is found there, and nothing else has changed. -/
theorem get?_set : get? (set fields key v) k = if key = k then some v else get? fields k := by
  induction fields with
  | nil => exact get?_cons
  | cons f rest ih =>
      obtain ⟨k', w⟩ := f
      unfold set
      split
      · rename_i h
        subst h
        simp only [get?_cons]
        split <;> rfl
      · rename_i hne
        split
        · exact get?_cons
        · simp only [get?_cons, ih]
          by_cases h : k' = k
          · simp [h, show key ≠ k from fun he => hne (he.trans h.symm)]
          · simp [h]

theorem eq_or_mem_of_mem_set {f : String × Value} (h : f ∈ set fields key v) : f = (key, v) ∨ f ∈ fields := by
  induction fields with
  | nil => exact .inl (List.mem_singleton.mp h)
  | cons g rest ih =>
      obtain ⟨k', w⟩ := g
      unfold set at h
      split at h
      · rcases List.mem_cons.mp h with h | h
        exacts [.inl h, .inr (List.mem_cons_of_mem _ h)]
      · split at h
        · exact List.mem_cons.mp h
        · rcases List.mem_cons.mp h with h | h
          · exact .inr (h ▸ List.mem_cons_self)
          · exact (ih h).imp_right (List.mem_cons_of_mem _)

theorem Ascending.set (h : Ascending fields) : Ascending (fields.set key v) := by
  induction fields with
  | nil => exact List.pairwise_singleton ..
  | cons f rest ih =>
      obtain ⟨k', w⟩ := f
      obtain ⟨hfirst, hrest⟩ := List.pairwise_cons.mp h
      unfold Fields.set
      split
      · rename_i heq
        exact List.pairwise_cons.mpr ⟨heq ▸ hfirst, hrest⟩
      · rename_i hne
        split
        · rename_i hlt
          refine List.pairwise_cons.mpr ⟨fun g hg => ?_, h⟩
          rcases List.mem_cons.mp hg with rfl | hg
          exacts [hlt, hlt.trans (hfirst g hg)]
        · rename_i hle
          refine List.pairwise_cons.mpr ⟨fun g hg => ?_, ih hrest⟩
          rcases eq_or_mem_of_mem_set hg with rfl | hg
          exacts [lt_of_le_of_ne (not_lt.mp hle) (Ne.symm hne), hfirst g hg]

theorem Ascending.nodup (h : Ascending fields) : (fields.map (·.1)).Nodup :=
  List.pairwise_map.mpr (h.imp fun hlt => hlt.ne)

theorem mem_iff_get? (h : (fields.map (·.1)).Nodup) : (key, v) ∈ fields ↔ get? fields key = some v :=
  mem_iff_find? h

theorem Ascending.eq_of_mem_iff (hl : Ascending lower) (hu : Ascending upper) (h : ∀ f, f ∈ lower ↔ f ∈ upper) :
    lower = upper := by
  have : Std.Irrefl fun f g : String × Value => f.1 < g.1 := ⟨fun f => lt_irrefl f.1⟩
  have : Std.Antisymm fun f g : String × Value => f.1 < g.1 :=
    ⟨fun _ _ hlt hgt => absurd hgt hlt.asymm⟩
  exact List.Pairwise.eq_of_mem_iff hl hu h

theorem Ascending.ext (hl : Ascending lower) (hu : Ascending upper) (h : ∀ k, get? lower k = get? upper k) :
    lower = upper :=
  hl.eq_of_mem_iff hu fun _ => by rw [mem_iff_get? hl.nodup, mem_iff_get? hu.nodup, h]

theorem get?_filter (p : String → Bool) :
    get? (fields.filter fun f => p f.1) k = if p k then get? fields k else none := by
  unfold get?
  rw [List.find?_filter]
  split
  · rename_i h
    congr 1
    refine congrArg (fun q => fields.find? q) (funext fun f => ?_)
    by_cases hf : f.1 = k <;> simp [hf, h]
  · rename_i h
    rw [Option.map_eq_none_iff, List.find?_eq_none]
    intro f _ hf
    obtain ⟨hp, rfl⟩ : p f.1 = true ∧ f.1 = k := by simpa using hf
    exact h hp

theorem Ascending.filter (h : Ascending fields) (p : String × Value → Bool) : Ascending (fields.filter p) :=
  List.Pairwise.filter p h

/-! ## Fields from a list -/

theorem ofList_concat (fields : List (String × Value)) : ofList (fields ++ [(key, v)]) = set (ofList fields) key v := by
  simp [ofList, List.foldl_append]

theorem ascending_ofList (fields : List (String × Value)) : Ascending (ofList fields) := by
  induction fields using List.reverseRecOn with
  | nil => exact List.Pairwise.nil
  | append_singleton fields f ih => exact ofList_concat fields ▸ ih.set

theorem mem_of_mem_ofList {f : String × Value} (h : f ∈ ofList fields) : f ∈ fields := by
  induction fields using List.reverseRecOn with
  | nil => exact h
  | append_singleton fields g ih =>
      rw [List.mem_append, List.mem_singleton]
      exact (eq_or_mem_of_mem_set (ofList_concat fields ▸ h)).symm.imp_left ih

/-- Of several fields with one key the last one stands. -/
theorem get?_ofList (fields : List (String × Value)) : get? (ofList fields) k = get? fields.reverse k := by
  induction fields using List.reverseRecOn with
  | nil => rfl
  | append_singleton fields f ih => rw [ofList_concat, get?_set, ih, List.reverse_concat, get?_cons]

theorem mem_iff_get?_ofList {fields : List (String × Value)} (h : (fields.map (·.1)).Nodup) :
    (key, v) ∈ fields ↔ get? (ofList fields) key = some v := by
  have hreverse : (fields.reverse.map (·.1)).Nodup := List.map_reverse ▸ List.nodup_reverse.mpr h
  rw [get?_ofList, ← mem_iff_get? hreverse, List.mem_reverse]

theorem mem_of_get?_ofList {fields : List (String × Value)} (h : get? (ofList fields) key = some v) :
    (key, v) ∈ fields :=
  mem_of_mem_ofList ((mem_iff_get? (ascending_ofList fields).nodup).mpr h)

theorem ofList_eq_self (h : Ascending fields) : ofList fields = fields := by
  refine (ascending_ofList fields).ext h fun k => Option.ext fun v => ?_
  rw [← mem_iff_get?_ofList h.nodup, ← mem_iff_get? h.nodup]

end Fields

namespace Value

variable {lower upper : Fields} {key k : String} {v : Value}

theorem mergeFields_cons {rest : Fields} : mergeFields lower ((key, v) :: rest) =
    mergeFields (Fields.set lower key (((Fields.get? lower key).map (merge · v)).getD v)) rest := by
  rw [mergeFields]
  cases Fields.get? lower key <;> rfl

theorem ascending_mergeFields (h : Fields.Ascending lower) : Fields.Ascending (mergeFields lower upper) := by
  induction upper generalizing lower with
  | nil => rwa [mergeFields]
  | cons f rest ih => exact mergeFields_cons ▸ ih h.set

/-- Objects are united key by key. -/
theorem get?_mergeFields (h : Fields.Ascending upper) : Fields.get? (mergeFields lower upper) k =
    match Fields.get? upper k with
    | some v => some (((Fields.get? lower k).map (merge · v)).getD v)
    | none => Fields.get? lower k := by
  induction upper generalizing lower with
  | nil => rw [mergeFields]; rfl
  | cons f rest ih =>
      obtain ⟨key, v⟩ := f
      obtain ⟨hfirst, hrest⟩ := List.pairwise_cons.mp h
      rw [mergeFields_cons, ih hrest, Fields.get?_set, Fields.get?_cons]
      by_cases hk : key = k
      · subst hk
        have hnone : Fields.get? rest key = none := by
          rw [Fields.get?, List.find?_eq_none.mpr fun g hg => by simpa using (hfirst g hg).ne', Option.map_none]
        simp [hnone]
      · simp [hk]

end Value

end ImportCheck
