import ImportCheck.Proofs.Lemmas.Order
import ImportCheck.Proofs.Lemmas.Store
import Mathlib.Data.List.Induction

/-!
# A store after any writes

What a store answers about a place is read off the writes that made it: the text is the one that was written last, and
the version counts the updates since the latest seeding that were unchecked or brought another text. As long as a place
is not seeded again, a version stands for one text.
-/

namespace ImportCheck

/-- A text that a store is given. -/
inductive Write
  | seed (p : Path) (text : String)
  | update (p : Path) (text : String) (checked : Bool)

namespace Write

def path : Write → Path
  | seed p _ => p
  | update p _ _ => p

def text : Write → String
  | seed _ text => text
  | update _ text _ => text

/-- The write is about the place, under whichever spelling. -/
def Names (w : Write) (p : Path) : Prop := w.path.Same p

instance (w : Write) (p : Path) : Decidable (w.Names p) := inferInstanceAs (Decidable (Path.Same _ _))

def Seeds : Write → Path → Prop
  | seed q _, p => q.Same p
  | update _ _ _, _ => False

instance (w : Write) (p : Path) : Decidable (w.Seeds p) :=
  match w with
  | seed _ _ => inferInstanceAs (Decidable (Path.Same _ _))
  | update _ _ _ => inferInstanceAs (Decidable False)

/-- The text of the last write that is about the place. -/
def lastText (ws : List Write) (p : Path) : Option String :=
  (ws.reverse.find? fun w => decide (w.Names p)).map (·.text)

/-- After these writes, the next one is an update of a place that has a text, and it is unchecked or brings another
text. -/
def Counts (before : List Write) : Write → Path → Prop
  | seed _ _, _ => False
  | update q text checked, p =>
      q.Same p ∧ (∃ w ∈ before, w.Names p) ∧ (checked = false ∨ lastText before p ≠ some text)

instance (before : List Write) (w : Write) (p : Path) : Decidable (w.Counts before p) :=
  match w with
  | seed _ _ => inferInstanceAs (Decidable False)
  | update _ _ _ => inferInstanceAs (Decidable (_ ∧ _ ∧ _))

/-- The positions of the writes that count for the version of the place: those of its updates that count and that no
seeding of it comes after. -/
def counted (ws : List Write) (p : Path) : List Nat :=
  (List.range ws.length).filter fun i =>
    (ws[i]?.any fun w => decide (w.Counts (ws.take i) p)) && (ws.drop (i + 1)).all fun w => decide ¬w.Seeds p

/-- The paths of the writes, each place once and as it was spelled first. -/
def firstPaths (ws : List Write) : List Path :=
  (ws.map path).eraseDupsBy fun p q => decide (p.Same q)

variable {ws : List Write} {w : Write} {p : Path}

theorem Seeds.names (h : w.Seeds p) : w.Names p := by
  cases w with
  | seed q text => exact h
  | update q text checked => exact h.elim

theorem Counts.names (h : w.Counts ws p) : w.Names p := by
  cases w with
  | seed q text => exact h.elim
  | update q text checked => exact h.1

theorem Counts.not_seeds (h : w.Counts ws p) : ¬w.Seeds p := by
  cases w with
  | seed q text => exact h.elim
  | update q text checked => exact id

theorem lastText_concat (ws : List Write) (w : Write) (p : Path) :
    lastText (ws ++ [w]) p = if w.Names p then some w.text else lastText ws p := by
  by_cases h : w.Names p <;> simp [lastText, h]

theorem lastText_isSome : (lastText ws p).isSome = true ↔ ∃ w ∈ ws, w.Names p := by
  simp [lastText, List.find?_isSome]

/-- A seeding starts the count again, and an update that counts is one more. -/
theorem counted_concat (ws : List Write) (w : Write) (p : Path) :
    counted (ws ++ [w]) p =
      if w.Seeds p then [] else if w.Counts ws p then counted ws p ++ [ws.length] else counted ws p := by
  have hearlier : ∀ i ∈ List.range ws.length,
      (((ws ++ [w])[i]?.any fun v => decide (v.Counts ((ws ++ [w]).take i) p)) &&
        ((ws ++ [w]).drop (i + 1)).all fun v => decide ¬v.Seeds p) =
      (decide (¬w.Seeds p) && ((ws[i]?.any fun v => decide (v.Counts (ws.take i) p)) &&
        (ws.drop (i + 1)).all fun v => decide ¬v.Seeds p)) := by
    intro i hi
    have hlt : i < ws.length := List.mem_range.mp hi
    rw [List.getElem?_append_left hlt, List.take_append_of_le_length (Nat.le_of_lt hlt),
      List.drop_append_of_le_length hlt, List.all_append, ← Bool.and_assoc, Bool.and_comm]
    simp
  unfold counted
  rw [List.length_append, List.length_singleton, List.range_succ, List.filter_append, List.filter_congr hearlier]
  by_cases hs : w.Seeds p
  · have hn : ¬w.Counts ws p := fun h => h.not_seeds hs
    simp [hs, hn]
  · by_cases hc : w.Counts ws p <;> simp [hs, hc]

theorem counted_of_not_named (h : ¬∃ w ∈ ws, w.Names p) : counted ws p = [] := by
  refine List.filter_eq_nil_iff.mpr fun i _ hi => h ?_
  obtain ⟨w, hw, hc⟩ := (Option.any_eq_true _ _).mp (Bool.and_eq_true_iff.mp hi).1
  exact ⟨w, List.mem_of_getElem? hw, (of_decide_eq_true hc).names⟩

/-- A path is kept if no earlier one names its place. -/
theorem eraseDupsBy_concat (ps : List Path) (q : Path) :
    (ps ++ [q]).eraseDupsBy (fun p q => decide (p.Same q)) =
      ps.eraseDupsBy (fun p q => decide (p.Same q)) ++ if ∃ p ∈ ps, p.Same q then [] else [q] := by
  induction hn : ps.length using Nat.strongRecOn generalizing ps with
  | _ n ih =>
      cases ps with
      | nil => simp [List.eraseDupsBy_cons]
      | cons a ps =>
          rw [List.cons_append, List.eraseDupsBy_cons, List.eraseDupsBy_cons, List.filter_append, List.cons_append]
          by_cases h : q.Same a
          · have hex : ∃ p ∈ a :: ps, p.Same q := ⟨a, List.mem_cons_self, h.symm⟩
            rw [if_pos hex]
            simp [h]
          · -- what the first path hides is not at the place of the last one
            have hex : (∃ p ∈ ps.filter fun b => decide (decide (b.Same a) = false), p.Same q) ↔
                ∃ p ∈ a :: ps, p.Same q := by
              simp only [List.mem_filter, decide_eq_true_eq, decide_eq_false_iff_not, List.mem_cons]
              constructor
              · rintro ⟨p, ⟨hp, -⟩, hs⟩
                exact ⟨p, .inr hp, hs⟩
              · rintro ⟨p, rfl | hp, hs⟩
                · exact absurd hs.symm h
                · exact ⟨p, ⟨hp, fun hpa => h (hs.symm.trans hpa)⟩, hs⟩
            have hshorter : (ps.filter fun b => decide (decide (b.Same a) = false)).length < n := by
              rw [← hn, List.length_cons]
              exact Nat.lt_succ_of_le (List.length_filter_le _ _)
            have hlast : [q].filter (fun b => decide (decide (b.Same a) = false)) = [q] := by simp [h]
            rw [hlast, ih _ hshorter _ rfl]
            simp only [hex]

theorem firstPaths_concat (ws : List Write) (w : Write) :
    firstPaths (ws ++ [w]) = firstPaths ws ++ if ∃ v ∈ ws, v.Names w.path then [] else [w.path] := by
  have hex : (∃ p ∈ ws.map path, p.Same w.path) ↔ ∃ v ∈ ws, v.Names w.path := by
    simp only [List.mem_map, exists_exists_and_eq_and, Names]
  unfold firstPaths
  rw [List.map_append, List.map_singleton, eraseDupsBy_concat]
  simp only [hex]

end Write

namespace FileStore

def apply (s : FileStore) : Write → FileStore
  | .seed p text => s.add p text
  | .update p text checked => (s.update p text checked).1

/-- The store that the writes make of the empty one. -/
def ofWrites (ws : List Write) : FileStore := ws.foldl apply ∅

variable {s s' : FileStore} {ws : List Write} {w : Write} {p : Path}

theorem ofWrites_concat (ws : List Write) (w : Write) : ofWrites (ws ++ [w]) = (ofWrites ws).apply w := by
  simp [ofWrites]

/-! ## One write -/

theorem get?_apply_of_not_names (h : ¬w.Names p) : (s.apply w).get? p = s.get? p := by
  cases w with
  | seed q text => exact (get?_add s q text p).trans (if_neg h)
  | update q text checked => exact (get?_update s q text checked p).trans (if_neg h)

/-- What a write leaves at a place depends on what was there and on nothing else. -/
theorem get?_apply_congr (w : Write) (h : s.get? p = s'.get? p) : (s.apply w).get? p = (s'.apply w).get? p := by
  by_cases hw : w.Names p
  · cases w with
    | seed q text => simp only [apply, get?_add, h]
    | update q text checked =>
        have hs : q.Same p := hw
        have hq : s.get? q = s'.get? q := by rw [s.get?_congr hs, s'.get?_congr hs, h]
        simp only [apply, get?_update, h, hq]
  · rw [get?_apply_of_not_names hw, get?_apply_of_not_names hw, h]

theorem update_snd (s : FileStore) (p : Path) (text : String) (checked : Bool) :
    (s.update p text checked).2 = true ↔ s.contains p = false ∨ checked = false ∨ s.text? p ≠ some text := by
  rw [contains_eq_isSome]
  unfold update text?
  cases h : s.get? p with
  | none => simp
  | some r =>
      by_cases hc : checked = true ∧ r.text = text
      · simp [hc]
      · have hchange : checked = false ∨ r.text ≠ text := by
          by_cases hk : checked = true
          · exact .inr fun ht => hc ⟨hk, ht⟩
          · exact .inl (Bool.not_eq_true _ ▸ hk)
        simp [hc, hchange]

/-- Where a write is no seeding, it leaves the text and the version of a place or raises the version. -/
theorem apply_of_not_seeds (h : ¬w.Seeds p) {r : SourceRecord} (hr : s.get? p = some r) :
    ∃ r', (s.apply w).get? p = some r' ∧
      (r'.version = r.version ∧ r'.text = r.text ∨ r'.version = r.version + 1) := by
  by_cases hw : w.Names p
  · cases w with
    | seed q text => exact absurd hw h
    | update q text checked =>
        have hs : q.Same p := hw
        rw [apply, get?_update, if_pos hs, (s.get?_congr hs).trans hr]
        by_cases hc : checked = true ∧ r.text = text
        · exact ⟨r, by simp [hc], .inl ⟨rfl, rfl⟩⟩
        · exact ⟨{ r with text, version := r.version + 1 }, by simp only [if_neg hc], .inr rfl⟩
  · exact ⟨r, (get?_apply_of_not_names hw).trans hr, .inl ⟨rfl, rfl⟩⟩

theorem fileNames_update (s : FileStore) (p : Path) (text : String) (checked : Bool) :
    (s.update p text checked).1.fileNames = if s.contains p then s.fileNames else s.fileNames ++ [p] := by
  unfold update
  cases h : s.get? p with
  | none => exact PathMap.keys_insert _ p _
  | some r =>
      have hc : s.contains p = true := by rw [contains_eq_isSome, h, Option.isSome_some]
      by_cases hk : checked = true ∧ r.text = text
      · simp only [if_pos hk, if_pos hc]
      · simp only [if_neg hk]
        exact PathMap.keys_insert _ p _

theorem fileNames_apply (s : FileStore) (w : Write) :
    (s.apply w).fileNames = if s.contains w.path then s.fileNames else s.fileNames ++ [w.path] := by
  cases w with
  | seed q text => exact PathMap.keys_insert _ q _
  | update q text checked => exact s.fileNames_update q text checked

/-! ## All writes -/

/-- The text and the version that a place has are those that the writes say. -/
theorem record_ofWrites (ws : List Write) (p : Path) :
    ((ofWrites ws).get? p).map (fun r => (r.text, r.version)) =
      (Write.lastText ws p).map fun text => (text, (Write.counted ws p).length) := by
  induction ws using List.reverseRecOn with
  | nil => rfl
  | append_singleton ws w ih =>
      rw [ofWrites_concat, Write.lastText_concat, Write.counted_concat]
      by_cases hw : w.Names p
      · rw [if_pos hw]
        cases w with
        | seed q text =>
            have hs : q.Same p := hw
            simp [apply, get?_add, hs, Write.Seeds, Write.text]
        | update q text checked =>
            have hs : q.Same p := hw
            have hn : ¬(Write.update q text checked).Seeds p := id
            rw [if_neg hn, apply, get?_update, if_pos hs, get?_congr _ hs]
            cases hr : (ofWrites ws).get? p with
            | none =>
                rw [hr, Option.map_none, eq_comm, Option.map_eq_none_iff] at ih
                have hnamed : ¬∃ w ∈ ws, w.Names p := by rw [← Write.lastText_isSome, ih]; simp
                have hc : ¬(Write.update q text checked).Counts ws p := fun h => hnamed h.2.1
                simp [hc, Write.counted_of_not_named hnamed, Write.text]
            | some r =>
                rw [hr, Option.map_some, eq_comm, Option.map_eq_some_iff] at ih
                obtain ⟨t, hlast, he⟩ := ih
                obtain ⟨rfl, hversion⟩ := Prod.mk.inj he
                have hnamed : ∃ w ∈ ws, w.Names p := Write.lastText_isSome.mp (by rw [hlast]; rfl)
                have hc : (Write.update q text checked).Counts ws p ↔ ¬(checked = true ∧ r.text = text) := by
                  simp [Write.Counts, hs, hnamed, hlast, ← Bool.not_eq_true, or_iff_not_imp_left]
                by_cases hk : checked = true ∧ r.text = text
                · simp only [if_neg (mt hc.mp (not_not_intro hk)), if_pos hk]
                  simp [hversion, ← hk.2, Write.text]
                · simp only [if_pos (hc.mpr hk), if_neg hk]
                  simp [hversion, Write.text]
      · have hs : ¬w.Seeds p := fun h => hw h.names
        have hc : ¬w.Counts ws p := fun h => hw h.names
        rw [if_neg hw, if_neg hs, if_neg hc, get?_apply_of_not_names hw, ih]

theorem text?_ofWrites (ws : List Write) (p : Path) : (ofWrites ws).text? p = Write.lastText ws p := by
  simpa [FileStore.text?, Function.comp_def] using congrArg (Option.map Prod.fst) (record_ofWrites ws p)

theorem contains_ofWrites (ws : List Write) (p : Path) :
    (ofWrites ws).contains p = true ↔ ∃ w ∈ ws, w.Names p := by
  rw [contains_eq_isSome, ← Write.lastText_isSome, ← text?_ofWrites, text?, Option.isSome_map]

theorem version?_ofWrites (ws : List Write) (p : Path) :
    (ofWrites ws).version? p = if ∃ w ∈ ws, w.Names p then some (Write.counted ws p).length else none := by
  have h : (ofWrites ws).version? p = (Write.lastText ws p).map fun _ => (Write.counted ws p).length := by
    simpa [FileStore.version?, Function.comp_def] using congrArg (Option.map Prod.snd) (record_ofWrites ws p)
  rw [h]
  cases ht : Write.lastText ws p with
  | none => simp [← Write.lastText_isSome, ht]
  | some text => simp [← Write.lastText_isSome, ht]

theorem update_ofWrites (ws : List Write) (p : Path) (text : String) (checked : Bool) :
    ((ofWrites ws).update p text checked).2 = true ↔
      (¬∃ w ∈ ws, w.Names p) ∨ (Write.update p text checked).Counts ws p := by
  rw [update_snd, text?_ofWrites, ← Bool.not_eq_true, contains_ofWrites]
  by_cases h : ∃ w ∈ ws, w.Names p <;> simp [Write.Counts, Path.Same.refl, h]

/-- Only the writes about a place matter to it. -/
theorem get?_ofWrites_filter (ws : List Write) (p : Path) :
    (ofWrites (ws.filter fun w => decide (w.Names p))).get? p = (ofWrites ws).get? p := by
  induction ws using List.reverseRecOn with
  | nil => rfl
  | append_singleton ws w ih =>
      rw [List.filter_append, ofWrites_concat]
      by_cases hw : w.Names p
      · rw [List.filter_singleton, decide_eq_true hw, cond_true, ofWrites_concat]
        exact get?_apply_congr w ih
      · rw [List.filter_singleton, decide_eq_false hw, cond_false, List.append_nil, get?_apply_of_not_names hw]
        exact ih

theorem fileNames_ofWrites (ws : List Write) : (ofWrites ws).fileNames = Write.firstPaths ws := by
  induction ws using List.reverseRecOn with
  | nil => rfl
  | append_singleton ws w ih =>
      rw [ofWrites_concat, fileNames_apply, ih, Write.firstPaths_concat]
      simp only [contains_ofWrites]
      split <;> simp

/-- While a place is not seeded its version never falls, and as long as it stays the text stays. -/
theorem record_of_not_seeded (ws : List Write) {later : List Write} (h : ∀ w ∈ later, ¬w.Seeds p) {r : SourceRecord}
    (hr : (ofWrites ws).get? p = some r) :
    ∃ r', (ofWrites (ws ++ later)).get? p = some r' ∧ r.version ≤ r'.version ∧
      (r'.version = r.version → r'.text = r.text) := by
  induction later using List.reverseRecOn with
  | nil => exact ⟨r, by rwa [List.append_nil], Nat.le_refl _, fun _ => rfl⟩
  | append_singleton later w ih =>
      rw [List.forall_mem_append, List.forall_mem_singleton] at h
      obtain ⟨r₁, hr₁, hle, htext⟩ := ih h.1
      obtain ⟨r₂, hr₂, hstep⟩ := apply_of_not_seeds h.2 hr₁
      rw [← List.append_assoc, ofWrites_concat]
      refine ⟨r₂, hr₂, ?_⟩
      rcases hstep with ⟨hv, ht⟩ | hv
      · exact ⟨by omega, fun he => ht.trans (htext (by omega))⟩
      · exact ⟨by omega, fun he => absurd he (by omega)⟩

/-- The store answers what the writes say. -/
structure Holds (s : FileStore) (ws : List Write) : Prop where
  contains : ∀ p, s.contains p = true ↔ ∃ w ∈ ws, w.Names p
  text? : ∀ p, s.text? p = Write.lastText ws p
  version? : ∀ p, s.version? p = if ∃ w ∈ ws, w.Names p then some (Write.counted ws p).length else none
  update : ∀ p text checked, (s.update p text checked).2 = true ↔
    (¬∃ w ∈ ws, w.Names p) ∨ (Write.update p text checked).Counts ws p
  fileNames : s.fileNames = Write.firstPaths ws
  distinct : (s.fileNames.map Path.components).Nodup
  listed : ∀ p, s.contains p = true ↔ ∃ q ∈ s.fileNames, q.Same p

end FileStore

/-- After any writes to the empty store, under any spellings. A place is tracked if a write was about it; its text is
that of the last such write, and its version the number of its updates that counted since its latest seeding, or else
since the write that brought it in. An update says so if it brings its place in or counts. Writes about other places
make no difference. The names are the first spellings, in the order of their first writes, each place once. From one
moment to a later one with no seeding of a place between them, its version does not fall, and where it is the same
so is the text. -/
theorem store_of_writes (ws : List Write) :
    (FileStore.ofWrites ws).Holds ws ∧
      (∀ p, (FileStore.ofWrites (ws.filter fun w => decide (w.Names p))).get? p = (FileStore.ofWrites ws).get? p) ∧
      ∀ p later, (∀ w ∈ later, ¬w.Seeds p) → ∀ r, (FileStore.ofWrites ws).get? p = some r →
        ∃ r', (FileStore.ofWrites (ws ++ later)).get? p = some r' ∧ r.version ≤ r'.version ∧
          (r'.version = r.version → r'.text = r.text) := by
  refine ⟨?_, FileStore.get?_ofWrites_filter ws, fun p later h r hr => FileStore.record_of_not_seeded ws h hr⟩
  constructor
  case contains => exact FileStore.contains_ofWrites ws
  case text? => exact FileStore.text?_ofWrites ws
  case version? => exact FileStore.version?_ofWrites ws
  case update => exact FileStore.update_ofWrites ws
  case fileNames => exact FileStore.fileNames_ofWrites ws
  case distinct => exact (FileStore.ofWrites ws).records.distinct_keys
  case listed => exact fun p => PathMap.contains_iff_key

/-- Two spellings are one place: of three updates after the seeding, the one that brings the stored text and is checked
does not count. -/
example : Write.counted
    [.seed (.ofString "/p/a.ts") "x", .update (.ofString "/p//a.ts") "y" true, .update (.ofString "/p/a.ts") "y" true,
      .update (.ofString "/p/./a.ts") "y" false] (.ofString "/p/a.ts") = [1, 3] := by
  decide +kernel

end ImportCheck
