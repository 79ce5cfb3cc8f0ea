import ImportCheck.Text.Search
import Mathlib.Data.List.Infix
import Mathlib.Data.List.TakeWhile

/-!
# Marks in a text

Where a text is cut by a mark that it holds, and what is left of it without the blanks around it.
-/

namespace ImportCheck.Text

variable {c m : Char} {cs ds mark ms before after rest : List Char}

/-! ## The parts between the occurrences of a character -/

theorem splitOn_ne_nil (c : Char) (cs : List Char) : splitOn c cs ≠ [] := by
  cases cs with
  | nil => simp [splitOn]
  | cons d ds =>
      unfold splitOn
      split
      · simp
      · split <;> simp

/-- Splitting only leaves out the mark. -/
theorem flatten_splitOn (c : Char) (cs : List Char) : (splitOn c cs).flatten = cs.filter (· != c) := by
  induction cs with
  | nil => rfl
  | cons d ds ih =>
      obtain ⟨first, rest, hds⟩ := List.exists_cons_of_ne_nil (splitOn_ne_nil c ds)
      rw [hds] at ih
      unfold splitOn
      rw [hds]
      by_cases h : d = c
      · simpa [h] using ih
      · simpa [h] using ih

theorem splitOn_of_not_mem (h : c ∉ cs) : splitOn c cs = [cs] := by
  induction cs with
  | nil => rfl
  | cons d ds ih =>
      obtain ⟨hd, hds⟩ := not_or.mp (mt List.mem_cons.mpr h)
      simp [splitOn, ih hds, Ne.symm hd]

theorem splitOn_append_cons (h : c ∉ cs) (ds : List Char) : splitOn c (cs ++ c :: ds) = cs :: splitOn c ds := by
  induction cs with
  | nil =>
      obtain ⟨first, rest, hds⟩ := List.exists_cons_of_ne_nil (splitOn_ne_nil c ds)
      simp [splitOn, hds]
  | cons d cs ih =>
      obtain ⟨hd, hcs⟩ := not_or.mp (mt List.mem_cons.mpr h)
      simp [splitOn, ih hcs, Ne.symm hd]

theorem splitOn_map {f : Char → Char} (h : ∀ d, f d = c ↔ d = c) :
    splitOn c (cs.map f) = (splitOn c cs).map (·.map f) := by
  induction cs with
  | nil => rfl
  | cons d ds ih =>
      obtain ⟨first, rest, hds⟩ := List.exists_cons_of_ne_nil (splitOn_ne_nil c ds)
      rw [hds] at ih
      simp only [List.map_cons, splitOn, ih, hds, h]
      split <;> rfl

/-! ## The first occurrence of a text -/

theorem after?_eq_some_iff : after? mark cs = some rest ↔ cs = mark ++ rest := by
  induction mark generalizing cs with
  | nil => simp [after?]
  | cons m ms ih =>
      cases cs with
      | nil => simp [after?]
      | cons c cs =>
          unfold after?
          split
          · rename_i h
            simp [ih, h]
          · rename_i h
            simp [Ne.symm h]

theorem after?_append (mark rest : List Char) : after? mark (mark ++ rest) = some rest := after?_eq_some_iff.mpr rfl

theorem after?_eq_none_iff : after? mark cs = none ↔ ¬mark <+: cs := by
  rw [Option.eq_none_iff_forall_ne_some, List.IsPrefix, not_exists]
  exact forall_congr' fun rest => by rw [ne_eq, after?_eq_some_iff, eq_comm]

theorem splitFirst?_of_after? (h : after? mark cs = some rest) : splitFirst? mark cs = some ([], rest) := by
  cases cs with
  | nil =>
      obtain ⟨rfl, rfl⟩ := List.append_eq_nil_iff.mp (after?_eq_some_iff.mp h).symm
      rfl
  | cons c cs => simp [splitFirst?, h]

/-- A text is cut where its first occurrence of the mark begins. -/
theorem splitFirst?_append (h : m ∉ before) (rest : List Char) :
    splitFirst? (m :: ms) (before ++ (m :: ms) ++ rest) = some (before, rest) := by
  induction before with
  | nil => exact splitFirst?_of_after? (after?_append ..)
  | cons c before ih =>
      obtain ⟨hc, hbefore⟩ := not_or.mp (mt List.mem_cons.mpr h)
      simp only [List.cons_append, List.append_assoc] at ih ⊢
      simp [splitFirst?, after?, hc, ih hbefore]

theorem splitFirst?_eq_none_iff : splitFirst? mark cs = none ↔ ¬mark <:+: cs := by
  induction cs with
  | nil => simp [splitFirst?, List.infix_nil]
  | cons c cs ih =>
      unfold splitFirst?
      rw [List.infix_cons_iff]
      cases h : after? mark (c :: cs) with
      | none => simp [after?_eq_none_iff.mp h, ih]
      | some rest => simp [after?_eq_some_iff.mp h]

/-- A text that holds the mark is cut there or before. -/
theorem exists_splitFirst?_append (mark before rest : List Char) : ∃ start more,
    splitFirst? mark (before ++ mark ++ rest) = some (start, more ++ rest) ∧ more ⊆ before ++ mark := by
  induction before with
  | nil => exact ⟨[], [], splitFirst?_of_after? (after?_append ..), List.nil_subset _⟩
  | cons c before ih =>
      cases h : after? mark (c :: (before ++ mark ++ rest)) with
      | none =>
          obtain ⟨start, more, hsplit, hmore⟩ := ih
          rw [List.append_assoc] at h hsplit
          exact ⟨c :: start, more, by simp [splitFirst?, h, hsplit], List.subset_cons_of_subset c hmore⟩
      | some r =>
          have hr : (c :: before ++ mark) ++ rest = mark ++ r := by simpa using after?_eq_some_iff.mp h
          obtain ⟨beyond, hmark, -⟩ | ⟨more, hmore, rfl⟩ := List.append_eq_append_iff.mp hr
          · have := congrArg List.length hmark
            simp at this
            omega
          · exact ⟨[], more, splitFirst?_of_after? h, hmore ▸ List.subset_append_right ..⟩

theorem prefix_of_prefix_append_cons (before : List Char) (h : c ∉ mark) (hp : mark <+: before ++ c :: after) :
    mark <+: before := by
  have hc : before ++ [c] <+: before ++ c :: after := ⟨after, by simp⟩
  rcases List.prefix_or_prefix_of_prefix hp hc with hmark | hmark
  · rcases List.prefix_concat_iff.mp hmark with rfl | hmark
    · exact absurd (by simp) h
    · exact hmark
  · exact absurd (hmark.subset (by simp)) h

/-- A character that a mark does not have keeps its occurrences apart. -/
theorem infix_append_cons_iff (before : List Char) (h : c ∉ mark) :
    mark <:+: before ++ c :: after ↔ mark <:+: before ∨ mark <:+: after := by
  constructor
  · intro hi
    induction before with
    | nil =>
        rcases List.infix_cons_iff.mp hi with hp | hi
        · exact .inl (prefix_of_prefix_append_cons [] h hp).isInfix
        · exact .inr hi
    | cons d before ih =>
        rcases List.infix_cons_iff.mp hi with hp | hi
        · exact .inl (prefix_of_prefix_append_cons (d :: before) h hp).isInfix
        · exact (ih hi).imp_left fun hb => hb.trans (List.suffix_cons d before).isInfix
  · rintro (hb | ha)
    · exact hb.trans (List.prefix_append ..).isInfix
    · exact ha.trans ⟨before ++ [c], [], by simp⟩

/-- A text between quotation marks, after a text without any. -/
theorem quoted?_append {quote : Char} (before rest : List Char) (hq : quote = '\'' ∨ quote = '"')
    (hbefore : ∀ c ∈ before, c ≠ '\'' ∧ c ≠ '"') (h : quote ∉ cs) :
    quoted? (before ++ quote :: (cs ++ quote :: rest)) = some cs := by
  have hskip : (before ++ quote :: (cs ++ quote :: rest)).dropWhile (fun c => !(c == '\'' || c == '"')) =
      quote :: (cs ++ quote :: rest) := by
    rw [List.dropWhile_append_of_pos fun c hc => by simp [hbefore c hc]]
    rcases hq with rfl | rfl <;> rfl
  have hsplit : splitFirst? [quote] (cs ++ [quote] ++ rest) = some (cs, rest) := splitFirst?_append h rest
  rw [List.append_assoc, List.singleton_append] at hsplit
  rw [quoted?, hskip]
  simp only [hsplit, Option.map_some]

/-! ## Blanks around a text -/

theorem trimEndWhile_append {p : Char → Bool} (h : ∀ c ∈ after, p c = true) :
    trimEndWhile p (cs ++ after) = trimEndWhile p cs := by
  have hafter : ∀ c ∈ after.reverse, p c = true := fun c hc => h c (List.mem_reverse.mp hc)
  rw [trimEndWhile, List.reverse_append, List.dropWhile_append_of_pos hafter]
  rfl

theorem dropWhile_eq_self {p : Char → Bool} (h : ∀ c ∈ cs.head?, p c = false) : cs.dropWhile p = cs := by
  cases cs with
  | nil => rfl
  | cons c cs => exact List.dropWhile_cons_of_neg (by simp [h c rfl])

theorem trimEndWhile_eq_self {p : Char → Bool} (h : ∀ c ∈ cs.getLast?, p c = false) : trimEndWhile p cs = cs := by
  rw [← List.head?_reverse] at h
  rw [trimEndWhile, dropWhile_eq_self h, List.reverse_reverse]

theorem trimEndWhile_prefix_self (p : Char → Bool) (cs : List Char) : trimEndWhile p cs <+: cs := by
  rw [trimEndWhile, ← List.reverse_suffix, List.reverse_reverse]
  exact List.dropWhile_suffix p

theorem trim_infix_self (cs : List Char) : trim cs <:+: cs :=
  (trimEndWhile_prefix_self isBlank _).isInfix.trans (List.dropWhile_suffix isBlank).isInfix

theorem trim_append_blank (h : ∀ c ∈ after, isBlank c = true) : trim (cs ++ after) = trim cs := by
  rw [trim, trimStart, List.dropWhile_append]
  split_ifs with hcs
  · rw [List.dropWhile_eq_nil_iff.mpr h, trim, trimStart, List.isEmpty_iff.mp hcs]
  · rw [trimEnd, trimEndWhile_append h, trim, trimStart, trimEnd]

theorem trim_blank_append (h : ∀ c ∈ before, isBlank c = true) : trim (before ++ cs) = trim cs := by
  rw [trim, trimStart, List.dropWhile_append_of_pos h]
  rfl

/-- The last character is no blank. -/
def EndsPlain (cs : List Char) : Prop := ∃ start d, cs = start ++ [d] ∧ isBlank d = false

theorem EndsPlain.append (before : List Char) (h : EndsPlain cs) : EndsPlain (before ++ cs) := by
  obtain ⟨start, d, rfl, hd⟩ := h
  exact ⟨before ++ start, d, by rw [List.append_assoc], hd⟩

/-- A text that begins and ends without a blank is left as it is. -/
theorem EndsPlain.trim_eq_self (h : EndsPlain cs) (hhead : cs.head? = some c) (hc : isBlank c = false) :
    trim cs = cs := by
  have hstart : cs.dropWhile isBlank = cs := dropWhile_eq_self fun e he => by
    cases hhead.symm.trans he
    exact hc
  obtain ⟨start, d, rfl, hd⟩ := h
  have hend : trimEndWhile isBlank (start ++ [d]) = start ++ [d] := trimEndWhile_eq_self fun e he => by
    cases List.getLast?_concat.symm.trans he
    exact hd
  rw [trim, trimStart, hstart, trimEnd, hend]

end ImportCheck.Text
