import ImportCheck.Proofs.Walk.Pursuit

/-!
# What failures leave behind

A failure takes marks back, and it is passed on to the walk that asked: while no part has failed every
walked file is valid, and a walked file that is not valid leads to one that cannot be had or resolved.
-/

namespace ImportCheck

def Ledger.Flawed (M : Ledger) : Prop := ∃ e ∈ M, e.stage.Failed

/-- Some part has failed, or all walked files are valid and were walked once. -/
structure Honest (w : Surroundings) (s₀ : Session) (roots : List Path) (s : Session) (M : Ledger) :
    Prop where
  clean : M.Flawed ∨ (∀ f ∈ s₀.walkedSince s, s.isValid f = true) ∧ (s₀.walkedSince s).Nodup
  blamed : ∀ f ∈ s₀.walkedSince s, s.isValid f = false →
    ∃ g, s₀.Reached w roots g ∧ s₀.Leads w f g ∧ ¬s₀.Sound w g

variable {w : Surroundings} {s₀ : Session} {roots : List Path} {c c' : Session × Ledger}

theorem Ledger.flawed_add {M N : Ledger} : (M + N).Flawed ↔ M.Flawed ∨ N.Flawed := exists_add

/-- A failure stays in the ledger, as the failure of the walk it belongs to in the end. -/
theorem LedgerStep.flawed (ht : LedgerStep w c c') (h : c.2.Flawed) : c'.2.Flawed := by
  cases ht with
  | note _ => exact h
  | @scan s M o x registered found _ =>
      simp only [Ledger.flawed_add] at h ⊢
      rcases h with h | h
      · exact .inl h
      · simp [Ledger.Flawed, Stage.Failed] at h
  | @succeed s M N o x registered _ hn =>
      simp only [Ledger.flawed_add] at h ⊢
      rcases h with h | h | ⟨e, he, hf⟩
      · exact .inl h
      · simp [Ledger.Flawed, Stage.Failed] at h
      · simp [(hn e he).2, Stage.Failed] at hf
  | fail _ _ _ => exact Ledger.flawed_add.mpr (.inr ⟨_, Multiset.mem_singleton_self _, trivial⟩)
  | _ =>
      simp only [Ledger.flawed_add] at h ⊢
      rcases h with h | h
      · exact .inl h
      · simp [Ledger.Flawed, Stage.Failed] at h

/-- A file that loses its mark was being walked, and for a fault that it leads to. -/
theorem LedgerStep.invalidated (ht : LedgerStep w c c') (h : Orderly w s₀ roots c.1 c.2) {p : Path}
    (hv : c.1.isValid p = true) (hv' : c'.1.isValid p = false) :
    ∃ x ∈ c.2.opens, x.Same p ∧ c'.2.Flawed ∧
      ∃ g, s₀.Reached w roots g ∧ s₀.Leads w x g ∧ ¬s₀.Sound w g := by
  cases ht with
  | note ha => rw [ha.isValid_eq, hv] at hv'; cases hv'
  | enter _ => simp [hv] at hv'
  | @unreadable s M o x registered fault hr =>
      have hx : x ∈ (M + {⟨o, .reading x registered⟩}).opens := by simp [Stage.open?]
      simp only at hv
      refine ⟨x, hx, by simpa [hv] using hv', ?_, x, h.reached x (h.walked x hx), .refl,
        fun hs => h.not_obtainable hr hs.1⟩
      exact Ledger.flawed_add.mpr (.inr ⟨_, Multiset.mem_singleton_self _, trivial⟩)
  | @fail s M N o x registered e _ hn he =>
      have hx : x ∈ (M + ({⟨o, .walking x registered⟩} + N)).opens :=
        Ledger.mem_opens.mpr ⟨⟨o, .walking x registered⟩, by simp, rfl⟩
      obtain ⟨e', he', hfailed⟩ := he
      have hsense := h.sensible e' (by simp [he'])
      simp only [Post.Sensible, hfailed] at hsense
      obtain ⟨g, hg, hs, hl⟩ := hsense
      simp only at hv
      refine ⟨x, hx, by simpa [hv] using hv', ?_, g, hg, hl x (hn e' he').1, hs⟩
      exact Ledger.flawed_add.mpr (.inr ⟨_, Multiset.mem_singleton_self _, trivial⟩)
  | _ => exact absurd (hv.symm.trans hv') (by simp)

theorem LedgerStep.honest (ht : LedgerStep w c c') (ha : s₀.SpelledAlike w roots) (ho : Orderly w s₀ roots c.1 c.2)
    (h : Honest w s₀ roots c.1 c.2) : Honest w s₀ roots c'.1 c'.2 := by
  have hnew : ∀ f ∈ s₀.walkedSince c'.1, c'.1.isValid f = false → f ∈ s₀.walkedSince c.1 := by
    intro f hf hv
    rcases ht.walkedSince ho with hw | ⟨x, henter, hw⟩
    · exact hw ▸ hf
    · rw [hw, List.mem_append, List.mem_singleton] at hf
      rcases hf with hf | rfl
      · exact hf
      · simp [henter.session, Path.Same.refl] at hv
  constructor
  case clean =>
      rcases h.clean with hflaw | ⟨hclean, hnodup⟩
      · exact .inl (ht.flawed hflaw)
      · refine Classical.or_iff_not_imp_left.mpr fun hn => ⟨fun f hf => ?_, ?_⟩
        · cases hv : c'.1.isValid f with
          | true => rfl
          | false =>
              obtain ⟨_, -, -, hflaw, -⟩ := ht.invalidated ho (hclean f (hnew f hf hv)) hv
              exact absurd hflaw hn
        · rcases ht.walkedSince ho with hw | ⟨x, henter, hw⟩
          · rwa [hw]
          · rw [hw]
            refine List.nodup_append.mpr ⟨hnodup, List.nodup_singleton x, ?_⟩
            intro y hy z hz hyz
            rw [List.mem_singleton.mp hz] at hyz
            have hv := hclean y hy
            rw [hyz, henter.not_valid] at hv
            cases hv
  case blamed =>
      intro f hf hv
      have hf' := hnew f hf hv
      cases hv' : c.1.isValid f with
      | false => exact h.blamed f hf' hv'
      | true =>
          obtain ⟨x, hx, hs, -, hg⟩ := ht.invalidated ho hv' hv
          exact ho.eq_of_same ha (ho.walked x hx) (ho.met_of_walked hf') hs ▸ hg

theorem honest_asked (w : Surroundings) (s : Session) (roots : List Path) :
    Honest w s roots s (.asked roots) := by
  have hw : s.walkedSince s = [] := by simp [Session.walkedSince]
  constructor <;> simp [hw]

end ImportCheck
