import MaixSpeech.Kconfiglib.Choices

/-!
# Users with the same values

Reference: `tools/kconfig/Kconfiglib/kconfiglib.py`.

What the user has set counts only in a few places. `vals_eq_of_agrees`: where those give what they gave,
all attributes have the values they had.
-/

namespace MaixSpeech.Kconfiglib

open Common Common.Memo Build

namespace Kconfig

variable {S C : Type} [DecidableEq S] [DecidableEq C] {K : Kconfig S C} {u u' : User K.toTables}

/-- At the values that `u` gives, `u'` gives the values of `u` again: for the modes of choices, their
selections, and the symbols. -/
structure Agrees (u u' : User K.toTables) : Prop where
  mode : ∀ c, modeIn K.toTables (K.values u) c (K.choiceVis u c) (u'.choiceValue c) = K.mode u c
  selection : ∀ c, selectionIn K.toTables (K.values u) (K.vis u) c (u'.userSelection c) =
    K.selected u c
  plain : ∀ s ∈ K.uniqueDefinedSyms, isBoolTristate (K.sym s).origType = true →
    (K.sym s).choice = none →
    plainTriIn K.toTables (K.values u) s (K.vis u s) (u'.symValue s) =
      plainTriIn K.toTables (K.values u) s (K.vis u s) (u.symValue s)
  member : ∀ s ∈ K.uniqueDefinedSyms, ∀ c, (K.sym s).choice = some c → K.vis u s = .m →
    mModeValue (u'.symValue s) = mModeValue (u.symValue s)
  typed : ∀ s ∈ K.uniqueDefinedSyms, isBoolTristate (K.sym s).origType = false →
    (K.sym s).origType ≠ .unknown →
    (typedStrIn K.toTables (K.values u) s (K.vis u s) (u'.symValue s)).1 =
      (typedStrIn K.toTables (K.values u) s (K.vis u s) (u.symValue s)).1 ∧
    ((typedStrIn K.toTables (K.values u) s (K.vis u s) (u'.symValue s)).2 && !(K.sym s).envVar) =
      ((typedStrIn K.toTables (K.values u) s (K.vis u s) (u.symValue s)).2 && !(K.sym s).envVar)

/-- The values of `u`, looked at with what `u'` has set. -/
theorem Agrees.valuation_eq (h : Agrees u u') : valuation u'.inputs (K.vals u) = K.values u := by
  unfold values valuation
  congr 1
  funext i
  cases i with
  | sym s => rfl
  | choice c =>
    have hmode := h.mode c
    change (choiceTriValue c : Attr K.toTables _).eval _ _ =
      (choiceTriValue c : Attr K.toTables _).eval _ _
    rw [eval_choiceTriValue, eval_choiceTriValue]
    refine Eq.trans ?_ (hmode.trans (mode_eq K u c))
    unfold modeIn choiceTypeIn
    rfl

/-- **Where the users agree, so do all values.** -/
theorem vals_eq_of_agrees (h : Agrees u u') : K.vals u' = K.vals u := by
  refine Eq.symm (show K.vals u = K.vals u' from K.acyclic.eq_value fun k => ?_)
  by_cases hconst : K.constantKey k = true
  · rw [K.vals_eq u k]
    exact Query.eval_congr (fits.constant k hconst) (fun _ _ => rfl) fun _ hr => hr.elim
  have hval := h.valuation_eq
  cases k with
  | visibility i =>
    cases i with
    | sym s =>
      refine (K.vis_eq u s).trans ?_
      change _ = (symVisibility s : Attr K.toTables _).eval _ _
      rw [eval_symVisibility, hval]
    | choice c =>
      refine (K.choiceVis_eq u c).trans ?_
      change _ = (choiceVisibility c : Attr K.toTables _).eval _ _
      rw [eval_choiceVisibility, hval]
  | triValue s =>
    have hs : s ∈ K.uniqueDefinedSyms ∧ isBoolTristate (K.sym s).origType = true := by
      simpa [constantKey] using hconst
    change _ = (symTri s : Attr K.toTables _).eval _ _
    rw [symTri_defined hs.1 hs.2, Query.eval_bind]
    cases hc : (K.sym s).choice with
    | none =>
      rw [K.tri_plain u hs.1 hs.2 hc, ← h.plain s hs.1 hs.2 hc, ← hval]
      unfold triFrom
      rw [hc]
      exact (eval_plainTri s _ _).symm
    | some c =>
      rw [K.tri_choice u hs.1 hs.2 hc]
      unfold triFrom
      rw [hc]
      change _ = (choiceSymTri s c (K.vis u s) : Attr K.toTables _).eval u'.inputs (K.vals u)
      rw [choiceSymTri, Query.eval_ite, Query.eval_ite, Query.eval_bind, Query.eval_bind]
      refine if_ctx_congr Iff.rfl (fun _ => rfl) fun hy =>
        if_ctx_congr Iff.rfl (fun _ => rfl) fun hn => ?_
      have hm : K.vis u s = .m := by
        revert hy hn
        cases K.vis u s <;> simp
      rw [← h.member s hs.1 c hc hm]
      rfl
  | strValue s =>
    have hs : s ∈ K.uniqueDefinedSyms ∧ (K.sym s).origType ≠ .unknown := by
      simpa [constantKey] using hconst
    change _ = (symStr s : Attr K.toTables _).eval _ _
    by_cases htype : isBoolTristate (K.sym s).origType = true
    · rw [K.str_tri u htype, symStr_tri htype, Query.eval_bind]
      rfl
    · obtain ⟨hfst, hsnd⟩ := h.typed s hs.1 (Bool.eq_false_iff.mpr htype) hs.2
      rw [K.str_typed u htype hs.2, symStr_typed htype hs.2, Query.eval_bind, strFrom,
        Query.eval_bind, Query.eval_bind, eval_typedStr, hval, ← hfst, ← hsnd]
      rfl
  | selection c =>
    refine Eq.trans (h.selection c).symm ?_
    change _ = (selection c : Attr K.toTables _).eval _ _
    rw [eval_selection, hval]
    rfl
  | assignable i =>
    cases i with
    | sym s =>
      refine ((K.vals_eq u _).trans (eval_symAssignable s)).trans ?_
      change _ = (symAssignable s : Attr K.toTables _).eval _ _
      rw [eval_symAssignable, hval]
      rfl
    | choice c =>
      refine ((K.vals_eq u _).trans (eval_choiceAssignable c)).trans ?_
      change _ = (choiceAssignable c : Attr K.toTables _).eval _ _
      rw [eval_choiceAssignable, hval]
      rfl

/-- Two users give the same values, and the same modes of choices. -/
def Same (u u' : User K.toTables) : Prop :=
  K.vals u' = K.vals u ∧ ∀ c, K.mode u' c = K.mode u c

theorem Same.values_eq (h : Same u u') : K.values u' = K.values u := by
  have hmode := h.2
  unfold mode at hmode
  revert hmode
  unfold values valuation
  rw [h.1]
  intro hmode
  congr 1
  funext i
  cases i with
  | sym s => rfl
  | choice c => exact hmode c

theorem Agrees.same (h : Agrees u u') : Same u u' := by
  have hvals := vals_eq_of_agrees h
  have hvalues : K.values u' = K.values u := by
    have := h.valuation_eq
    rwa [← hvals] at this
  refine ⟨hvals, fun c => ?_⟩
  change (K.values u').triValue (.choice c) = (K.values u).triValue (.choice c)
  rw [hvalues]

end Kconfig

end MaixSpeech.Kconfiglib
