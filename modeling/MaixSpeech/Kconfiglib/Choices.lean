import MaixSpeech.Kconfiglib.Values

/-!
# Choices

Reference: `tools/kconfig/Kconfiglib/kconfiglib.py`.

In a choice one symbol is `y`, the selection, and only while the choice is in y mode. What the values
of the symbols are follows from their visibility, which the mode of the choice limits: every prompt of
a choice symbol has the choice among its conditions.
-/

namespace MaixSpeech.Kconfiglib

open Common Common.Memo Build

namespace Kconfig

variable {S C : Type} [DecidableEq S] [DecidableEq C] {K : Kconfig S C} {u : User K.toTables}

/-- A choice as it is meant: it and its symbols are bool or tristate, and its symbols belong to it and
have their prompts inside. `_check_choice_sanity` warns of another type of the choice and of prompts
outside; it looks neither at the types of the symbols nor at the choice they belong to. A prompt that
`_make_and` made `n` is `n`. -/
structure Regular (K : Kconfig S C) (c : C) : Prop where
  type : isBoolTristate (K.choice c).origType = true
  symType : ∀ s ∈ (K.choice c).syms, isBoolTristate (K.sym s).origType = true
  symChoice : ∀ s ∈ (K.choice c).syms, (K.sym s).choice = some c
  prompts : ∀ s ∈ (K.choice c).syms, ∀ e ∈ (K.sym s).prompts,
    .item (.choice c) ∈ splitExpr .and e ∨ e = .item (.sym K.consts.n)

/-! ## The modes -/

theorem values_preset {s : S} {t : Tristate} (hs : (K.sym s).preset = some t) :
    (K.values u).triValue (.sym s) = t := by
  change (K.vals u (.triValue s)).1 = t
  rw [K.vals_eq]
  change ((symTri s : Attr K.toTables _).eval u.inputs (K.vals u)).1 = t
  rw [symTri, hs]
  rfl

omit [DecidableEq S] [DecidableEq C] in
theorem promptsIn_le {v : Valuation S C} {conds : List (Expr S C)} {vis x : Tristate}
    (hvis : vis ≤ x) (h : ∀ e ∈ conds, e.value v ≤ x) : promptsIn v conds vis ≤ x := by
  unfold promptsIn
  induction conds generalizing vis with
  | nil => exact hvis
  | cons e conds ih =>
    exact ih (max_le hvis (h e List.mem_cons_self)) fun e' he' => h e' (List.mem_cons_of_mem e he')

/-- A choice in m mode is a tristate one, and modules are enabled. -/
theorem type_of_mode_m {c : C} (hc : isBoolTristate (K.choice c).origType = true)
    (h : K.mode u c = .m) : (K.choice c).origType = .tristate ∧
      (K.values u).triValue (.sym K.modules) ≠ .n := by
  have hbool : choiceTypeIn K.toTables (K.values u) c ≠ .bool := by
    intro hbool
    rw [mode_eq, modeIn, promoteIf] at h
    split at h
    · cases h
    · next hm => exact hm ⟨h, hbool⟩
  unfold choiceTypeIn at hbool
  split at hbool
  · exact absurd rfl hbool
  · next hnot =>
    have htri : (K.choice c).origType = .tristate := by
      revert hc hbool
      cases (K.choice c).origType <;> simp [isBoolTristate]
    exact ⟨htri, fun hmod => hnot ⟨htri, hmod⟩⟩

/-! ## Visible with `m` -/

/-- Where the symbol is visible with `m`, `m` is not promoted for its type. -/
theorem symTypeIn_of_vis_m {s : S} (h : K.vis u s = .m) : symTypeIn K.toTables (K.values u) s ≠ .bool := by
  rw [vis_eq, symVisibilityIn] at h
  split at h
  · cases h
  · rw [promoteIf] at h
    split at h
    · cases h
    · next hm =>
      intro hbool
      exact hm ⟨h, by rw [hbool]; decide⟩

/-- A bool symbol outside choices is never `m`. -/
theorem tri_bool {s : S} (hs : s ∈ K.uniqueDefinedSyms) (htype : (K.sym s).origType = .bool)
    (hc : (K.sym s).choice = none) : K.tri u s ≠ .m := by
  have hbool : symTypeIn K.toTables (K.values u) s = .bool := by simp [symTypeIn, htype]
  change (K.vals u (.triValue s)).1 ≠ .m
  rw [K.tri_plain u hs (by rw [htype]; rfl) hc, plainTriIn, promoteIf]
  split
  · exact fun h => by cases h
  · next hm => exact fun h => hm ⟨h, Or.inl hbool⟩

/-! ## Visible choice symbols -/

namespace Regular

variable {c : C} (hc : K.Regular c) {s : S} (hs : s ∈ (K.choice c).syms)

include hc hs

theorem prompts_le : promptsIn (K.values u) (K.sym s).prompts .n ≤ K.mode u c := by
  refine promptsIn_le (Tristate.n_le _) fun e he => ?_
  rcases hc.prompts s hs e he with hmem | rfl
  · exact value_le_of_mem_splitExpr hmem
  · rw [Expr.value, values_preset K.preset.1]
    exact Tristate.n_le _

/-- In n mode, no symbol of the choice is visible. -/
theorem vis_of_mode_n (h : K.mode u c = .n) : K.vis u s = .n := by
  have hprompts := hc.prompts_le hs (u := u)
  rw [h] at hprompts
  have hn := le_antisymm hprompts (Tristate.n_le _)
  rw [vis_eq, symVisibilityIn, hn]
  split
  · rfl
  · simp [promoteIf]

/-- In m mode, the visible symbols are so with m. -/
theorem vis_of_mode_m (h : K.mode u c = .m) : K.vis u s ≠ .y := by
  obtain ⟨htype, hmod⟩ := type_of_mode_m hc.type h
  have hprompts := hc.prompts_le hs (u := u)
  rw [h] at hprompts
  have hmode : (K.values u).triValue (.choice c) = .m := h
  rw [vis_eq, symVisibilityIn]
  split
  · decide
  · next hhidden =>
    have hsym : (K.sym s).origType = .tristate := by
      by_contra hsym
      exact hhidden (by simp [hiddenIn, hc.symChoice s hs, htype, hsym, hmode])
    have htypeIn : symTypeIn K.toTables (K.values u) s = .tristate := by
      simp [symTypeIn, inYChoiceIn, hc.symChoice s hs, hsym, hmode, hmod]
    rw [promoteIf, if_neg (by simp [htypeIn])]
    intro hy
    rw [hy] at hprompts
    exact absurd hprompts (by decide)

/-- In y mode, they are so with y. -/
theorem vis_of_mode_y (h : K.mode u c = .y) : K.vis u s ≠ .m := by
  have hmode : (K.values u).triValue (.choice c) = .y := h
  have htypeIn : symTypeIn K.toTables (K.values u) s ≠ .tristate := by
    by_cases hsym : (K.sym s).origType = .tristate
    · simp [symTypeIn, inYChoiceIn, hc.symChoice s hs, hmode, hsym]
    · simp [symTypeIn, hsym]
  rw [vis_eq, symVisibilityIn]
  split
  · decide
  · rw [promoteIf]
    split
    · decide
    · next hm => exact fun hvis => hm ⟨hvis, htypeIn⟩

/-- The value of a symbol of the choice. -/
theorem vals_triValue : K.vals u (.triValue s) =
    if K.vis u s = .y then (if K.selected u c = some s then .y else .n, true)
    else if K.vis u s = .n then (.n, false)
    else (mModeValue (u.symValue s), true) :=
  K.tri_choice u (K.choice_syms c s hs) (hc.symType s hs) (hc.symChoice s hs)

end Regular

/-! ## The selection -/

omit [DecidableEq S] [DecidableEq C] in
theorem selectionFromDefaultsIn_spec {T : Tables S C} {v : Valuation S C} {vis : S → Tristate}
    {c : C} {defaults : List (S × Expr S C)} (hd : ∀ d ∈ defaults, d.1 ∈ (T.choice c).syms) :
    (∀ s, selectionFromDefaultsIn T v vis c defaults = some s →
      s ∈ (T.choice c).syms ∧ vis s ≠ .n) ∧
    (selectionFromDefaultsIn T v vis c defaults = none → ∀ s ∈ (T.choice c).syms, vis s = .n) := by
  induction defaults with
  | nil =>
    unfold selectionFromDefaultsIn
    refine ⟨fun s hs => ⟨List.mem_of_find?_eq_some hs, ?_⟩, fun hnone s hs => ?_⟩
    · simpa using List.find?_some hs
    · simpa using List.find?_eq_none.mp hnone s hs
  | cons d rest ih =>
    obtain ⟨ihsome, ihnone⟩ := ih fun d' hd' => hd d' (List.mem_cons_of_mem d hd')
    obtain ⟨s₀, cond⟩ := d
    unfold selectionFromDefaultsIn
    split
    · exact ⟨ihsome, ihnone⟩
    · next hvis =>
      refine ⟨fun s hs => ?_, fun h => by cases h⟩
      obtain rfl := Option.some.inj hs
      exact ⟨hd _ List.mem_cons_self, fun h => hvis (Or.inr h)⟩

variable {c : C}

/-- The selection is a visible symbol of a choice in y mode. -/
theorem selected_some {s : S} (h : K.selected u c = some s) :
    K.mode u c = .y ∧ s ∈ (K.choice c).syms ∧ K.vis u s ≠ .n := by
  have hspec : ∀ s, selectionFromDefaultsIn K.toTables (K.values u) (K.vis u) c
      (K.choice c).defaults = some s → s ∈ (K.choice c).syms ∧ K.vis u s ≠ .n :=
    (selectionFromDefaultsIn_spec (K.choice_defaults c)).1
  rw [selected_eq] at h
  unfold selectionIn at h
  split at h
  · cases h
  · next hmode =>
    refine ⟨not_not.mp hmode, ?_⟩
    split at h
    · exact hspec s h
    · next t ht =>
      split at h
      · exact hspec s h
      · next hvis =>
        obtain rfl := Option.some.inj h
        exact ⟨t.2, hvis⟩

/-- A choice without a selection is not in y mode, or has no visible symbol. -/
theorem selected_none (h : K.selected u c = none) :
    K.mode u c ≠ .y ∨ ∀ s ∈ (K.choice c).syms, K.vis u s = .n := by
  have hspec : selectionFromDefaultsIn K.toTables (K.values u) (K.vis u) c
      (K.choice c).defaults = none → ∀ s ∈ (K.choice c).syms, K.vis u s = .n :=
    (selectionFromDefaultsIn_spec (K.choice_defaults c)).2
  rw [selected_eq] at h
  unfold selectionIn at h
  split at h
  · next hmode => exact Or.inl hmode
  · split at h
    · exact Or.inr (hspec h)
    · split at h
      · exact Or.inr (hspec h)
      · cases h

theorem Regular.tri_eq_y_iff (hc : K.Regular c) {s : S} (hs : s ∈ (K.choice c).syms) :
    (K.vals u (.triValue s)).1 = .y ↔ K.selected u c = some s := by
  rw [hc.vals_triValue hs]
  constructor
  · intro h
    split at h
    · split at h
      · assumption
      · cases h
    · split at h
      · cases h
      · revert h
        unfold mModeValue
        split
        · split <;> simp
        · simp
  · intro h
    obtain ⟨hmode, -, hvis⟩ := selected_some h
    have hm := hc.vis_of_mode_y hs hmode
    have hy : K.vis u s = .y := by
      revert hvis hm
      cases K.vis u s <;> simp
    rw [if_pos hy, if_pos h]

/-- **A choice selects one symbol.** After any calls, a symbol of the choice reads `y` exactly when it
is the selection, and there is one exactly when the choice is in y mode and a symbol is visible. -/
theorem choice_selects (hc : K.Regular c) (calls : List (Call S C)) :
    (∀ s ∈ (K.choice c).syms, K.triAfter calls s = some .y ↔
      K.selectionAfter calls c = some (some s)) ∧
    (K.selectionAfter calls c ≠ some none ↔ K.mode (K.after calls) c = .y ∧
      ∃ s ∈ (K.choice c).syms, K.visAfter calls s ≠ some .n) := by
  simp only [triAfter_eq, selectionAfter_eq, visAfter_eq, ne_eq, Option.some_inj]
  refine ⟨fun s hs => hc.tri_eq_y_iff hs, fun h => ?_, ?_⟩
  · obtain ⟨s, hs⟩ := Option.ne_none_iff_exists'.mp h
    obtain ⟨hmode, hmem, hvis⟩ := selected_some hs
    exact ⟨hmode, s, hmem, hvis⟩
  · rintro ⟨hmode, s, hmem, hs⟩ hnone
    rcases selected_none hnone with h | h
    · exact h hmode
    · exact hs (h s hmem)

end Kconfig

end MaixSpeech.Kconfiglib
