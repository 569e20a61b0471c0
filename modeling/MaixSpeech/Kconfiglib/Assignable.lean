import MaixSpeech.Kconfiglib.Choices

/-!
# Assignable values

Reference: `tools/kconfig/Kconfiglib/kconfiglib.py`.

`Symbol.assignable` lists the values that `set_value` gives a symbol, in whatever state the
configuration is. What it lists is computed before the assignment; that the assignment does not change
it is because nothing that the value of a symbol looks at looks back at it.
-/

namespace MaixSpeech.Kconfiglib

open Common Common.Memo Build

namespace Kconfig

variable {S C : Type} [DecidableEq S] [DecidableEq C] {K : Kconfig S C} {u u' : User K.toTables}
  {s : S}

/-! ## What an assignment leaves alone -/

/-- The string of a bool or tristate symbol reads its value, so it stands above it. -/
theorem rank_triValue_lt (htype : isBoolTristate (K.sym s).origType = true) :
    K.rank (.triValue s) < K.rank (.strValue s) := by
  have h := K.acyclic (.strValue s)
  change (symStr s : Attr K.toTables _).Within _ _ at h
  rw [symStr_tri htype] at h
  exact h.1

/-- What has a lower rank than the value of `s` does not see an assignment to `s`, nor to selections of
a higher rank. -/
theorem vals_below (htype : isBoolTristate (K.sym s).origType = true) {n : ℕ}
    (hn : n ≤ K.rank (.triValue s))
    (hu : ∀ r, r ≠ .symValue s → (∀ c, n ≤ K.rank (.selection c) → r ≠ .userSelection c) →
      u'.inputs r = u.inputs r) {k : Key S C} (hk : K.rank k < n) :
    K.vals u' k = K.vals u k := by
  refine K.acyclic.value_congr (P := fun k => K.rank k < n) (fun k hk => ?_) hk
  have hread : (body K.toTables k).Within (fun _ => True) fun r =>
      r ≠ .symValue s ∧ ∀ c, n ≤ K.rank (.selection c) → r ≠ .userSelection c := by
    by_cases hitem : k.item ∈ K.items
    · refine within_body (scope_of_reaches hitem (fun j _ => ⟨fun _ _ => trivial, by simp⟩) trivial)
        (fun t ht => ⟨?_, by simp⟩) fun d hd => ⟨by simp, ?_⟩
      · rintro ⟨rfl⟩
        have hstr := rank_triValue_lt htype
        rcases ht with rfl | rfl <;> omega
      · rintro c hle ⟨rfl⟩
        subst hd
        omega
    · exact (within_undefined hitem).mono (fun _ _ => trivial) fun _ h => h.elim
  exact ((K.acyclic k).and hread).mono (fun k' hk' => hk'.1.trans hk)
    fun r hr => hu r hr.2.1 hr.2.2

section Defined

variable (hs : s ∈ K.uniqueDefinedSyms) (htype : isBoolTristate (K.sym s).origType = true)

include hs htype

/-- Behind its visibility, the value of a symbol looks only at what stands below it. -/
theorem within_triFrom (vis : Tristate) : (triFrom s vis : Attr K.toTables _).Within
    (fun k => K.rank k < K.rank (.triValue s)) fun _ => True := by
  have h := K.acyclic (.triValue s)
  change (symTri s : Attr K.toTables _).Within _ _ at h
  rw [symTri_defined hs htype] at h
  exact h.2 vis

/-- The value of a symbol reads its visibility. -/
theorem rank_visibility_lt : K.rank (.visibility (.sym s)) < K.rank (.triValue s) := by
  have h := K.acyclic (.triValue s)
  change (symTri s : Attr K.toTables _).Within _ _ at h
  rw [symTri_defined hs htype] at h
  exact h.1

/-- The value of a symbol outside choices after it has been set. -/
theorem tri_setSym (hc : (K.sym s).choice = none) (value : UserValue) :
    K.tri (u.setSym s (some value)) s =
      (plainTriIn K.toTables (K.values u) s (K.vis u s) (some value)).1 := by
  have hsame : ∀ k, K.rank k < K.rank (.triValue s) →
      K.vals (u.setSym s (some value)) k = K.vals u k := fun _ hk =>
    vals_below htype le_rfl (fun r hr _ => setSym_inputs u s (some value) r hr) hk
  have hvis : K.vis (u.setSym s (some value)) s = K.vis u s :=
    hsame _ (rank_visibility_lt hs htype)
  have hwithin : (plainTri s (K.vis u s) (some value) : Attr K.toTables _).Within
      (fun k => K.rank k < K.rank (.triValue s)) fun r => r ≠ .symValue s := by
    have hrank := within_triFrom hs htype (K.vis u s)
    unfold triFrom at hrank
    rw [hc] at hrank
    have hread : (plainTri s (K.vis u s) (some value) : Attr K.toTables _).Within
        (fun _ => True) (· ≠ .symValue s) :=
      (scope_of_reaches (mem_items_sym.mpr hs)
        (fun j _ => ⟨fun _ _ => trivial, by simp⟩) trivial).plainTri _ _
    exact ((hrank.2 (some value)).and hread).mono (fun k hk => hk.1) fun r hr => hr.2
  have heval : (plainTri s (K.vis u s) (some value) : Attr K.toTables _).eval
      (u.setSym s (some value)).inputs (K.vals (u.setSym s (some value))) =
      (plainTri s (K.vis u s) (some value) : Attr K.toTables _).eval u.inputs (K.vals u) :=
    Query.eval_congr hwithin hsame fun r hr => setSym_inputs u s (some value) r hr
  have hvalue : (u.setSym s (some value)).symValue s = some value := Function.update_self ..
  change (K.vals (u.setSym s (some value)) (.triValue s)).1 = _
  rw [K.tri_plain _ hs htype hc, hvis, hvalue]
  exact congrArg Prod.fst ((eval_plainTri s _ _).symm.trans (heval.trans (eval_plainTri s _ _)))

end Defined

/-! ## Symbols outside choices -/

omit [DecidableEq S] [DecidableEq C] in
/-- What an assignment makes of a visible symbol. -/
theorem plainTriIn_user {T : Tables S C} {v : Valuation S C} {vis : Tristate} (hvis : vis ≠ .n)
    (t : Tristate) : (plainTriIn T v s vis (some (.tri t))).1 =
      promoteIf (symTypeIn T v s = .bool ∨ (T.sym s).weakRevDep.value v = .y)
        (max ((T.sym s).revDep.value v) (min t vis)) := by
  rw [plainTriIn, userOrDefaultsIn, if_neg hvis]

/-- A symbol that is visible with `m` and selected with `m`, and raised to `y` by an `imply`. -/
def Raised (u : User K.toTables) (s : S) : Prop :=
  K.vis u s = .m ∧ (K.sym s).revDep.value (K.values u) = .m ∧
    (K.sym s).weakRevDep.value (K.values u) = .y

/-- The values that are listed are those that an assignment brings about. -/
theorem mem_symAssignableIn (hs : s ∈ K.uniqueDefinedSyms)
    (htype : isBoolTristate (K.sym s).origType = true) (hc : (K.sym s).choice = none)
    (hvis : K.vis u s ≠ .n) (t : Tristate) :
    (¬ Raised u s → (t ∈ symAssignableIn K.toTables (K.values u) s (K.vis u s) ↔
      (plainTriIn K.toTables (K.values u) s (K.vis u s) (some (.tri t))).1 = t)) ∧
    (Raised u s → symAssignableIn K.toTables (K.values u) s (K.vis u s) = [.m] ∧
      (plainTriIn K.toTables (K.values u) s (K.vis u s) (some (.tri t))).1 = .y) := by
  have hm : K.vis u s = .m → symTypeIn K.toTables (K.values u) s ≠ .bool := symTypeIn_of_vis_m
  rw [plainTriIn_user hvis]
  unfold symAssignableIn noModuleIn Raised
  rw [(K.defined s hs).2, htype, hc]
  revert hvis hm
  generalize K.vis u s = vis
  generalize (K.sym s).revDep.value (K.values u) = rev
  generalize (K.sym s).weakRevDep.value (K.values u) = weak
  intro hvis hm
  by_cases hbool : symTypeIn K.toTables (K.values u) s = .bool
  · obtain rfl : vis = .y := by
      revert hvis hm
      cases vis <;> simp [hbool]
    cases rev <;> cases t <;> simp [hbool, symValuesFor, promoteIf] <;> decide
  · cases vis
    · exact absurd rfl hvis
    · cases rev <;> cases weak <;> cases t <;> simp [hbool, symValuesFor, promoteIf] <;> decide
    · cases rev <;> cases weak <;> cases t <;> simp [hbool, symValuesFor, promoteIf] <;> decide

/-- What `set_value` leaves when it does not refuse the value. -/
theorem after_setValue (hc : (K.sym s).choice = none) {t : Tristate}
    (ht : validFor (K.sym s).origType (.tri t) = true) (calls : List (Call S C)) :
    K.after (calls ++ [.setValue s (.tri t)]) = (K.after calls).setSym s (some (.tri t)) := by
  have hvalue : (UserValue.tri t).forType (K.sym s).origType = .tri t := by
    unfold UserValue.forType
    split <;> rfl
  rw [after, List.foldl_append]
  change assign (K.after calls) s (.tri t) = _
  unfold assign
  simp only [hvalue, ht, if_true]
  split
  · rfl
  · next c h => rw [hc] at h; cases h

/-- **Assignable values.** In whatever state the configuration is, the values listed for a visible
symbol outside choices are those that it has after `set_value`; but a symbol that is visible and
selected with `m` and raised by an `imply` has `m` listed, and is `y` whatever is set. -/
theorem assignable_iff (hs : s ∈ K.uniqueDefinedSyms)
    (htype : isBoolTristate (K.sym s).origType = true) (hc : (K.sym s).choice = none)
    (calls : List (Call S C)) (hvis : K.visAfter calls s ≠ some .n) {l : List Tristate}
    (hl : K.assignableAfter calls s = some l) (t : Tristate) :
    (¬ Raised (K.after calls) s →
      (t ∈ l ↔ K.triAfter (calls ++ [.setValue s (.tri t)]) s = some t)) ∧
    (Raised (K.after calls) s → l = [.m] ∧
      K.triAfter (calls ++ [.setValue s (.tri t)]) s = some .y) := by
  rw [visAfter_eq, ne_eq, Option.some_inj] at hvis
  rw [assignableAfter_eq, Option.some_inj] at hl
  obtain ⟨hplain, hraised⟩ := mem_symAssignableIn hs htype hc hvis t
  rw [triAfter_eq, Option.some_inj, ← hl]
  by_cases hvalid : validFor (K.sym s).origType (.tri t) = true
  · rw [after_setValue hc hvalid, tri_setSym hs htype hc]
    exact ⟨hplain, fun h => (hraised h).imp_right (congrArg some)⟩
  · -- A bool symbol refuses `m`, and does not list it either.
    have hbool : (K.sym s).origType = .bool ∧ t = .m := by
      revert htype hvalid
      cases (K.sym s).origType <;> cases t <;> simp [isBoolTristate, validFor]
    obtain ⟨hbool, rfl⟩ := hbool
    have hnot : ¬ Raised (K.after calls) s := by
      intro h
      exact symTypeIn_of_vis_m h.1 (by simp [symTypeIn, hbool])
    refine ⟨fun h => ?_, fun h => absurd h hnot⟩
    rw [hplain h, plainTriIn_user hvis]
    refine iff_of_false ?_ (tri_bool hs hbool hc)
    have htypeIn : symTypeIn K.toTables (K.values (K.after calls)) s = .bool := by
      simp [symTypeIn, hbool]
    rw [promoteIf]
    split
    · decide
    · next hm => exact fun h => hm ⟨h, Or.inl htypeIn⟩

/-! ## Choice symbols -/

namespace Regular

variable {c : C} (hc : K.Regular c) (hs : s ∈ (K.choice c).syms)

include hc hs

/-- Setting a visible symbol of a choice in y mode to `y` selects it. -/
theorem selected_assign (hmode : K.mode u c = .y) (hvis : K.vis u s ≠ .n)
    (hu : ∀ r, r ≠ .symValue s → r ≠ .userSelection c → u'.inputs r = u.inputs r)
    (hsel : u'.userSelection c = some ⟨s, hs⟩) :
    K.vis u' s = K.vis u s ∧ K.selected u' c = some s := by
  have hdef := K.choice_syms c s hs
  have htype := hc.symType s hs
  have hchoice := hc.symChoice s hs
  -- The selection looks at the mode and at the symbol, and is looked at by the value of the symbol.
  have hbody := K.acyclic (.selection c)
  change (selection c : Attr K.toTables _).Within _ _ at hbody
  rw [selection] at hbody
  have hrank : K.rank (.selection c) < K.rank (.triValue s) := by
    have h := within_triFrom hdef htype .y
    unfold triFrom at h
    rw [hchoice] at h
    change (choiceSymTri s c .y : Attr K.toTables _).Within _ _ at h
    rw [choiceSymTri, if_pos rfl] at h
    exact h.1
  have hsame : ∀ k, K.rank k < K.rank (.selection c) → K.vals u' k = K.vals u k := fun _ hk =>
    vals_below htype hrank.le (fun r hr hr' => hu r hr (hr' c le_rfl)) hk
  have hmode' : K.mode u' c = .y := by
    rw [← hmode]
    have hread : (choiceTriValue c : Attr K.toTables _).Within (fun _ => True)
        fun r => r ≠ .symValue s ∧ r ≠ .userSelection c :=
      within_choiceTriValue trivial ⟨fun _ _ => trivial, by simp⟩
    exact Query.eval_congr (hbody.left.and hread) (fun k hk => hsame k hk.1)
      fun r hr => hu r hr.2.1 hr.2.2
  have hvis' : K.vis u' s = K.vis u s := by
    have h := hbody.right u.inputs (K.vals u)
    have heval : (choiceTriValue c : Attr K.toTables _).eval u.inputs (K.vals u) = .y := hmode
    rw [heval] at h
    exact hsame _ (h.2 (some ⟨s, hs⟩)).1
  refine ⟨hvis', ?_⟩
  have hvalue : (K.values u').triValue (.choice c) = .y := hmode'
  rw [selected_eq]
  unfold selectionIn
  rw [if_neg (by simp [hvalue]), hsel]
  simp [hvis', hvis]

end Regular

/-- **Assignable values in a choice.** Where nothing selects or implies a choice symbol, it has the
values listed for it after they are set. -/
theorem assignable_choice {c : C} (hc : K.Regular c) (hs : s ∈ (K.choice c).syms)
    (calls : List (Call S C))
    (hrev : (K.sym s).revDep.value (K.values (K.after calls)) = .n)
    (hweak : (K.sym s).weakRevDep.value (K.values (K.after calls)) = .n) {l : List Tristate}
    (hl : K.assignableAfter calls s = some l) {t : Tristate} (ht : t ∈ l) :
    K.triAfter (calls ++ [.setValue s (.tri t)]) s = some t := by
  have hdef := K.choice_syms c s hs
  have htype := hc.symType s hs
  have hafter : K.after (calls ++ [.setValue s (.tri t)]) = assign (K.after calls) s (.tri t) := by
    rw [after, List.foldl_append]
    rfl
  rw [assignableAfter_eq, Option.some_inj] at hl
  subst hl
  rw [triAfter_eq, Option.some_inj, hafter]
  generalize K.after calls = u at hrev hweak ht ⊢
  rw [symAssignableIn, (K.defined s hdef).2, htype, hc.symChoice s hs, hrev, noModuleIn] at ht
  change (K.vals (assign u s (.tri t)) (.triValue s)).1 = t
  rw [hc.vals_triValue hs]
  cases hvis : K.vis u s with
  | n => simp [hvis] at ht
  | m =>
    have htri : (K.sym s).origType = .tristate := by
      have hbool := symTypeIn_of_vis_m hvis
      revert htype hbool
      unfold symTypeIn
      cases (K.sym s).origType <;> simp [isBoolTristate]
    have hnot : t = .n ∨ t = .m := by simpa [hvis, hweak, symValuesFor] using ht
    have hassign : assign u s (.tri t) = u.setSym s (some (.tri t)) := by
      unfold assign
      rw [htri]
      simp only [UserValue.forType, isBoolTristate, UserValue.normalize, validFor, if_true]
      split
      · rfl
      · rw [if_neg]
        rintro ⟨rfl⟩
        rcases hnot with h | h <;> cases h
    have hvis' : K.vis (assign u s (.tri t)) s = .m := by
      rw [hassign, ← hvis]
      exact vals_below htype le_rfl (fun r hr _ => setSym_inputs u s (some (.tri t)) r hr)
        (rank_visibility_lt hdef htype)
    have hvalue : (assign u s (.tri t)).symValue s = some (.tri t) := by
      rw [hassign]
      exact Function.update_self ..
    rw [hvis', if_neg (by decide), if_neg (by decide), hvalue]
    rcases hnot with rfl | rfl <;> rfl
  | y =>
    obtain rfl : t = .y := by simpa [hvis, hc.symChoice s hs] using ht
    have hmode : K.mode u c = .y := by
      cases hmode : K.mode u c with
      | n => rw [hc.vis_of_mode_n hs hmode] at hvis; cases hvis
      | m => exact absurd hvis (hc.vis_of_mode_m hs hmode)
      | y => rfl
    have hassign : assign u s (.tri .y) =
        (u.setSym s (some (.tri .y))).setSelection c (some ⟨s, hs⟩) := by
      have hvalue : (UserValue.tri .y).forType (K.sym s).origType = .tri .y := by
        unfold UserValue.forType
        split <;> rfl
      have hvalid : validFor (K.sym s).origType (.tri .y) = true := by
        revert htype
        cases (K.sym s).origType <;> simp [isBoolTristate, validFor]
      unfold assign
      simp only [hvalue, hvalid, if_true]
      split
      · next h => rw [hc.symChoice s hs] at h; cases h
      · next d h =>
        obtain rfl := Option.some.inj ((hc.symChoice s hs).symm.trans h)
        rfl
    have hread : ∀ r, r ≠ .symValue s → r ≠ .userSelection c →
        (assign u s (.tri .y)).inputs r = u.inputs r := by
      intro r hr hr'
      rw [hassign]
      cases r with
      | symValue t => exact Function.update_of_ne (fun h => hr (by rw [h])) _ _
      | choiceValue d => rfl
      | userSelection d => exact Function.update_of_ne (fun h => hr' (by rw [h])) _ _
    have huser : (assign u s (.tri .y)).userSelection c = some ⟨s, hs⟩ := by
      rw [hassign]
      exact Function.update_self ..
    obtain ⟨hvis', hsel⟩ := hc.selected_assign hs hmode (by rw [hvis]; decide) hread huser
    rw [hvis', hvis, if_pos rfl, if_pos hsel]

end Kconfig

/-! ## A tristate symbol -/

namespace Tri

/-- `MODULES` and one tristate symbol. -/
inductive Sym where
  | n | m | y | modules | a
deriving DecidableEq

def tables : Tables Sym Empty where
  sym
    | .n => .constant .n "n".toList .n
    | .m => .constant .n "m".toList .m
    | .y => .constant .n "y".toList .y
    | .modules =>
      .config .n "MODULES".toList .bool (.item (.sym .y)) [(.item (.sym .y), .item (.sym .y))]
    | .a => .config .n "A".toList .tristate (.item (.sym .y)) []
  choice := nofun
  consts := ⟨.n, .m, .y⟩
  modules := .modules
  uniqueDefinedSyms := [.modules, .a]
  uniqueChoices := []

/-- Attributes stand above those they look at: `a` above `MODULES`, which its type depends on. -/
def rank : Key Sym Empty → ℕ
  | .visibility (.sym .a) => 3
  | .visibility (.sym .modules) => 1
  | .triValue .modules => 2
  | .triValue .a => 4
  | .strValue _ => 5
  | .assignable _ => 6
  | _ => 0

section Within

variable {b : ℕ}

/-- The constants stand below everything. -/
theorem within_constant {s : Sym} (hs : s = .n ∨ s = .y) (hb : 0 < b) :
    (exprValue (.item (.sym s)) : Attr tables Tristate).Within (fun k => rank k < b)
      fun _ => True := by
  rcases hs with rfl | rfl <;> exact ⟨hb, fun _ => trivial⟩

theorem within_defaultTri {s : Sym} (hs : s ∈ tables.uniqueDefinedSyms) (hb : 0 < b) :
    (defaultTri (tables.sym s).defaults : Attr tables Tristate).Within (fun k => rank k < b)
      fun _ => True := by
  have hy := within_constant (Or.inr rfl) hb
  cases s
  case modules =>
    exact hy.bind fun _ => .ite (fun _ => trivial) fun _ => hy.bind fun _ => trivial
  case a => trivial
  all_goals exact absurd hs (by decide)

variable {s : Sym} (hs : s ∈ tables.uniqueDefinedSyms) (hb : 0 < b)
  (htype : (symType s : Attr tables SymbolType).Within (fun k => rank k < b) fun _ => True)

include hs hb htype

/-- The one prompt is a constant, so the visibility reads no more than the type does. -/
theorem within_visibility : (symVisibility s : Attr tables Tristate).Within (fun k => rank k < b)
    fun _ => True := by
  have hy := within_constant (Or.inr rfl) hb
  have hprompts : (tables.sym s).prompts = [.item (.sym .y)] ∧ (tables.sym s).choice = none := by
    cases s <;> first | exact ⟨rfl, rfl⟩ | exact absurd hs (by decide)
  unfold symVisibility hiddenInChoice
  rw [hprompts.1, hprompts.2]
  refine Query.Within.bind (hy.bind fun _ => trivial) fun _ => ?_
  refine Query.Within.bind trivial fun _ => .ite (fun _ => trivial) fun _ => ?_
  exact .ite (fun _ => htype.bind fun _ => .ite (fun _ => trivial) fun _ => trivial) fun _ => trivial

omit hb in
theorem within_symTri (hvis : rank (.visibility (.sym s)) < b) :
    (symTri s : Attr tables (Tristate × Bool)).Within (fun k => rank k < b) fun _ => True := by
  have hb : 0 < b := Nat.zero_lt_of_lt hvis
  have hn := within_constant (Or.inl rfl) hb
  have hdef : (tables.sym s).revDep = .item (.sym .n) ∧
      (tables.sym s).weakRevDep = .item (.sym .n) ∧ (tables.sym s).directDep = .item (.sym .y) ∧
      (tables.sym s).choice = none ∧ (tables.sym s).preset = none := by
    cases s <;> first | exact ⟨rfl, rfl, rfl, rfl, rfl⟩ | exact absurd hs (by decide)
  obtain ⟨hrev, hweak, hdirect, hchoice, hpreset⟩ := hdef
  have hdefault : ∀ write, (defaultsAndImplies s write : Attr tables (Tristate × Bool)).Within
      (fun k => rank k < b) fun _ => True := by
    intro write
    unfold defaultsAndImplies
    rw [hweak, hdirect]
    refine (within_defaultTri hs hb).bind fun _ => hn.bind fun _ => .ite (fun _ => trivial) fun _ => ?_
    exact (within_constant (Or.inr rfl) hb).bind fun _ => .ite (fun _ => trivial) fun _ => trivial
  have hread : (visibility (.sym s) : Attr tables Tristate).Within (fun k => rank k < b)
      fun _ => True := ⟨hvis, fun _ => trivial⟩
  have huser : (symUserValue s : Attr tables (Option UserValue)).Within (fun k => rank k < b)
      fun _ => True := ⟨trivial, fun _ => trivial⟩
  unfold symTri triFrom
  rw [hpreset, hchoice]
  refine .ite (fun _ => hread.bind fun vis => huser.bind fun user => ?_) fun _ => trivial
  refine Query.Within.bind (q := userOrDefaults s vis user) ?_ fun r => ?_
  · unfold userOrDefaults
    split
    · exact .ite (fun _ => hdefault _) fun _ => trivial
    · exact hdefault _
  · unfold promote
    rw [hrev, hweak]
    refine hn.bind fun _ => Query.Within.bind ?_ fun _ => trivial
    refine .ite (fun _ => htype.bind fun _ => .ite (fun _ => trivial) fun _ => ?_) fun _ => trivial
    exact hn.bind fun _ => .ite (fun _ => trivial) fun _ => trivial

omit hb in
theorem within_symAssignable (hvis : rank (.visibility (.sym s)) < b) :
    (symAssignable s : Attr tables (List Tristate)).Within (fun k => rank k < b) fun _ => True := by
  have hn := within_constant (Or.inl rfl) (Nat.zero_lt_of_lt hvis)
  have hdef : (tables.sym s).revDep = .item (.sym .n) ∧
      (tables.sym s).weakRevDep = .item (.sym .n) := by
    cases s <;> exact ⟨rfl, rfl⟩
  have hread : (visibility (.sym s) : Attr tables Tristate).Within (fun k => rank k < b)
      fun _ => True := ⟨hvis, fun _ => trivial⟩
  have himply := hn.bind (f := fun v => (pure (decide (v = .y)) : Attr tables Bool)) fun _ => trivial
  refine .ite (fun _ => hread.bind fun vis => .ite (fun _ => trivial) fun _ => ?_) fun _ => trivial
  rw [hdef.1]
  refine hn.bind fun rev => .ite (fun _ => trivial) fun _ => Query.Within.bind ?_ fun _ => trivial
  unfold noModule
  rw [hdef.2]
  refine .ite (fun _ => htype.bind fun _ => ?_) fun _ => .ite (fun _ => himply) fun _ => trivial
  exact .ite (fun _ => trivial) fun _ => himply

end Within

/-- The properties do not loop: of `a`, they read `MODULES`; those of `MODULES` read constants. -/
theorem acyclic : Ranked (body tables) rank := by
  have hmod : ∀ {b : ℕ}, (symType .modules : Attr tables SymbolType).Within (fun k => rank k < b)
      fun _ => True := trivial
  have ha : ∀ {b : ℕ}, 2 < b → (symType .a : Attr tables SymbolType).Within (fun k => rank k < b)
      fun _ => True := by
    intro b hb
    have htri : (symTriValue .modules : Attr tables Tristate).Within (fun k => rank k < b)
        fun _ => True := ⟨hb, fun _ => trivial⟩
    exact htri.bind fun _ => .ite (fun _ => trivial) fun _ => trivial
  intro k
  rcases k with (s | c) | s | s | c | (s | c)
  · cases s
    case n | m | y => trivial
    case modules => exact within_visibility (by decide) (by decide) hmod
    case a => exact within_visibility (by decide) (by decide) (ha (by decide))
  · cases c
  · cases s
    case n | m | y => trivial
    case modules => exact within_symTri (by decide) hmod (by decide)
    case a => exact within_symTri (by decide) (ha (by decide)) (by decide)
  · cases s <;> exact ⟨by decide, fun _ => trivial⟩
  · cases c
  · cases s
    case n | m | y => trivial
    case modules => exact within_symAssignable (by decide) hmod (by decide)
    case a => exact within_symAssignable (by decide) (ha (by decide)) (by decide)
  · cases c

/-- The configuration, with the dependencies that `_build_dep` registers. -/
def kconfig : Kconfig Sym Empty where
  toTables := tables
  dependents := fun i => tables.items.filter fun j => i ∈ tables.dependsOn j
  mem_dependents := fun i j => by simp
  mem_choices := nofun
  undefined := fun s => by cases s <;> decide
  defined := fun s => by cases s <;> decide
  preset := by decide
  choice_mem := nofun
  choice_syms := nofun
  choice_defaults := nofun
  rank := rank
  acyclic := acyclic

theorem assignable_iff_a :
    (¬ Kconfig.Raised (kconfig.after []) Sym.a →
      (Tristate.m ∈ [Tristate.n, .m, .y] ↔
        kconfig.triAfter ([] ++ [.setValue .a (.tri .m)]) .a = some .m)) ∧
    (Kconfig.Raised (kconfig.after []) Sym.a → [Tristate.n, .m, .y] = [.m] ∧
      kconfig.triAfter ([] ++ [.setValue .a (.tri .m)]) .a = some .y) := by
  have hvis : kconfig.visAfter [] .a ≠ some .n := by decide
  have hl : kconfig.assignableAfter [] .a = some [.n, .m, .y] := by decide
  exact Kconfig.assignable_iff (by decide) rfl rfl [] hvis hl .m

end Tri

end MaixSpeech.Kconfiglib
