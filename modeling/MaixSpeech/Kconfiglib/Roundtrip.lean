import MaixSpeech.Kconfiglib.Agree
import MaixSpeech.Kconfiglib.Assignable
import MaixSpeech.Kconfiglib.Reads

/-!
# Writing and loading

Reference: `tools/kconfig/Kconfiglib/kconfiglib.py`.

A configuration that is written and loaded again has the values it had, whatever the loading one was
used for before. The two halves meet at the assignments of the file: `fileCalls_configContents` says
which ones they are, `Reads` what they leave, and with that the two users agree.

A few states do not survive: a tristate symbol that defaults raise above its visibility comes back
lower, and a choice with all its symbols at `n` comes back in the mode it has without a user value.
`Settled` excludes them, and nothing else.
-/

namespace MaixSpeech.Kconfiglib

open Common Common.Memo Build

variable {S C : Type}

/-! ## Values that are set again -/

section Again

variable {T : Tables S C} {v : Valuation S C}

/-- A choice that is set to its mode keeps it. -/
theorem modeIn_again {c : C} {vis : Tristate} (hvis : vis = .m → choiceTypeIn T v c ≠ .bool)
    (user : Option Tristate) :
    modeIn T v c vis (some (modeIn T v c vis user)) = modeIn T v c vis user := by
  unfold modeIn promoteIf modeOf
  by_cases hbool : choiceTypeIn T v c = .bool
  · have hm : vis ≠ .m := fun hm => hvis hm hbool
    simp only [hbool, and_true]
    cases vis with
    | n => cases (T.choice c).isOptional <;> rcases user with - | ⟨- | - | -⟩ <;> rfl
    | m => exact absurd rfl hm
    | y => cases (T.choice c).isOptional <;> rcases user with - | ⟨- | - | -⟩ <;> rfl
  · simp only [hbool, and_false, if_false]
    cases (T.choice c).isOptional <;> cases vis <;> rcases user with - | ⟨- | - | -⟩ <;> rfl

variable {s : S} {vis : Tristate}

/-- What the user set an invisible symbol to does not count. -/
theorem plainTriIn_invisible (user : Option UserValue) :
    plainTriIn T v s .n user = plainTriIn T v s .n none := by
  rcases user with - | ⟨t | t⟩ <;> rfl

theorem typedStrIn_invisible (user : Option UserValue) :
    typedStrIn T v s .n user = typedStrIn T v s .n none := by
  have hstring : stringUser .n user = none := by rcases user with - | ⟨t | t⟩ <;> rfl
  have hnum : ∀ base range, intHexUser base range .n user = none := by
    intro base range
    rcases user with - | ⟨t | t⟩ <;> simp [intHexUser]
  unfold typedStrIn stringIn intHexIn
  simp only [hstring, hnum]
  rfl

theorem plainTriIn_written (hvis : vis ≠ .n) (user : Option UserValue) :
    (plainTriIn T v s vis user).2 = true := by
  have huser : (userOrDefaultsIn T v s vis user).2 = true := by
    unfold userOrDefaultsIn
    split
    · rw [if_neg hvis]
    · unfold defaultsAndImpliesIn
      split <;> simp [hvis]
  simp [plainTriIn, huser]

theorem typedStrIn_written (hvis : vis ≠ .n) (user : Option UserValue) :
    (typedStrIn T v s vis user).2 = true := by
  unfold typedStrIn
  split
  · unfold stringIn
    split
    · rfl
    · simp [hvis]
  · unfold intHexIn
    simp only
    split
    · rfl
    · simp [hvis]

theorem mModeValue_again (user : Option UserValue) :
    mModeValue (some (.tri (mModeValue user))) = mModeValue user := by
  rcases user with - | ⟨t | t⟩
  · rfl
  · cases t <;> rfl
  · rfl

/-- A visible symbol that is set to its value keeps it, unless defaults have raised it above its
visibility. -/
theorem plainTriIn_again (hvis : vis ≠ .n) {user : Option UserValue} :
    plainTriIn T v s vis (some (.tri (plainTriIn T v s vis user).1)) = plainTriIn T v s vis user ↔
      (vis = .m → symTypeIn T v s ≠ .bool → (plainTriIn T v s vis user).1 = .y →
        (T.sym s).revDep.value v = .y ∨ (T.sym s).weakRevDep.value v = .y) := by
  rw [Prod.ext_iff, plainTriIn_written hvis, plainTriIn_written hvis, Kconfig.plainTriIn_user hvis]
  simp only [and_true]
  unfold plainTriIn promoteIf
  simp only
  generalize (userOrDefaultsIn T v s vis user).1 = d
  generalize (T.sym s).revDep.value v = rev
  generalize (T.sym s).weakRevDep.value v = weak
  by_cases hbool : symTypeIn T v s = .bool
  · simp only [hbool, true_or, and_true, ne_eq, not_true_eq_false, false_implies, implies_true,
      iff_true]
    cases vis with
    | n => exact absurd rfl hvis
    | m => cases d <;> cases rev <;> rfl
    | y => cases d <;> cases rev <;> rfl
  · simp only [hbool, false_or, ne_eq, not_false_eq_true, true_implies]
    cases vis with
    | n => exact absurd rfl hvis
    | m => cases d <;> cases rev <;> cases weak <;> decide
    | y => cases d <;> cases rev <;> cases weak <;> decide

/-- The texts of visible string, int and hex symbols are their own, where `set_value` takes them. -/
theorem typedStrIn_again (hvis : vis ≠ .n) {user : Option UserValue}
    (huser : ∀ w, user = some w → validFor (T.sym s).origType w = true) :
    typedStrIn T v s vis (if validFor (T.sym s).origType (.str (typedStrIn T v s vis user).1) then
      some (.str (typedStrIn T v s vis user).1) else none) = typedStrIn T v s vis user := by
  have hwritten := fun user => typedStrIn_written (T := T) (v := v) (s := s) hvis user
  unfold typedStrIn at hwritten ⊢
  split
  · next hstring =>
    simp only [if_pos hstring] at hwritten
    rw [hstring, validFor, if_pos rfl, stringIn, stringUser, if_pos hvis, ← hwritten user]
  · next hstring =>
    -- Without a user value that counts, the symbol has the value of its defaults.
    have hdefault : ∀ user, intHexUser (typeToBase (T.sym s).origType)
        (rangeIn v (typeToBase (T.sym s).origType) (T.sym s).ranges) vis user = none →
        intHexIn T v s vis user = intHexIn T v s vis none := by
      intro user hnone
      unfold intHexIn
      simp only [hnone]
      rfl
    have hcounts : ∀ user t, intHexUser (typeToBase (T.sym s).origType)
        (rangeIn v (typeToBase (T.sym s).origType) (T.sym s).ranges) vis user = some t →
        intHexIn T v s vis user = (t, true) := by
      intro user t hsome
      unfold intHexIn
      simp only [hsome]
    simp only [if_neg hstring] at hwritten
    cases ht : intHexUser (typeToBase (T.sym s).origType)
        (rangeIn v (typeToBase (T.sym s).origType) (T.sym s).ranges) vis user with
    | some t =>
      obtain rfl : user = some (.str t) := by
        unfold intHexUser at ht
        split at ht
        · split at ht
          · rw [Option.some.inj ht]
          · cases ht
        · cases ht
      rw [hcounts _ t ht, if_pos (huser _ rfl), hcounts _ t ht]
    | none =>
      rw [hdefault _ ht]
      split
      · cases ht' : intHexUser (typeToBase (T.sym s).origType)
            (rangeIn v (typeToBase (T.sym s).origType) (T.sym s).ranges) vis
            (some (.str (intHexIn T v s vis none).1)) with
        | some t =>
          have hself : t = (intHexIn T v s vis none).1 := by
            unfold intHexUser at ht'
            simp only [hvis, ne_eq, not_false_eq_true, true_and] at ht'
            split at ht'
            · exact (Option.some.inj ht').symm
            · cases ht'
          rw [hcounts _ t ht', hself, ← hwritten none]
        | none => exact hdefault _ ht'
      · rfl

end Again

namespace Kconfig

variable [DecidableEq S] [DecidableEq C] {K : Kconfig S C} {u u' : User K.toTables}

/-! ## What is written -/

theorem written_tri {s : S} (htype : isBoolTristate (K.sym s).origType = true) :
    K.written u s = (K.vals u (.triValue s)).2 :=
  congrArg Prod.snd (K.str_tri u htype)

theorem written_typed {s : S} (htype : ¬ isBoolTristate (K.sym s).origType = true)
    (hknown : (K.sym s).origType ≠ .unknown) : K.written u s =
      ((typedStrIn K.toTables (K.values u) s (K.vis u s) (u.symValue s)).2 && !(K.sym s).envVar) :=
  congrArg Prod.snd (K.str_typed u htype hknown)

/-- A choice symbol that is not `n` is written, and so is one that is visible. -/
theorem Regular.written {c : C} (hc : K.Regular c) {s : S} (hs : s ∈ (K.choice c).syms)
    (h : K.tri u s ≠ .n ∨ K.vis u s ≠ .n) : K.written u s = true := by
  have hvals := hc.vals_triValue hs (u := u)
  rw [written_tri (hc.symType s hs), hvals]
  split
  · rfl
  · split
    · next hn =>
      have htri : K.tri u s = .n := by
        have htri : K.tri u s = _ := congrArg Prod.fst hvals
        rw [htri, if_neg (by rw [hn]; decide), if_pos hn]
      rcases h with h | h
      · exact absurd htri h
      · exact absurd hn h
    · rfl

/-! ## What the loaded user has set -/

section Loaded

variable {P : List S} {p : User K.toTables × (Item S C → Bool)}

theorem Reads.symValue_eq (h : Reads u P p)
    (hP : ∀ s, s ∈ P ↔ s ∈ K.uniqueDefinedSyms ∧ K.written u s = true) {s : S}
    (hs : s ∈ K.uniqueDefinedSyms) : (unsetUnmarked p.1 p.2).symValue s =
      if K.written u s = true ∧ takesSaved u s = true then some (savedValue u s) else none := by
  have hmark := h.symMark s
  rw [hP] at hmark
  change (if s ∈ K.uniqueDefinedSyms ∧ p.2 (.sym s) = false then none else p.1.symValue s) = _
  by_cases hset : K.written u s = true ∧ takesSaved u s = true
  · have hp : p.2 (.sym s) = true := hmark.mpr ⟨⟨hs, hset.1⟩, hset.2⟩
    rw [if_pos hset, if_neg (by simp [hp])]
    exact h.symValue s ((hP s).mpr ⟨hs, hset.1⟩) hset.2
  · have hp : p.2 (.sym s) = false := by
      rw [← Bool.not_eq_true, hmark]
      exact fun hw => hset ⟨hw.1.2, hw.2⟩
    rw [if_neg hset, if_pos ⟨hs, hp⟩]

theorem Reads.choice_some (hreg : ∀ c, K.Regular c) (h : Reads u P p)
    (hP : ∀ s, s ∈ P ↔ s ∈ K.uniqueDefinedSyms ∧ K.written u s = true) {c : C} {s : S}
    (hs : s ∈ (K.choice c).syms) (hn : K.tri u s ≠ .n) :
    (unsetUnmarked p.1 p.2).choiceValue c = some (K.mode u c) ∧
      (K.tri u s = .y → (unsetUnmarked p.1 p.2).userSelection c = some ⟨s, hs⟩) := by
  have hmem : s ∈ P := (hP s).mpr ⟨K.choice_syms c s hs, (hreg c).written hs (Or.inl hn)⟩
  have hc := (hreg c).symChoice s hs
  have hp : p.2 (.choice c) = true := (h.choiceMark c).mpr ⟨s, hmem, hc, hn⟩
  change (if p.2 (.choice c) = false then none else p.1.choiceValue c) = _ ∧
    (_ → (if p.2 (.choice c) = false then none else p.1.userSelection c) = _)
  rw [hp, if_neg (by decide), if_neg (by decide)]
  exact ⟨h.mode s hmem c hc hn, h.selection s hmem c hc⟩

theorem Reads.choice_none (h : Reads u P p) {c : C}
    (hn : ∀ s ∈ (K.choice c).syms, K.tri u s = .n) :
    (unsetUnmarked p.1 p.2).choiceValue c = none ∧
      (unsetUnmarked p.1 p.2).userSelection c = none := by
  have hp : p.2 (.choice c) = false := by
    rw [← Bool.not_eq_true, h.choiceMark]
    rintro ⟨s, -, hc, hne⟩
    exact hne (hn s (K.choice_mem s c hc).1)
  exact ⟨if_pos hp, if_pos hp⟩

end Loaded

/-! ## What survives -/

/-- A state that survives: no symbol is above its visibility for a default alone, a choice without
values has the mode that it has anyway, and a symbol that the environment sets has the value it gets
there. -/
structure Settled (u : User K.toTables) : Prop where
  raised : ∀ s ∈ K.uniqueDefinedSyms, isBoolTristate (K.sym s).origType = true →
    (K.sym s).choice = none → K.vis u s = .m → K.tri u s = .y →
    (K.sym s).revDep.value (K.values u) = .y ∨ (K.sym s).weakRevDep.value (K.values u) = .y
  mode : ∀ c, (∀ s ∈ (K.choice c).syms, K.tri u s = .n) →
    modeIn K.toTables (K.values u) c (K.choiceVis u c) none = K.mode u c
  env : ∀ s ∈ K.uniqueDefinedSyms, isBoolTristate (K.sym s).origType = false →
    (K.sym s).origType ≠ .unknown → (K.sym s).envVar = true →
    (typedStrIn K.toTables (K.values u) s (K.vis u s) none).1 = K.str u s

/-- A choice that `m` is promoted in is not visible with `m`. -/
theorem choiceVis_ne_m {c : C} (h : K.choiceVis u c = .m) :
    choiceTypeIn K.toTables (K.values u) c ≠ .bool := by
  intro hbool
  rw [choiceVis_eq, choiceVisibilityIn, promoteIf] at h
  split at h
  · cases h
  · next hm => exact hm ⟨h, by rw [hbool]; decide⟩

section Loaded

variable {P : List S} {p : User K.toTables × (Item S C → Bool)}

/-- A settled state is read back. -/
theorem Reads.agrees (hreg : ∀ c, K.Regular c) (htyped : Typed u) (h : Reads u P p)
    (hP : ∀ s, s ∈ P ↔ s ∈ K.uniqueDefinedSyms ∧ K.written u s = true) (hsettled : Settled u) :
    Agrees u (unsetUnmarked p.1 p.2) where
  mode := by
    intro c
    by_cases hn : ∀ s ∈ (K.choice c).syms, K.tri u s = .n
    · rw [(h.choice_none hn).1]
      exact hsettled.mode c hn
    · push Not at hn
      obtain ⟨s, hs, hne⟩ := hn
      rw [(h.choice_some hreg hP hs hne).1, mode_eq]
      exact modeIn_again choiceVis_ne_m _
  selection := by
    intro c
    cases hsel : K.selected u c with
    | none =>
      have hn : ∀ s ∈ (K.choice c).syms, K.mode u c = .y → K.tri u s = .n := by
        intro s hs hy
        by_contra hne
        have htri := (hreg c).tri_eq_mode hs hne
        rw [hy] at htri
        have := ((hreg c).tri_eq_y_iff hs).mp htri
        rw [hsel] at this
        cases this
      rw [selected_eq] at hsel
      unfold selectionIn at hsel ⊢
      split
      · rfl
      · next hmode =>
        have hy : K.mode u c = .y := not_not.mp hmode
        rw [if_neg hmode] at hsel
        rw [(h.choice_none fun s hs => hn s hs hy).2]
        split at hsel
        · exact hsel
        · split at hsel
          · exact hsel
          · cases hsel
    | some s =>
      obtain ⟨hmode, hs, hvis⟩ := selected_some hsel
      have htri : K.tri u s = .y := ((hreg c).tri_eq_y_iff hs).mpr hsel
      have huser := (h.choice_some hreg hP hs (by rw [htri]; decide)).2 htri
      unfold selectionIn
      rw [if_neg (show ¬ (K.values u).triValue (.choice c) ≠ .y from not_not.mpr hmode), huser]
      exact if_neg hvis
  plain := by
    intro s hs htype hc
    rw [h.symValue_eq hP hs]
    by_cases hvis : K.vis u s = .n
    · rw [hvis, plainTriIn_invisible, plainTriIn_invisible (u.symValue s)]
    · have htri := K.tri_plain u hs htype hc
      have hwritten : K.written u s = true := by
        rw [written_tri htype, htri]
        exact plainTriIn_written hvis _
      rw [if_pos ⟨hwritten, takesSaved_tri hreg hs htype⟩, savedValue_tri htype]
      have hval : K.tri u s = (plainTriIn K.toTables (K.values u) s (K.vis u s) (u.symValue s)).1 :=
        congrArg Prod.fst htri
      rw [hval]
      exact (plainTriIn_again hvis).mpr fun hm _ hy =>
        hsettled.raised s hs htype hc hm (hval.trans hy)
  member := by
    intro s hs c hc hm
    have hmem := (K.choice_mem s c hc).1
    have htype := (hreg c).symType s hmem
    have hwritten := (hreg c).written hmem (u := u) (Or.inr (by rw [hm]; decide))
    have htri : K.tri u s = _ := congrArg Prod.fst ((hreg c).vals_triValue hmem)
    rw [if_neg (by rw [hm]; decide), if_neg (by rw [hm]; decide)] at htri
    rw [h.symValue_eq hP hs, if_pos ⟨hwritten, takesSaved_tri hreg hs htype⟩, savedValue_tri htype,
      htri]
    exact mModeValue_again _
  typed := by
    intro s hs htype hknown
    have hbool : ¬ isBoolTristate (K.sym s).origType = true := by simp [htype]
    have hstr : K.str u s = _ := congrArg Prod.fst (K.str_typed u hbool hknown)
    have hwritten := written_typed hbool hknown (u := u)
    have hsaved : savedValue u s = .str (K.str u s) := if_neg hbool
    rw [h.symValue_eq hP hs]
    by_cases hvis : K.vis u s = .n
    · rw [hvis, typedStrIn_invisible, typedStrIn_invisible (u.symValue s)]
      exact ⟨rfl, rfl⟩
    · cases henv : (K.sym s).envVar with
      | true =>
        rw [henv, Bool.not_true, Bool.and_false] at hwritten
        rw [if_neg (by simp [hwritten]), hsettled.env s hs htype hknown henv, hstr]
        simp
      | false =>
        rw [henv, Bool.not_false, Bool.and_true, typedStrIn_written hvis] at hwritten
        rw [takesSaved, hwritten, hsaved, hstr]
        have hagain := typedStrIn_again (v := K.values u) (s := s) hvis (htyped.sym s)
        simp only [true_and, hagain, and_self]

/-- Only settled states are read back. -/
theorem Reads.settled (hreg : ∀ c, K.Regular c) (h : Reads u P p)
    (hP : ∀ s, s ∈ P ↔ s ∈ K.uniqueDefinedSyms ∧ K.written u s = true)
    (hsame : Same u (unsetUnmarked p.1 p.2)) : Settled u where
  raised := by
    intro s hs htype hc hm hy
    have hvis : K.vis u s ≠ .n := by
      rw [hm]
      decide
    have hvis' : K.vis (unsetUnmarked p.1 p.2) s = K.vis u s := congrArg (visOf · s) hsame.1
    have htri := K.tri_plain u hs htype hc
    have htri' := K.tri_plain (unsetUnmarked p.1 p.2) hs htype hc
    have hwritten : K.written u s = true := by
      rw [written_tri htype, htri]
      exact plainTriIn_written hvis _
    have hval : K.tri u s = (plainTriIn K.toTables (K.values u) s (K.vis u s) (u.symValue s)).1 :=
      congrArg Prod.fst htri
    rw [hsame.1, hsame.values_eq, hvis', h.symValue_eq hP hs,
      if_pos ⟨hwritten, takesSaved_tri hreg hs htype⟩, savedValue_tri htype, hval, htri] at htri'
    exact (plainTriIn_again hvis).mp htri'.symm hm (symTypeIn_of_vis_m hm) (hval ▸ hy)
  mode := by
    intro c hn
    have hmode := K.mode_eq (unsetUnmarked p.1 p.2) c
    have hvis : K.choiceVis (unsetUnmarked p.1 p.2) c = K.choiceVis u c :=
      congrFun hsame.1 (.visibility (.choice c))
    rw [hsame.2, hsame.values_eq, hvis, (h.choice_none hn).1] at hmode
    exact hmode.symm
  env := by
    intro s hs htype hknown henv
    have hbool : ¬ isBoolTristate (K.sym s).origType = true := by simp [htype]
    have hwritten := written_typed hbool hknown (u := u)
    rw [henv, Bool.not_true, Bool.and_false] at hwritten
    have hstr := congrArg Prod.fst (K.str_typed (unsetUnmarked p.1 p.2) hbool hknown)
    have hvis : K.vis (unsetUnmarked p.1 p.2) s = K.vis u s := congrArg (visOf · s) hsame.1
    rw [hsame.1, hsame.values_eq, hvis, h.symValue_eq hP hs, if_neg (by simp [hwritten])] at hstr
    exact hstr.symm

end Loaded

/-! ## Round trips -/

/-- String values are on one line, and so are those of int and hex symbols, which also have no space
behind them. -/
def PlainTexts (u : User K.toTables) : Prop :=
  ∀ s ∈ K.uniqueDefinedSyms, isBoolTristate (K.sym s).origType = false → K.written u s = true →
    '\n' ∉ K.str u s ∧ '\r' ∉ K.str u s ∧
      ((K.sym s).origType ≠ .string → ∀ c ∈ (K.str u s).getLast?, isPySpace c = false)

theorem PlainTexts.plainEntry (hreg : ∀ c, K.Regular c) (h : PlainTexts u) {s : S}
    (hs : s ∈ K.uniqueDefinedSyms) (hwritten : K.written u s = true) :
    PlainEntry (K.sym s) (K.str u s) := by
  cases htype : isBoolTristate (K.sym s).origType with
  | true =>
    have htakes := takesSaved_tri hreg hs htype (u := u)
    rw [takesSaved, savedValue_tri htype] at htakes
    rw [str_eq_toStr htype]
    refine ⟨fun _ => ⟨K.tri u s, rfl, fun hm => ?_⟩, ?_, ?_, fun _ => ?_, ?_⟩
    · rw [hm] at htakes
      revert htype htakes
      cases (K.sym s).origType <;> simp [isBoolTristate, validFor]
    · cases K.tri u s <;> decide
    · cases K.tri u s <;> decide
    · cases K.tri u s <;> simp [Tristate.toStr] <;> decide
    · intro hunknown
      rw [hunknown] at htype
      cases htype
  | false =>
    obtain ⟨hnl, hcr, hspace⟩ := h s hs htype hwritten
    refine ⟨fun hbool => ?_, hnl, hcr, hspace, fun hunknown => ?_⟩
    · rw [htype] at hbool
      cases hbool
    · have hstr : K.vals u (.strValue s) = ((K.sym s).name, false) := by
        refine (K.vals_eq u (.strValue s)).trans ?_
        change (symStr s : Attr K.toTables _).eval u.inputs (K.vals u) = _
        rw [symStr, if_neg (by simp [htype]), if_pos hunknown]
        rfl
      have hnot : K.written u s = false := congrArg Prod.snd hstr
      rw [hwritten] at hnot
      cases hnot

variable (K) (top : List (MenuNode S C)) (calls calls' : List (Call S C))

/-- Writes the configuration after some calls and loads the file after others. -/
def reload : Option (State K) := do
  let st ← run K.initial calls
  let r ← writeConfig st configHeader top
  let st' ← run K.initial calls'
  loadConfig st' r.1 true

variable {K} {top} {calls}

/-- Written and loaded, a user is read back. -/
theorem reload_good (hreg : ∀ c, K.Regular c) (htree : K.Tree top)
    (hplain : PlainTexts (K.after calls)) (calls' : List (Call S C)) :
    ∃ st P p, K.reload top calls calls' = some st ∧ Good st ∧ st.user = unsetUnmarked p.1 p.2 ∧
      Reads (K.after calls) P p ∧
      ∀ s, s ∈ P ↔ s ∈ K.uniqueDefinedSyms ∧ K.written (K.after calls) s = true := by
  have hinit : Good K.initial := valid_empty
  obtain ⟨st₁, hrun₁, huser₁, hgood₁⟩ := run_good hinit calls
  obtain ⟨st₂, hrun₂, huser₂, hgood₂⟩ := run_good hinit calls'
  obtain ⟨_, hask, -, -⟩ := ask_good hgood₁ (configContents configHeader top)
  have hu : st₁.user = K.after calls := huser₁
  rw [hu] at hask
  obtain ⟨st, hload, huser, hgood⟩ := loadConfig_good hgood₂
    ((configContents configHeader top : Attr K.toTables Text).eval (K.after calls).inputs
      (K.vals (K.after calls)))
  have hnil : Reads (K.after calls) [] (st₂.user, fun _ => false) :=
    Reads.nil (huser₂ ▸ typed_after calls')
  have hreads := hnil.flatMap hreg (K.lines (K.after calls) top)
  rw [← htree.fileCalls_configContents fun s hs hw => hplain.plainEntry hreg hs hw] at hreads
  refine ⟨st, _, _, ?_, hgood, huser, hreads, fun s => ?_⟩
  · rw [reload, hrun₁]
    change (writeConfig st₁ configHeader top).bind _ = _
    rw [writeConfig, hask]
    change (run K.initial calls').bind _ = _
    rw [hrun₂]
    exact hload
  · rw [List.append_nil, List.mem_reverse]
    exact htree.mem_lines

/-- The values after it are the same exactly when the state was settled. -/
theorem reload_same (hreg : ∀ c, K.Regular c) (htree : K.Tree top)
    (hplain : PlainTexts (K.after calls)) (calls' : List (Call S C)) :
    ∃ st₁ st, run K.initial calls = some st₁ ∧ Good st₁ ∧ st₁.user = K.after calls ∧
      K.reload top calls calls' = some st ∧ Good st ∧
      (Same (K.after calls) st.user ↔ Settled (K.after calls)) := by
  obtain ⟨st, P, p, hreload, hgood, huser, hreads, hP⟩ := reload_good hreg htree hplain calls'
  obtain ⟨st₁, hrun₁, huser₁, hgood₁⟩ := run_good (valid_empty : Good K.initial) calls
  refine ⟨st₁, st, hrun₁, hgood₁, huser₁, hreload, hgood, ?_⟩
  rw [huser]
  exact ⟨hreads.settled hreg hP, fun h => (hreads.agrees hreg (typed_after calls) hP h).same⟩

omit [DecidableEq C] in
/-- What is written depends on what the user has set through the values only. -/
theorem eval_contentsLoop_congr {T : Tables S C} {inp inp' : ∀ r, Read.Val T r}
    {val : ∀ k : Key S C, k.Val} (h : valuation inp' val = valuation inp val)
    (visits : List (Visit S C)) (visited : List S) (afterEnd : Bool) :
    (contentsLoop visits visited afterEnd : Attr T Text).eval inp' val =
      (contentsLoop visits visited afterEnd : Attr T Text).eval inp val := by
  have hexpr : ∀ e : Expr S C, (exprValue e : Attr T Tristate).eval inp' val =
      (exprValue e : Attr T Tristate).eval inp val := by
    intro e
    rw [eval_exprValue, eval_exprValue, h]
  have hshows : ∀ (item : MenuItem S C) (dep visibility : Expr S C),
      (showsPrompt item dep visibility : Attr T Bool).eval inp' val =
        (showsPrompt item dep visibility : Attr T Bool).eval inp val := by
    intro item dep visibility
    unfold showsPrompt
    rw [Query.eval_bind, Query.eval_bind, hexpr, Query.eval_ite, Query.eval_ite]
    rcases item with s | c | - | -
    · rfl
    · rfl
    · rw [Query.eval_bind, Query.eval_bind, hexpr]
      rfl
    · rfl
  have hconf : ∀ s, (symConfigString s : Attr T Text).eval inp' val =
      (symConfigString s : Attr T Text).eval inp val := fun _ => rfl
  induction visits generalizing visited afterEnd with
  | nil => rfl
  | cons v visits ih =>
    rcases v with ⟨s | c | - | -, p, dep, visibility⟩ | ⟨s | c | - | -, p, dep, visibility⟩ <;>
      simp only [contentsLoop]
    · split
      · exact ih _ _
      · rw [Query.eval_bind, Query.eval_bind, hconf, Query.eval_ite, Query.eval_ite, ih,
          Query.eval_bind, Query.eval_bind, ih]
        rfl
    all_goals
      first
      | exact ih _ _
      | rw [Query.eval_bind, Query.eval_bind, hshows, Query.eval_ite, Query.eval_ite, ih,
          Query.eval_bind, Query.eval_bind, ih]
        rfl

/-- What `write_config` writes, if there is a state. -/
def textFrom (top : List (MenuNode S C)) (st : Option (State K)) : Option Text := do
  let r ← writeConfig (← st) configHeader top
  pure r.1

theorem textFrom_same {st st₁ : State K} (hgood : Good st) (hgood₁ : Good st₁)
    (hsame : Same st₁.user st.user) (top : List (MenuNode S C)) :
    textFrom top (some st) = textFrom top (some st₁) := by
  have hvalues : valuation st.user.inputs (K.vals st₁.user) =
      valuation st₁.user.inputs (K.vals st₁.user) := by
    have h := hsame.values_eq
    unfold values at h
    rwa [hsame.1] at h
  obtain ⟨_, hask, -, -⟩ := ask_good hgood (configContents configHeader top)
  obtain ⟨_, hask₁, -, -⟩ := ask_good hgood₁ (configContents configHeader top)
  change (writeConfig st configHeader top).bind _ = (writeConfig st₁ configHeader top).bind _
  rw [writeConfig, writeConfig, hask, hask₁, configContents, Query.eval_bind, Query.eval_bind,
    hsame.1, eval_contentsLoop_congr hvalues]
  rfl

end Kconfig

end MaixSpeech.Kconfiglib
