import MaixSpeech.Kconfiglib.Agree
import MaixSpeech.Kconfiglib.Loading

/-!
# Replacing a configuration

Reference: `tools/kconfig/Kconfiglib/kconfiglib.py`.

`load_config` with `replace` clears what was set before, so that the values come from the file alone.
There is one exception: a choice that the file puts in m mode is marked as set, and keeps the selection
that the user made before. `load_replaces` asks for a line that selects a symbol where a tristate
choice gets a mode.
-/

namespace MaixSpeech.Kconfiglib

open Common Common.Memo Build

variable {S C : Type}

/-! ## Lines -/

/-- The letters that a bool or tristate symbol takes are those of its values. -/
theorem takesLetter_tri {type : SymbolType} (htype : isBoolTristate type = true) {l : Char}
    (h : takesLetter type l = true) :
    ∃ t : Tristate, [l] = t.toStr ∧ validFor type (.tri t) = true := by
  have hcases : (l = 'y' ∨ l = 'n') ∨ type = .tristate ∧ l = 'm' := by
    simpa [takesLetter] using h
  rcases hcases with (rfl | rfl) | ⟨rfl, rfl⟩
  · refine ⟨.y, rfl, ?_⟩
    revert htype
    cases type <;> simp [isBoolTristate, validFor]
  · refine ⟨.n, rfl, ?_⟩
    revert htype
    cases type <;> simp [isBoolTristate, validFor]
  · exact ⟨.m, rfl, rfl⟩

/-- What a line does: nothing, set a symbol that it does not select, or set a choice symbol and the
mode of its choice. -/
theorem lineCalls_cases (T : Tables S C) (line : Text) :
    lineCalls T line = [] ∨
    (∃ s value, lineCalls T line = [.setValue s value] ∧
      ((T.sym s).choice = none ∨ value.forType (T.sym s).origType ≠ .tri .y)) ∨
    ∃ s c t, lineCalls T line = [.setChoice c (.str t.toStr), .setValue s (.str t.toStr)] ∧
      (T.sym s).choice = some c ∧ validFor (T.sym s).origType (.tri t) = true ∧ t ≠ .n := by
  have hunset : ∀ s, isBoolTristate (T.sym s).origType = true →
      (UserValue.str ['n']).forType (T.sym s).origType ≠ .tri .y := by
    intro s htype
    rw [UserValue.forType, if_pos htype]
    decide
  have hassign : ∀ s val, assignCalls T s val = [] ∨
      (∃ value, assignCalls T s val = [.setValue s value] ∧
        ((T.sym s).choice = none ∨ value.forType (T.sym s).origType ≠ .tri .y)) ∨
      ∃ c t, assignCalls T s val = [.setChoice c (.str t.toStr), .setValue s (.str t.toStr)] ∧
        (T.sym s).choice = some c ∧ validFor (T.sym s).origType (.tri t) = true ∧ t ≠ .n := by
    intro s val
    unfold assignCalls
    split
    · next htype =>
      split
      · next l rest =>
        split
        · next htakes =>
          split
          · next c hc =>
            split
            · next hn =>
              obtain ⟨t, ht, hvalid⟩ := takesLetter_tri htype htakes
              refine Or.inr (Or.inr ⟨c, t, by rw [ht], hc, hvalid, ?_⟩)
              rintro rfl
              exact hn (List.singleton_inj.mp ht)
            · next hn =>
              rw [not_not.mp hn]
              exact Or.inr (Or.inl ⟨_, rfl, Or.inr (hunset s htype)⟩)
          · next hc => exact Or.inr (Or.inl ⟨_, rfl, Or.inl hc⟩)
        · exact Or.inl rfl
      · exact Or.inl rfl
    · next htype =>
      have hstr : ∀ w, (UserValue.str w).forType (T.sym s).origType ≠ .tri .y := by
        intro w
        rw [UserValue.forType, if_neg htype]
        intro h
        cases h
      split
      · split
        · exact Or.inr (Or.inl ⟨_, rfl, Or.inr (hstr _)⟩)
        · exact Or.inl rfl
      · exact Or.inr (Or.inl ⟨_, rfl, Or.inr (hstr _)⟩)
  unfold lineCalls
  split
  · split
    · next s _ =>
      rcases hassign s _ with h | ⟨value, h⟩ | ⟨c, t, h⟩
      · exact Or.inl h
      · exact Or.inr (Or.inl ⟨s, value, h⟩)
      · exact Or.inr (Or.inr ⟨s, c, t, h⟩)
    · exact Or.inl rfl
  · split
    · next s _ =>
      split
      · next htype => exact Or.inr (Or.inl ⟨s, _, rfl, Or.inr (hunset s htype)⟩)
      · exact Or.inl rfl
    · exact Or.inl rfl

namespace Kconfig

variable [DecidableEq S] [DecidableEq C] {K : Kconfig S C}

/-! ## The same file for two users -/

/-- A choice gets a selection from some calls. -/
def Selects (K : Kconfig S C) (calls : List (Call S C)) (c : C) : Prop :=
  ∃ s, (K.sym s).choice = some c ∧ isBoolTristate (K.sym s).origType = true ∧
    .setValue s (.str ['y']) ∈ calls

/-- Two users after the same calls of a file agree on what is marked, and on the selections of the
choices that got one. Only tristate choices are marked without. -/
structure Follows (calls : List (Call S C)) (p p' : User K.toTables × (Item S C → Bool)) : Prop where
  typed : Typed p.1 ∧ Typed p'.1
  marks : p.2 = p'.2
  sym : ∀ s, p.2 (.sym s) = true → p.1.symValue s = p'.1.symValue s
  mode : ∀ c, p.2 (.choice c) = true → p.1.choiceValue c = p'.1.choiceValue c
  selection : ∀ c, Selects K calls c → p.1.userSelection c = p'.1.userSelection c
  selected : ∀ c, p.2 (.choice c) = true → Selects K calls c ∨
    (K.choice c).origType = .tristate ∧ ∃ value, .setChoice c value ∈ calls

theorem selects_append_setValue {calls : List (Call S C)} {s : S} {value : UserValue}
    (hplain : (K.sym s).choice = none ∨ value.forType (K.sym s).origType ≠ .tri .y) {c : C} :
    Selects K (calls ++ [.setValue s value]) c ↔ Selects K calls c := by
  constructor
  · rintro ⟨t, hc, htype, hmem⟩
    rcases List.mem_append.mp hmem with hmem | hmem
    · exact ⟨t, hc, htype, hmem⟩
    · obtain ⟨rfl, rfl⟩ := Call.setValue.inj (List.mem_singleton.mp hmem)
      rcases hplain with hnone | hne
      · rw [hnone] at hc
        cases hc
      · rw [UserValue.forType, if_pos htype] at hne
        exact absurd rfl hne
  · rintro ⟨t, hc, htype, hmem⟩
    exact ⟨t, hc, htype, List.mem_append_left _ hmem⟩

theorem selects_append_setChoice {calls : List (Call S C)} {s : S} {c : C} {t : Tristate}
    (hc : (K.sym s).choice = some c) (htype : isBoolTristate (K.sym s).origType = true) {d : C} :
    Selects K (calls ++ [.setChoice c (.str t.toStr), .setValue s (.str t.toStr)]) d ↔
      Selects K calls d ∨ t = .y ∧ d = c := by
  constructor
  · rintro ⟨s', hd, htype', hmem⟩
    rcases List.mem_append.mp hmem with hmem | hmem
    · exact Or.inl ⟨s', hd, htype', hmem⟩
    · have hlast : Call.setValue s' (.str ['y']) = Call.setValue (C := C) s (.str t.toStr) := by
        simpa using hmem
      obtain ⟨rfl, ht⟩ := Call.setValue.inj hlast
      refine Or.inr ⟨?_, Option.some.inj (hd.symm.trans hc)⟩
      cases t with
      | n => cases ht
      | m => cases ht
      | y => rfl
  · rintro (⟨s', hd, htype', hmem⟩ | ⟨rfl, rfl⟩)
    · exact ⟨s', hd, htype', List.mem_append_left _ hmem⟩
    · exact ⟨s, hc, htype, List.mem_append_right _ (by simp [Tristate.toStr])⟩

variable {calls : List (Call S C)} {p p' : User K.toTables × (Item S C → Bool)}

theorem Follows.setValue (h : Follows calls p p') {s : S} {value : UserValue}
    (hplain : (K.sym s).choice = none ∨ value.forType (K.sym s).origType ≠ .tri .y) :
    Follows (calls ++ [.setValue s value]) (applyMarked p (.setValue s value))
      (applyMarked p' (.setValue s value)) := by
  have hselects : ∀ c, Selects K (calls ++ [.setValue s value]) c ↔ Selects K calls c :=
    fun c => selects_append_setValue hplain
  have hselected : ∀ c, (Selects K calls c ∨
      (K.choice c).origType = .tristate ∧ ∃ value, .setChoice c value ∈ calls) →
      Selects K (calls ++ [.setValue s value]) c ∨ (K.choice c).origType = .tristate ∧
        ∃ value', .setChoice c value' ∈ calls ++ [.setValue s value] := by
    intro c
    exact Or.imp (hselects c).mpr (And.imp_right (Exists.imp fun _ => List.mem_append_left _))
  cases hvalid : validFor (K.sym s).origType (value.forType (K.sym s).origType) with
  | false =>
    rw [applyMarked_refused h.typed.1 rfl hvalid, applyMarked_refused h.typed.2 rfl hvalid]
    exact ⟨h.typed, h.marks, h.sym, h.mode, fun c hc => h.selection c ((hselects c).mp hc),
      fun c hc => hselected c (h.selected c hc)⟩
  | true =>
    have htyped := typed_applyCall h.typed.1 (.setValue s value)
    have htyped' := typed_applyCall h.typed.2 (.setValue s value)
    have heq := applyMarked_plain (p := p) rfl hvalid hplain
    have heq' := applyMarked_plain (p := p') rfl hvalid hplain
    change Typed (applyMarked p (.setValue s value)).1 at htyped
    change Typed (applyMarked p' (.setValue s value)).1 at htyped'
    rw [heq] at htyped ⊢
    rw [heq'] at htyped' ⊢
    refine ⟨⟨htyped, htyped'⟩, ?_, fun t ht => ?_, fun c hc => ?_,
      fun c hc => h.selection c ((hselects c).mp hc), fun c hc => hselected c (h.selected c ?_)⟩
    · simp only [h.marks]
    · by_cases hts : t = s
      · simp [hts]
      · simp only [addMarks_apply, List.mem_singleton, Item.sym.injEq, hts, decide_false,
          Bool.false_or] at ht
        simpa [hts] using h.sym t ht
    · exact h.mode c (by simpa [addMarks_apply] using hc)
    · simpa [addMarks_apply] using hc

/-- A mode that `set_value` refuses changes nothing. -/
theorem applyMarked_setChoice_refused (hp : Typed p.1) {c : C} {t : Tristate}
    (hvalid : validFor (K.choice c).origType (.tri t) = false) :
    applyMarked p (.setChoice c (.str t.toStr)) = p := by
  have hnorm : (UserValue.str t.toStr).normalize = .tri t := by
    rw [UserValue.normalize, Tristate.ofStr_toStr]
  have hne : p.1.choiceValue c ≠ some t := by
    intro hv
    rw [hp.choice c t hv] at hvalid
    cases hvalid
  have hmarks : marksOf p.1 (.setChoice c (.str t.toStr)) = [] := by
    simp [marksOf, hnorm, hne, hvalid]
  have huser : applyCall p.1 (.setChoice c (.str t.toStr)) = p.1 := by
    change assignChoice p.1 c (.str t.toStr) = p.1
    unfold assignChoice
    simp [hnorm, hvalid]
  rw [applyMarked, hmarks, huser, addMarks_nil]

theorem Follows.setChoice (h : Follows calls p p') {s : S} {c : C} {t : Tristate}
    (hc : (K.sym s).choice = some c) (hvalid : validFor (K.sym s).origType (.tri t) = true)
    (ht : t ≠ .n) (htype : isBoolTristate (K.choice c).origType = true) :
    let mode : Call S C := .setChoice c (.str t.toStr)
    let value : Call S C := .setValue s (.str t.toStr)
    Follows (calls ++ [mode, value]) (applyMarked (applyMarked p mode) value)
      (applyMarked (applyMarked p' mode) value) := by
  intro mode value
  have hsym : isBoolTristate (K.sym s).origType = true := by
    revert hvalid
    cases (K.sym s).origType <;> simp [isBoolTristate, validFor]
  have hnorm : (UserValue.str t.toStr).normalize = .tri t := by
    rw [UserValue.normalize, Tristate.ofStr_toStr]
  have hfor : (UserValue.str t.toStr).forType (K.sym s).origType = .tri t := by
    rw [UserValue.forType, if_pos hsym, hnorm]
  have hselects : ∀ d, Selects K (calls ++ [mode, value]) d ↔ Selects K calls d ∨ t = .y ∧ d = c :=
    fun d => selects_append_setChoice hc hsym
  have hselected : ∀ d, (Selects K calls d ∨
      (K.choice d).origType = .tristate ∧ ∃ value, .setChoice d value ∈ calls) →
      Selects K (calls ++ [mode, value]) d ∨ (K.choice d).origType = .tristate ∧
        ∃ value', .setChoice d value' ∈ calls ++ [mode, value] := by
    intro d
    exact Or.imp (fun h => (hselects d).mpr (Or.inl h))
      (And.imp_right (Exists.imp fun _ => List.mem_append_left _))
  have htyped := typed_applyCall (typed_applyCall h.typed.1 mode) value
  have htyped' := typed_applyCall (typed_applyCall h.typed.2 mode) value
  change Typed (applyMarked (applyMarked p mode) value).1 at htyped
  change Typed (applyMarked (applyMarked p' mode) value).1 at htyped'
  cases hmode : validFor (K.choice c).origType (.tri t) with
  | false =>
    -- `m` for a bool choice.
    have hne : t ≠ .y := by
      rintro rfl
      revert htype hmode
      cases (K.choice c).origType <;> simp [isBoolTristate, validFor]
    have hplain : Follows (calls ++ [value]) (applyMarked p value) (applyMarked p' value) :=
      h.setValue (Or.inr (by simpa [hfor] using hne))
    rw [applyMarked_setChoice_refused h.typed.1 hmode,
      applyMarked_setChoice_refused h.typed.2 hmode]
    have hsame : ∀ d, Selects K (calls ++ [value]) d ↔ Selects K calls d :=
      fun d => selects_append_setValue (Or.inr (by simpa [hfor] using hne))
    refine ⟨hplain.typed, hplain.marks, hplain.sym, hplain.mode, fun d hd => ?_, fun d hd => ?_⟩
    · exact hplain.selection d ((hsame d).mpr (((hselects d).mp hd).resolve_right fun h => hne h.1))
    · refine hselected d ((hplain.selected d hd).imp (hsame d).mp (And.imp_right ?_))
      rintro ⟨value', hmem⟩
      exact ⟨value', by simpa [value] using hmem⟩
  | true =>
    have hset := applyMarked_setChoice (p := p) hnorm hmode
    have hset' := applyMarked_setChoice (p := p') hnorm hmode
    by_cases hy : t = .y
    · subst hy
      have hvalue := applyMarked_select (p := (p.1.setMode c (some .y), addMarks p.2 [.choice c]))
        hfor hvalid hc
      have hvalue' := applyMarked_select
        (p := (p'.1.setMode c (some .y), addMarks p'.2 [.choice c])) hfor hvalid hc
      rw [hset, hvalue] at htyped ⊢
      rw [hset', hvalue'] at htyped' ⊢
      refine ⟨⟨htyped, htyped'⟩, ?_, fun r hr => ?_, fun d hd => ?_, fun d hd => ?_,
        fun d hd => ?_⟩
      · simp only [h.marks]
      · by_cases hrs : r = s
        · simp [hrs]
        · simpa [hrs] using h.sym r (by simpa [addMarks_apply, hrs] using hr)
      · by_cases hdc : d = c
        · simp [hdc]
        · simpa [hdc] using h.mode d (by simpa [addMarks_apply, hdc] using hd)
      · by_cases hdc : d = c
        · subst hdc
          simp
        · have := h.selection d (((hselects d).mp hd).resolve_right fun h => hdc h.2)
          simpa [hdc] using this
      · by_cases hdc : d = c
        · exact Or.inl ((hselects d).mpr (Or.inr ⟨rfl, hdc⟩))
        · exact hselected d (h.selected d (by simpa [addMarks_apply, hdc] using hd))
    · have hplain : (K.sym s).choice = none ∨ UserValue.tri t ≠ .tri .y :=
        Or.inr (by simpa using hy)
      have hvalue := applyMarked_plain (p := (p.1.setMode c (some t), addMarks p.2 [.choice c]))
        hfor hvalid hplain
      have hvalue' := applyMarked_plain
        (p := (p'.1.setMode c (some t), addMarks p'.2 [.choice c])) hfor hvalid hplain
      rw [hset, hvalue] at htyped ⊢
      rw [hset', hvalue'] at htyped' ⊢
      have htri : (K.choice c).origType = .tristate := by
        revert ht hy hmode htype
        cases (K.choice c).origType <;> cases t <;> simp [validFor, isBoolTristate]
      refine ⟨⟨htyped, htyped'⟩, ?_, fun r hr => ?_, fun d hd => ?_, fun d hd => ?_,
        fun d hd => ?_⟩
      · simp only [h.marks]
      · by_cases hrs : r = s
        · simp [hrs]
        · simpa [hrs] using h.sym r (by simpa [addMarks_apply, hrs] using hr)
      · by_cases hdc : d = c
        · simp [hdc]
        · simpa [hdc] using h.mode d (by simpa [addMarks_apply, hdc] using hd)
      · exact h.selection d (((hselects d).mp hd).resolve_right fun h => hy h.1)
      · by_cases hdc : d = c
        · subst hdc
          exact Or.inr ⟨htri, _, List.mem_append_right _ List.mem_cons_self⟩
        · exact hselected d (h.selected d (by simpa [addMarks_apply, hdc] using hd))

/-- Lines, to two users. -/
theorem Follows.lines (htype : ∀ c, isBoolTristate (K.choice c).origType = true)
    (h : Follows calls p p') (lines : List Text) :
    Follows (calls ++ lines.flatMap fun l => lineCalls K.toTables (pyRstrip l))
      ((lines.flatMap fun l => lineCalls K.toTables (pyRstrip l)).foldl applyMarked p)
      ((lines.flatMap fun l => lineCalls K.toTables (pyRstrip l)).foldl applyMarked p') := by
  induction lines generalizing calls p p' with
  | nil => simpa using h
  | cons l lines ih =>
    rw [List.flatMap_cons, List.foldl_append, List.foldl_append, ← List.append_assoc]
    refine ih ?_
    rcases lineCalls_cases K.toTables (pyRstrip l) with hl | ⟨s, value, hl, hplain⟩ |
      ⟨s, c, t, hl, hc, hvalid, ht⟩
    · rw [hl]
      simpa using h
    · rw [hl]
      exact h.setValue hplain
    · rw [hl]
      exact h.setChoice hc hvalid ht (htype c)

/-! ## The values -/

theorem agrees_of_eq {u u' : User K.toTables}
    (hsym : ∀ s ∈ K.uniqueDefinedSyms, u'.symValue s = u.symValue s)
    (hmode : ∀ c, u'.choiceValue c = u.choiceValue c)
    (hsel : ∀ c, u'.userSelection c = u.userSelection c) : Agrees u u' where
  mode := fun c => by rw [hmode, mode_eq]
  selection := fun c => by rw [hsel, selected_eq]
  plain := fun s hs _ _ => by rw [hsym s hs]
  member := fun s hs _ _ _ => by rw [hsym s hs]
  typed := fun s hs _ _ => by
    rw [hsym s hs]
    exact ⟨rfl, rfl⟩

/-- **Loading replaces the configuration.** Where the file selects a symbol in each tristate choice
that it gives a mode, all attributes and modes read the same after it is loaded, whatever the calls
before were. -/
theorem load_replaces (htype : ∀ c, isBoolTristate (K.choice c).origType = true) {text : Text}
    (hsel : ∀ c value, (K.choice c).origType = .tristate →
      .setChoice c value ∈ fileCalls K.toTables text → Selects K (fileCalls K.toTables text) c)
    (calls calls' : List (Call S C)) :
    let after := fun calls => (run K.initial calls).bind fun st => loadConfig st text true
    (∀ k, readFrom (after calls) k = readFrom (after calls') k) ∧
      ∀ c, modeFrom (after calls) c = modeFrom (after calls') c := by
  intro after
  have hload : ∀ calls, ∃ st, after calls = some st ∧ Good st ∧
      st.user = unsetUnmarked (loaded (K.after calls) text).1 (loaded (K.after calls) text).2 := by
    intro calls
    obtain ⟨st₁, hrun, huser₁, hgood₁⟩ := run_good (valid_empty : Good K.initial) calls
    obtain ⟨st, hload, huser, hgood⟩ := loadConfig_good hgood₁ text
    have hu : st₁.user = K.after calls := huser₁
    refine ⟨st, ?_, hgood, hu ▸ huser⟩
    change (run K.initial calls).bind _ = _
    rw [hrun]
    exact hload
  obtain ⟨st, hst, hgood, huser⟩ := hload calls
  obtain ⟨st', hst', hgood', huser'⟩ := hload calls'
  have hinit : Follows (K := K) [] (K.after calls, fun _ => false)
      (K.after calls', fun _ => false) :=
    ⟨⟨typed_after calls, typed_after calls'⟩, rfl, nofun, nofun,
      fun c ⟨_, _, _, h⟩ => absurd h List.not_mem_nil, nofun⟩
  have h := hinit.lines htype (fileLines text)
  change Follows (fileCalls K.toTables text) (loaded (K.after calls) text)
    (loaded (K.after calls') text) at h
  have hagrees : Agrees st'.user st.user := by
    rw [huser, huser']
    refine agrees_of_eq (fun s hs => ?_) (fun c => ?_) fun c => ?_
    · change (if s ∈ _ ∧ (loaded (K.after calls) text).2 _ = false then none else _) =
        if s ∈ _ ∧ (loaded (K.after calls') text).2 _ = false then none else _
      rw [← h.marks]
      split
      · rfl
      · next hmark => exact h.sym s (by simpa [hs] using hmark)
    · change (if (loaded (K.after calls) text).2 _ = false then none else _) =
        if (loaded (K.after calls') text).2 _ = false then none else _
      rw [← h.marks]
      split
      · rfl
      · next hmark => exact h.mode c (by simpa using hmark)
    · change (if (loaded (K.after calls) text).2 _ = false then none else _) =
        if (loaded (K.after calls') text).2 _ = false then none else _
      rw [← h.marks]
      split
      · rfl
      · next hmark =>
        refine h.selection c ?_
        rcases h.selected c (by simpa using hmark) with hc | ⟨htri, value, hmem⟩
        · exact hc
        · exact hsel c value htri hmem
  obtain ⟨hvals, hmodes⟩ := hagrees.same
  rw [hst, hst']
  simp only [readFrom_good hgood, readFrom_good hgood', modeFrom_good hgood, modeFrom_good hgood',
    Option.some_inj]
  exact ⟨congrFun hvals, hmodes⟩

end Kconfig

end MaixSpeech.Kconfiglib
