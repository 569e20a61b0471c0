import MaixSpeech.Kconfiglib.Dotconfig

/-!
# Loading

Reference: `tools/kconfig/Kconfiglib/kconfiglib.py`.

What loading leaves in a configuration can be said without the caches: `applyMarked` is the effect of a
call on what the user has set and on the marks, and `unsetUnmarked` that of the end of `load_config`.
-/

namespace MaixSpeech.Kconfiglib

open Common Common.Memo Build

namespace Kconfig

variable {S C : Type} [DecidableEq S] [DecidableEq C] {K : Kconfig S C}

/-! ## Values and marks -/

/-- What a call marks. -/
def marksOf (u : User K.toTables) : Call S C → List (Item S C)
  | .get _ | .unsetValue _ | .unsetChoice _ => []
  | .setValue s value =>
    let value := value.forType (K.sym s).origType
    if u.symValue s = some value ∧ (K.sym s).choice = none then [.sym s]
    else if !validFor (K.sym s).origType value then []
    else
      match (K.sym s).choice with
      | none => [.sym s]
      | some c => if value = .tri .y then [.sym s, .choice c] else [.sym s]
  | .setChoice c value =>
    match value.normalize with
    | .str _ => []
    | .tri v =>
      if u.choiceValue c = some v then [.choice c]
      else if !validFor (K.choice c).origType (.tri v) then [] else [.choice c]

/-- The marks after more of them. -/
def addMarks (w : Item S C → Bool) (marks : List (Item S C)) : Item S C → Bool :=
  fun i => marks.contains i || w i

/-- A mark is a new one or an old one. -/
theorem addMarks_apply (w : Item S C → Bool) (marks : List (Item S C)) (i : Item S C) :
    addMarks w marks i = (decide (i ∈ marks) || w i) := by
  rw [addMarks, List.contains_eq_mem]

/-- A call, on the user's values and the marks. -/
def applyMarked (p : User K.toTables × (Item S C → Bool)) (call : Call S C) :
    User K.toTables × (Item S C → Bool) :=
  (applyCall p.1 call, addMarks p.2 (marksOf p.1 call))

theorem addMarks_nil (w : Item S C → Bool) : addMarks w [] = w := by
  funext i
  simp [addMarks_apply]

theorem mark_wasSet (st : State K) (i : Item S C) :
    (mark st i).wasSet = addMarks st.wasSet [i] := by
  funext j
  by_cases h : j = i <;> simp [mark, addMarks_apply, h]

theorem mark_mark_wasSet (st : State K) (i j : Item S C) :
    (mark (mark st i) j).wasSet = addMarks st.wasSet [i, j] := by
  funext l
  rw [mark_wasSet, mark_wasSet]
  simp only [addMarks_apply, List.mem_cons, List.not_mem_nil, or_false, Bool.decide_or]
  ac_rfl

/-- Clearing caches leaves the marks alone. -/
theorem recInvalidate_wasSet {st st' : State K} {i : Item S C}
    (h : recInvalidate st i = some st') : st'.wasSet = st.wasSet := by
  obtain ⟨c, -, rfl⟩ := Option.map_eq_some_iff.mp h
  rfl

theorem recInvalidateIfHasPrompt_wasSet {st st' : State K} {s : S}
    (h : recInvalidateIfHasPrompt st s = some st') : st'.wasSet = st.wasSet := by
  unfold recInvalidateIfHasPrompt at h
  split at h
  · rw [← Option.some.inj h]
  · exact recInvalidate_wasSet h

/-- `Symbol.set_value` marks the symbol, and with `y` its choice. -/
theorem setValue_wasSet {st st' : State K} {s : S} {value : UserValue}
    (h : setValue st s value = some st') :
    st'.wasSet = addMarks st.wasSet (marksOf st.user (.setValue s value)) := by
  simp only [setValue] at h
  simp only [marksOf]
  generalize value.forType (K.sym s).origType = value at h ⊢
  split at h
  · next hsame =>
    rw [if_pos hsame, ← Option.some.inj h, mark_wasSet]
  · next hsame =>
    rw [if_neg hsame]
    split at h
    · next hvalid => rw [if_pos hvalid, ← Option.some.inj h, addMarks_nil]
    · next hvalid =>
      rw [if_neg hvalid]
      split at h
      · next hc =>
        rw [hc]
        exact (recInvalidateIfHasPrompt_wasSet h).trans (mark_wasSet _ _)
      · next c hc =>
        rw [hc]
        simp only
        split at h
        · next hy =>
          rw [if_pos hy]
          exact (recInvalidate_wasSet h).trans (mark_mark_wasSet { st with user := _ } _ _)
        · next hy =>
          rw [if_neg hy]
          exact (recInvalidateIfHasPrompt_wasSet h).trans (mark_wasSet _ _)

/-- `Choice.set_value` marks the choice unless it refuses the value. -/
theorem setChoice_wasSet {st st' : State K} {c : C} {value : UserValue}
    (h : setChoice st c value = some st') :
    st'.wasSet = addMarks st.wasSet (marksOf st.user (.setChoice c value)) := by
  unfold setChoice at h
  cases hv : value.normalize with
  | str s =>
    simp only [hv] at h
    simp only [marksOf, hv]
    rw [← Option.some.inj h, addMarks_nil]
  | tri v =>
    simp only [hv] at h
    simp only [marksOf, hv]
    split at h
    · next hsame =>
      rw [if_pos hsame, ← Option.some.inj h]
      exact mark_wasSet _ _
    · next hsame =>
      rw [if_neg hsame]
      split at h
      · next hvalid => rw [if_pos hvalid, ← Option.some.inj h, addMarks_nil]
      · next hvalid =>
        rw [if_neg hvalid]
        exact (recInvalidate_wasSet h).trans (mark_wasSet _ _)

/-- Unsetting does not mark anything. -/
theorem unsetValue_wasSet {st st' : State K} {s : S} (h : unsetValue st s = some st') :
    st'.wasSet = st.wasSet := by
  unfold unsetValue at h
  split at h
  · rw [← Option.some.inj h]
  · exact (recInvalidateIfHasPrompt_wasSet h).trans rfl

theorem unsetChoice_wasSet {st st' : State K} {c : C} (h : unsetChoice st c = some st') :
    st'.wasSet = st.wasSet := by
  unfold unsetChoice at h
  split at h
  · rw [← Option.some.inj h]
  · exact (recInvalidate_wasSet h).trans rfl

/-- **Step**: the marks after any call. -/
theorem step_wasSet {st st' : State K} {call : Call S C} (h : step st call = some st') :
    st'.wasSet = addMarks st.wasSet (marksOf st.user call) := by
  cases call with
  | get k =>
    obtain ⟨r, hr, rfl⟩ := Option.map_eq_some_iff.mp h
    obtain ⟨r', -, rfl⟩ := Option.map_eq_some_iff.mp hr
    exact (addMarks_nil _).symm
  | setValue s value => exact setValue_wasSet h
  | unsetValue s => exact (unsetValue_wasSet h).trans (addMarks_nil _).symm
  | setChoice c value => exact setChoice_wasSet h
  | unsetChoice c => exact (unsetChoice_wasSet h).trans (addMarks_nil _).symm

/-- Calls, on the user's values and the marks. -/
theorem run_marked {st : State K} (hgood : Good st) (calls : List (Call S C)) :
    ∃ st', run st calls = some st' ∧
      (st'.user, st'.wasSet) = calls.foldl applyMarked (st.user, st.wasSet) ∧ Good st' := by
  induction calls generalizing st with
  | nil => exact ⟨st, rfl, rfl, hgood⟩
  | cons call calls ih =>
    obtain ⟨st₁, hstep, huser₁, hgood₁⟩ := step_good hgood call
    obtain ⟨st₂, hrun, heq, hgood₂⟩ := ih hgood₁
    refine ⟨st₂, ?_, ?_, hgood₂⟩
    · rw [run, List.foldlM_cons, hstep]
      exact hrun
    · rw [heq, List.foldl_cons, applyMarked, huser₁, step_wasSet hstep]

/-! ## The end of `load_config` -/

/-- What is left of the user's values when the unmarked ones are unset. -/
def unsetUnmarked (u : User K.toTables) (w : Item S C → Bool) : User K.toTables where
  symValue := fun s => if s ∈ K.uniqueDefinedSyms ∧ w (.sym s) = false then none else u.symValue s
  choiceValue := fun c => if w (.choice c) = false then none else u.choiceValue c
  userSelection := fun c => if w (.choice c) = false then none else u.userSelection c

/-- The first loop at the end of `load_config`: it unsets the symbols without a mark, and keeps the
marks and the validity of the caches. -/
theorem unsetSyms_good (syms : List S) {st : State K} (hgood : Good st) :
    ∃ st', syms.foldlM (fun st s => if st.wasSet (.sym s) then some st else unsetValue st s) st =
      some st' ∧ st'.wasSet = st.wasSet ∧ Good st' ∧
      st'.user = { st.user with
        symValue := fun s =>
          if s ∈ syms ∧ st.wasSet (.sym s) = false then none else st.user.symValue s } := by
  induction syms generalizing st with
  | nil => exact ⟨st, rfl, rfl, hgood, by simp⟩
  | cons s syms ih =>
    obtain ⟨st₁, hstep, hset₁, huser₁, hgood₁⟩ : ∃ st₁,
        (if st.wasSet (.sym s) then some st else unsetValue st s) = some st₁ ∧
          st₁.wasSet = st.wasSet ∧
          st₁.user = (if st.wasSet (.sym s) then st.user else st.user.setSym s none) ∧ Good st₁ := by
      split
      · exact ⟨st, rfl, rfl, rfl, hgood⟩
      · obtain ⟨st₁, hunset, huser, hgood₁⟩ := unsetValue_good hgood s
        exact ⟨st₁, hunset, unsetValue_wasSet hunset, huser, hgood₁⟩
    obtain ⟨st₂, hrun, hset₂, hgood₂, huser₂⟩ := ih hgood₁
    refine ⟨st₂, ?_, hset₂.trans hset₁, hgood₂, ?_⟩
    · rw [List.foldlM_cons, hstep]
      exact hrun
    · rw [huser₂, hset₁, huser₁]
      by_cases hmark : st.wasSet (.sym s) = true
      · simp only [hmark, if_true]
        congr 1
        funext t
        by_cases ht : t = s
        · simp [ht, hmark]
        · simp [ht]
      · simp only [Bool.not_eq_true] at hmark
        simp only [hmark, Bool.false_eq_true, if_false, User.setSym]
        congr 1
        funext t
        by_cases ht : t = s
        · simp [ht, hmark]
        · simp [ht]

/-- The second loop does the same for the choices, with their selections. -/
theorem unsetChoices_good (choices : List C) {st : State K} (hgood : Good st) :
    ∃ st', choices.foldlM
        (fun st c => if st.wasSet (.choice c) then some st else unsetChoice st c) st = some st' ∧
      Good st' ∧
      st'.user = { st.user with
        choiceValue := fun c =>
          if c ∈ choices ∧ st.wasSet (.choice c) = false then none else st.user.choiceValue c
        userSelection := fun c =>
          if c ∈ choices ∧ st.wasSet (.choice c) = false then none else st.user.userSelection c } := by
  induction choices generalizing st with
  | nil => exact ⟨st, rfl, hgood, by simp⟩
  | cons c choices ih =>
    obtain ⟨st₁, hstep, hset₁, huser₁, hgood₁⟩ : ∃ st₁,
        (if st.wasSet (.choice c) then some st else unsetChoice st c) = some st₁ ∧
          st₁.wasSet = st.wasSet ∧ st₁.user = (if st.wasSet (.choice c) then st.user
            else (st.user.setMode c none).setSelection c none) ∧ Good st₁ := by
      split
      · exact ⟨st, rfl, rfl, rfl, hgood⟩
      · obtain ⟨st₁, hunset, huser, hgood₁⟩ := unsetChoice_good hgood c
        exact ⟨st₁, hunset, unsetChoice_wasSet hunset, huser, hgood₁⟩
    obtain ⟨st₂, hrun, hgood₂, huser₂⟩ := ih hgood₁
    refine ⟨st₂, ?_, hgood₂, ?_⟩
    · rw [List.foldlM_cons, hstep]
      exact hrun
    · rw [huser₂, hset₁, huser₁]
      by_cases hmark : st.wasSet (.choice c) = true
      · simp only [hmark, if_true]
        congr 1 <;>
        · funext d
          by_cases hd : d = c
          · subst hd
            simp [hmark]
          · simp [hd]
      · simp only [Bool.not_eq_true] at hmark
        simp only [hmark, Bool.false_eq_true, if_false, User.setMode, User.setSelection]
        congr 1 <;>
        · funext d
          by_cases hd : d = c
          · subst hd
            simp [hmark]
          · simp [hd]

/-- Both loops together. -/
theorem unsetRest_good {st : State K} (hgood : Good st) :
    ∃ st', unsetRest st = some st' ∧ st'.user = unsetUnmarked st.user st.wasSet ∧ Good st' := by
  obtain ⟨st₁, hsyms, hset₁, hgood₁, huser₁⟩ := unsetSyms_good K.uniqueDefinedSyms hgood
  obtain ⟨st₂, hchoices, hgood₂, huser₂⟩ := unsetChoices_good K.uniqueChoices hgood₁
  refine ⟨st₂, ?_, ?_, hgood₂⟩
  · rw [unsetRest, hsyms]
    exact hchoices
  · rw [huser₂, huser₁, hset₁, unsetUnmarked]
    simp [K.mem_choices]

/-- The values and marks after the assignments of a file. -/
def loaded (u : User K.toTables) (text : Text) : User K.toTables × (Item S C → Bool) :=
  (fileCalls K.toTables text).foldl applyMarked (u, fun _ => false)

/-- The marks of items that do not exist have no influence on the others. -/
theorem foldl_applyMarked_congr (calls : List (Call S C)) (u : User K.toTables)
    {w w' : Item S C → Bool} (h : ∀ i ∈ K.items, w i = w' i) :
    (calls.foldl applyMarked (u, w)).1 = (calls.foldl applyMarked (u, w')).1 ∧
      ∀ i ∈ K.items, (calls.foldl applyMarked (u, w)).2 i = (calls.foldl applyMarked (u, w')).2 i := by
  induction calls generalizing u w w' with
  | nil => exact ⟨rfl, h⟩
  | cons call calls ih =>
    refine ih _ fun i hi => ?_
    change (_ || w i) = (_ || w' i)
    rw [h i hi]

theorem unsetUnmarked_congr (u : User K.toTables) {w w' : Item S C → Bool}
    (h : ∀ i ∈ K.items, w i = w' i) : unsetUnmarked u w = unsetUnmarked u w' := by
  unfold unsetUnmarked
  congr 1
  · funext s
    by_cases hs : s ∈ K.uniqueDefinedSyms
    · rw [h _ (mem_items_sym.mpr hs)]
    · simp [hs]
  · funext c
    rw [h _ (mem_items_choice c)]
  · funext c
    rw [h _ (mem_items_choice c)]

/-- **What `load_config` does.** It replaces what the user has set by what the file assigns, as far as
that gets marked, and leaves valid caches. -/
theorem loadConfig_good {st : State K} (hgood : Good st) (text : Text) :
    ∃ st', loadConfig st text true = some st' ∧
      st'.user = unsetUnmarked (loaded st.user text).1 (loaded st.user text).2 ∧ Good st' := by
  have hclear : Good (clearMarks st) := hgood
  obtain ⟨st₁, hrun, heq, hgood₁⟩ := run_marked hclear (fileCalls K.toTables text)
  obtain ⟨st₂, hunset, huser₂, hgood₂⟩ := unsetRest_good hgood₁
  refine ⟨st₂, ?_, ?_, hgood₂⟩
  · rw [loadConfig, if_pos rfl]
    change (run (clearMarks st) _).bind _ = _
    rw [hrun]
    exact hunset
  · have hclear : ∀ i ∈ K.items, (clearMarks st).wasSet i = false := fun i hi => if_pos hi
    obtain ⟨huser, hmarks⟩ := foldl_applyMarked_congr (fileCalls K.toTables text) st.user hclear
    have huser₁ : st₁.user = (loaded st.user text).1 := (congrArg Prod.fst heq).trans huser
    have hset₁ : ∀ i ∈ K.items, st₁.wasSet i = (loaded st.user text).2 i := fun i hi =>
      (congrFun (congrArg Prod.snd heq) i).trans (hmarks i hi)
    rw [huser₂, huser₁, unsetUnmarked_congr _ hset₁]

/-- What a query gives through the caches. -/
theorem ask_good {st : State K} (hgood : Good st) {α : Type} (q : Attr K.toTables α) :
    ∃ st', ask st q = some (q.eval st.user.inputs (K.vals st.user), st') ∧ st'.user = st.user ∧
      Good st' := by
  have hall : q.Within (fun k => K.rank k < K.rank k + 1) fun _ => True := by
    induction q with
    | ret a => trivial
    | ask k next ih => exact ⟨Nat.lt_succ_self _, ih⟩
    | read r next ih => exact ⟨trivial, ih⟩
  obtain ⟨c, hrun, hvalid, -, -⟩ := Valid.run_of (P := fun k => K.rank k < K.rank k + 1)
    (fun k c hk hc => hc.cached K.acyclic fits hk) hgood hall
  exact ⟨{ st with cache := c }, by rw [ask, hrun]; rfl, rfl, hvalid⟩

/-- What an attribute reads, if there is a state. -/
def readFrom (st : Option (State K)) (k : Key S C) : Option k.Val := do
  let r ← get (← st) k
  pure r.1

/-- `Choice.tri_value`, if there is a state. -/
def modeFrom (st : Option (State K)) (c : C) : Option Tristate := do
  let r ← ask (← st) (choiceTriValue c)
  pure r.1

/-- In a state with valid caches an attribute reads its value. -/
theorem readFrom_good {st : State K} (hgood : Good st) (k : Key S C) :
    readFrom (some st) k = some (K.vals st.user k) := by
  obtain ⟨_, hget, -, -⟩ := get_good hgood k
  change (get st k).bind _ = _
  rw [hget]
  rfl

theorem modeFrom_good {st : State K} (hgood : Good st) (c : C) :
    modeFrom (some st) c = some (K.mode st.user c) := by
  obtain ⟨_, hask, -, -⟩ := ask_good hgood (choiceTriValue c)
  change (ask st (choiceTriValue c)).bind _ = _
  rw [hask]
  rfl

/-! ## Values of the right type -/

/-- What is set has passed the test of `set_value`. -/
structure Typed (u : User K.toTables) : Prop where
  sym : ∀ s v, u.symValue s = some v → validFor (K.sym s).origType v = true
  choice : ∀ c v, u.choiceValue c = some v → validFor (K.choice c).origType (.tri v) = true

/-- `set_value` keeps the types, since it tests what it sets. -/
theorem typed_assign {u : User K.toTables} (h : Typed u) (s : S) (value : UserValue) :
    Typed (assign u s value) := by
  unfold assign
  generalize value.forType (K.sym s).origType = value
  simp only
  split
  · next hvalid =>
    have hset : Typed (u.setSym s (some value)) := by
      refine ⟨fun t v hv => ?_, h.choice⟩
      by_cases ht : t = s
      · subst ht
        have hval : (u.setSym t (some value)).symValue t = some value := Function.update_self ..
        rw [hval] at hv
        rwa [← Option.some.inj hv]
      · exact h.sym t v (by simpa [User.setSym, Function.update_of_ne ht] using hv)
    split
    · exact hset
    · split
      · exact ⟨hset.sym, hset.choice⟩
      · exact hset
  · exact h

theorem typed_assignChoice {u : User K.toTables} (h : Typed u) (c : C) (value : UserValue) :
    Typed (assignChoice u c value) := by
  unfold assignChoice
  split
  · exact h
  · split
    · next v _ hvalid =>
      refine ⟨h.sym, fun d t ht => ?_⟩
      by_cases hd : d = c
      · subst hd
        have hval : (u.setMode d (some v)).choiceValue d = some v := Function.update_self ..
        rw [hval] at ht
        rwa [← Option.some.inj ht]
      · exact h.choice d t (by simpa [User.setMode, Function.update_of_ne hd] using ht)
    · exact h

/-- **Step**: so does any call. -/
theorem typed_applyCall {u : User K.toTables} (h : Typed u) (call : Call S C) :
    Typed (applyCall u call) := by
  cases call with
  | get k => exact h
  | setValue s value => exact typed_assign h s value
  | unsetValue s =>
    refine ⟨fun t v hv => ?_, h.choice⟩
    by_cases ht : t = s
    · subst ht
      simp [applyCall, User.setSym] at hv
    · exact h.sym t v (by simpa [applyCall, User.setSym, Function.update_of_ne ht] using hv)
  | setChoice c value => exact typed_assignChoice h c value
  | unsetChoice c =>
    refine ⟨h.sym, fun d v hv => ?_⟩
    by_cases hd : d = c
    · subst hd
      simp [applyCall, User.setMode, User.setSelection] at hv
    · exact h.choice d v
        (by simpa [applyCall, User.setMode, User.setSelection, Function.update_of_ne hd] using hv)

/-- **Run**: after any calls the values have the right types. -/
theorem typed_after (calls : List (Call S C)) : Typed (K.after calls) := by
  have key : ∀ (calls : List (Call S C)) (u : User K.toTables), Typed u →
      Typed (calls.foldl applyCall u) := by
    intro calls
    induction calls with
    | nil => exact fun _ h => h
    | cons call calls ih => exact fun u h => ih _ (typed_applyCall h call)
  exact key calls _ ⟨nofun, nofun⟩

/-- What `set_value` does to the values of the symbols. -/
theorem symValue_assign (u : User K.toTables) (t : S) (value : UserValue) :
    (assign u t value).symValue =
      if validFor (K.sym t).origType (value.forType (K.sym t).origType) then
        (u.setSym t (some (value.forType (K.sym t).origType))).symValue
      else u.symValue := by
  unfold assign
  simp only
  split
  · split
    · rfl
    · split <;> rfl
  · rfl

/-- A value that a string, int or hex symbol has after a call was there before or is set by it. -/
theorem symValue_applyCall {u : User K.toTables} {call : Call S C} {s : S} {v : UserValue}
    (htype : isBoolTristate (K.sym s).origType = false)
    (h : (applyCall u call).symValue s = some v) :
    u.symValue s = some v ∨ call = .setValue s v := by
  cases call with
  | get k => exact Or.inl h
  | setValue t value =>
    change (assign u t value).symValue s = some v at h
    rw [symValue_assign] at h
    split at h
    · rw [User.symValue_setSym] at h
      split at h
      · next hst =>
        subst hst
        rw [UserValue.forType, if_neg (by simp [htype]), Option.some_inj] at h
        exact Or.inr (by rw [h])
      · exact Or.inl h
    · exact Or.inl h
  | unsetValue t =>
    change (u.setSym t none).symValue s = some v at h
    rw [User.symValue_setSym] at h
    split at h
    · cases h
    · exact Or.inl h
  | setChoice c value =>
    change (assignChoice u c value).symValue s = some v at h
    unfold assignChoice at h
    split at h
    · exact Or.inl h
    · split at h <;> exact Or.inl h
  | unsetChoice c => exact Or.inl h

/-- A string, int or hex symbol has been set to the value it has. -/
theorem mem_of_symValue_after {calls : List (Call S C)} {s : S} {v : UserValue}
    (htype : isBoolTristate (K.sym s).origType = false) (h : (K.after calls).symValue s = some v) :
    .setValue s v ∈ calls := by
  have key : ∀ (calls : List (Call S C)) (u : User K.toTables),
      (calls.foldl applyCall u).symValue s = some v → u.symValue s = some v ∨
        .setValue s v ∈ calls := by
    intro calls
    induction calls with
    | nil => exact fun u h => Or.inl h
    | cons call calls ih =>
      intro u h
      rcases ih _ h with hu | hmem
      · rcases symValue_applyCall htype hu with hu | rfl
        · exact Or.inl hu
        · exact Or.inr List.mem_cons_self
      · exact Or.inr (List.mem_cons_of_mem call hmem)
  exact (key calls _ h).resolve_left nofun

/-! ## Single assignments -/

section Assign

variable {p : User K.toTables × (Item S C → Bool)} {s : S} {value x : UserValue}

/-- A value that `set_value` refuses changes nothing. -/
theorem applyMarked_refused (hp : Typed p.1) (hx : value.forType (K.sym s).origType = x)
    (hvalid : validFor (K.sym s).origType x = false) :
    applyMarked p (.setValue s value) = p := by
  have hne : ¬ (p.1.symValue s = some x ∧ (K.sym s).choice = none) := by
    intro h
    rw [hp.sym s x h.1] at hvalid
    cases hvalid
  have hmarks : marksOf p.1 (.setValue s value) = [] := by
    simp only [marksOf, hx, if_neg hne, hvalid, Bool.not_false, if_true]
  have huser : applyCall p.1 (.setValue s value) = p.1 := by
    change assign p.1 s value = p.1
    unfold assign
    simp only [hx, hvalid, Bool.false_eq_true, if_false]
  rw [applyMarked, hmarks, huser, addMarks_nil]

/-- A value that does not select its symbol is set and marked. -/
theorem applyMarked_plain (hx : value.forType (K.sym s).origType = x)
    (hvalid : validFor (K.sym s).origType x = true)
    (hplain : (K.sym s).choice = none ∨ x ≠ .tri .y) :
    applyMarked p (.setValue s value) = (p.1.setSym s (some x), addMarks p.2 [.sym s]) := by
  have hmarks : marksOf p.1 (.setValue s value) = [.sym s] := by
    simp only [marksOf, hx, hvalid, Bool.not_true, Bool.false_eq_true, if_false]
    split
    · rfl
    · split
      · rfl
      · next c hc =>
        rw [if_neg]
        rw [hc] at hplain
        exact hplain.resolve_left nofun
  have huser : applyCall p.1 (.setValue s value) = p.1.setSym s (some x) := by
    change assign p.1 s value = _
    unfold assign
    simp only [hx, hvalid, if_true]
    split
    · rfl
    · next c hc =>
      rw [if_neg]
      rw [hc] at hplain
      exact hplain.resolve_left nofun
  rw [applyMarked, hmarks, huser]

/-- A choice symbol that is set to `y` becomes the selection. -/
theorem applyMarked_select {c : C} (hx : value.forType (K.sym s).origType = .tri .y)
    (hvalid : validFor (K.sym s).origType (.tri .y) = true) (hc : (K.sym s).choice = some c) :
    applyMarked p (.setValue s value) =
      ((p.1.setSym s (some (.tri .y))).setSelection c (some ⟨s, (K.choice_mem s c hc).1⟩),
        addMarks p.2 [.sym s, .choice c]) := by
  have hmarks : marksOf p.1 (.setValue s value) = [.sym s, .choice c] := by
    simp [marksOf, hx, hvalid, hc]
  have huser : applyCall p.1 (.setValue s value) =
      (p.1.setSym s (some (.tri .y))).setSelection c (some ⟨s, (K.choice_mem s c hc).1⟩) := by
    change assign p.1 s value = _
    unfold assign
    simp only [hx, hvalid, if_true]
    split
    · next h => rw [hc] at h; cases h
    · next d h =>
      obtain rfl := Option.some.inj (hc.symm.trans h)
      rfl
  rw [applyMarked, hmarks, huser]

/-- A mode that is valid is set and marked. -/
theorem applyMarked_setChoice {c : C} {t : Tristate} (hx : value.normalize = .tri t)
    (hvalid : validFor (K.choice c).origType (.tri t) = true) :
    applyMarked p (.setChoice c value) = (p.1.setMode c (some t), addMarks p.2 [.choice c]) := by
  have hmarks : marksOf p.1 (.setChoice c value) = [.choice c] := by
    simp [marksOf, hx, hvalid]
  have huser : applyCall p.1 (.setChoice c value) = p.1.setMode c (some t) := by
    change assignChoice p.1 c value = _
    unfold assignChoice
    simp only [hx, hvalid, if_true]
  rw [applyMarked, hmarks, huser]

end Assign

end Kconfig

end MaixSpeech.Kconfiglib
