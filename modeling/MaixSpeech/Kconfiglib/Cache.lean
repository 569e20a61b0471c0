import MaixSpeech.Kconfiglib.Deps

/-!
# Caching and invalidation

Reference: `tools/kconfig/Kconfiglib/kconfiglib.py`.

`set_value` and `unset_value` invalidate along the registrations of `_build_dep`, from the symbol or
choice that is set, and not at all for a symbol without a prompt. `run_transparent` is the result:
after any sequence of assignments and queries the cached properties have the values that a
computation without any cache gives for what the user has set.
-/

namespace MaixSpeech.Kconfiglib

open Common Common.Memo Build

variable {S C : Type} [DecidableEq S] [DecidableEq C]

/-! ## The layout of the caches -/

namespace Kconfig

variable (K : Kconfig S C)

/-- The attributes without a cached value that could get stale. -/
def constantKey : Key S C → Bool
  | .triValue s => decide (s ∉ K.uniqueDefinedSyms) || !isBoolTristate (K.sym s).origType
  | .strValue s => decide (s ∉ K.uniqueDefinedSyms) || decide ((K.sym s).origType = .unknown)
  | .assignable (.sym s) => decide (s ∉ K.uniqueDefinedSyms) || !isBoolTristate (K.sym s).origType
  | _ => false

/-- `_cached_vis` is the flag; a change of `MODULES` concerns everything. -/
def layout : Layout (Item S C) (Key S C) where
  item := Key.item
  flag := Key.visibility
  item_flag := fun _ => rfl
  constant := K.constantKey
  members := K.items
  dependents := K.dependents
  dependents_subset := fun i j hj => ((K.mem_dependents i j).mp hj).1
  wide := fun i => i = .sym K.modules

variable {K}

theorem mem_items_sym {s : S} : .sym s ∈ K.items ↔ s ∈ K.uniqueDefinedSyms := by
  simp [Tables.items]

theorem mem_items_choice (c : C) : .choice c ∈ K.items := by
  simp [Tables.items, K.mem_choices c]

/-- What stands in an expression of an item is a constant, or the item is registered with it. -/
theorem mem_dependents_of_expr {i j : Item S C} (hi : i ∈ K.items) {e : Expr S C}
    (he : e ∈ K.exprs i) (hj : j ∈ exprItems e) : j ∉ K.items ∨ i ∈ K.dependents j := by
  by_cases hconst : K.isConstant j = true
  · left
    intro hmem
    cases j with
    | sym s =>
      have hdef := (K.defined s (mem_items_sym.mp hmem)).1
      rw [Tables.isConstant, hdef] at hconst
      cases hconst
    | choice c => cases hconst
  · right
    refine (K.mem_dependents j i).mpr ⟨hi, List.mem_append_left _ ?_⟩
    exact List.mem_flatMap.mpr ⟨e, he, List.mem_filter.mpr ⟨hj, by simp [hconst]⟩⟩

theorem mem_dependents_choice {s : S} {c : C} (hs : s ∈ K.uniqueDefinedSyms)
    (hc : (K.sym s).choice = some c) : .sym s ∈ K.dependents (.choice c) :=
  (K.mem_dependents _ _).mpr ⟨mem_items_sym.mpr hs, (K.choice_mem s c hc).2⟩

theorem mem_dependents_choiceSym {s : S} {c : C} (hs : s ∈ (K.choice c).syms) :
    .choice c ∈ K.dependents (.sym s) := by
  refine (K.mem_dependents _ _).mpr ⟨mem_items_choice c, List.mem_append_right _ ?_⟩
  exact List.mem_map_of_mem hs

/-- A property of attributes and user values that holds wherever a change reaches an item covers the
scope of the item. -/
theorem scope_of_reaches {P : Key S C → Prop} {Q : Read S C → Prop} {i : Item S C}
    (hi : i ∈ K.items)
    (hopen : ∀ j, j ∉ K.items ∨ j = i ∨ i ∈ K.dependents j → Open P Q j)
    (hmod : P (.triValue K.modules)) :
    Scope K.toTables P Q i where
  modules := hmod
  own := hopen i (Or.inr (Or.inl rfl))
  exprs := fun e he j hj =>
    hopen j ((mem_dependents_of_expr hi he hj).imp_right fun h => Or.inr h)
  sym := by
    rintro s rfl c hc
    exact hopen _ (Or.inr (Or.inr (mem_dependents_choice (mem_items_sym.mp hi) hc)))
  choice := by
    rintro c rfl
    refine fun s hs => hopen _ (Or.inr (Or.inr (mem_dependents_choiceSym ?_)))
    rcases hs with hs | ⟨d, hd, rfl⟩
    exacts [hs, K.choice_defaults c d hd]

/-! ### Symbols without a definition -/

theorem symVisibility_undefined {s : S} (hs : s ∉ K.uniqueDefinedSyms) :
    (symVisibility s : Attr K.toTables Tristate) = pure .n := by
  obtain ⟨hprompts, hchoice, -, -⟩ := K.undefined s hs
  unfold symVisibility hiddenInChoice
  rw [hprompts, hchoice]
  rfl

/-- The attributes of a symbol without a definition depend on nothing else. -/
theorem within_undefined {k : Key S C} (hk : k.item ∉ K.items) :
    (body K.toTables k).Within (fun k' => k'.item = k.item) fun _ => False := by
  have key : ∀ s, s ∉ K.uniqueDefinedSyms →
      (K.sym s).preset = none ∧ (K.sym s).origType = .unknown ∨
        (∃ v, (K.sym s).preset = some v) ∧ (K.sym s).origType = .tristate := by
    intro s hs
    obtain ⟨-, -, hnone, hsome⟩ := K.undefined s hs
    cases hpreset : (K.sym s).preset with
    | none => exact Or.inl ⟨rfl, hnone hpreset⟩
    | some v => exact Or.inr ⟨⟨v, rfl⟩, hsome (by simp [hpreset])⟩
  cases k with
  | visibility i =>
    cases i with
    | sym s =>
      show (symVisibility s : Attr K.toTables Tristate).Within _ _
      rw [symVisibility_undefined fun h => hk (mem_items_sym.mpr h)]
      trivial
    | choice c => exact absurd (mem_items_choice c) hk
  | triValue s =>
    show (symTri s : Attr K.toTables _).Within _ _
    rcases key s fun h => hk (mem_items_sym.mpr h) with ⟨hp, ht⟩ | ⟨⟨v, hp⟩, ht⟩
    · rw [symTri, hp, ht]
      trivial
    · rw [symTri, hp]
      trivial
  | strValue s =>
    show (symStr s : Attr K.toTables _).Within _ _
    rcases key s fun h => hk (mem_items_sym.mpr h) with ⟨hp, ht⟩ | ⟨⟨v, hp⟩, ht⟩
    · rw [symStr, ht]
      trivial
    · rw [symStr, if_pos (by rw [ht]; rfl)]
      refine Query.Within.bind ?_ fun _ => trivial
      exact Query.within_get (Key.triValue s) |>.mpr rfl
  | selection c => exact absurd (mem_items_choice c) hk
  | assignable i =>
    cases i with
    | sym s =>
      show (symAssignable s : Attr K.toTables _).Within _ _
      rcases key s fun h => hk (mem_items_sym.mpr h) with ⟨hp, ht⟩ | ⟨⟨v, hp⟩, ht⟩
      · rw [symAssignable, hp, ht]
        trivial
      · rw [symAssignable, hp, if_neg (by simp)]
        trivial
    | choice c => exact absurd (mem_items_choice c) hk

/-! ### The bodies fit -/

theorem symTri_defined {s : S} (hs : s ∈ K.uniqueDefinedSyms)
    (htype : isBoolTristate (K.sym s).origType = true) :
    (symTri s : Attr K.toTables (Tristate × Bool)) = visibility (.sym s) >>= triFrom s := by
  rw [symTri, (K.defined s hs).2, htype]
  rfl

omit [DecidableEq S] [DecidableEq C] in
theorem symStr_tri {T : Tables S C} {s : S} (htype : isBoolTristate (T.sym s).origType = true) :
    (symStr s : Attr T (Text × Bool)) = triAndWrite s >>= fun v => pure (v.1.toStr, v.2) :=
  if_pos htype

omit [DecidableEq S] [DecidableEq C] in
theorem symStr_typed {T : Tables S C} {s : S} (htype : ¬ isBoolTristate (T.sym s).origType = true)
    (hknown : (T.sym s).origType ≠ .unknown) :
    (symStr s : Attr T (Text × Bool)) = visibility (.sym s) >>= strFrom s := by
  rw [symStr, if_neg htype, if_neg hknown]

theorem reaches {k : Key S C} (hk : k.item ∈ K.items) :
    (body K.toTables k).Within (K.layout.Reaches k) fun _ => True := by
  refine within_body (scope_of_reaches hk (fun j hj => ⟨fun k' hk' => ?_, fun _ _ => trivial⟩) ?_)
    (fun _ _ => trivial) fun _ _ => trivial
  · subst hk'
    rcases hj with hj | hj | hj
    exacts [Or.inl hj, Or.inr (Or.inl hj), Or.inr (Or.inr (Or.inl hj))]
  · by_cases hmod : .sym K.modules ∈ K.items
    · exact Or.inr (Or.inr (Or.inr ⟨by simp [layout, Key.item], hk⟩))
    · exact Or.inl hmod

theorem fits : Fits K.layout (body K.toTables) where
  reaches := by
    intro k
    by_cases hk : k.item ∈ K.items
    · exact reaches hk
    · exact (within_undefined hk).mono (fun k' hk' => Or.inr (Or.inl hk')) fun _ h => h.elim
  constant := by
    intro k hconst
    by_cases hk : k.item ∈ K.items
    · cases k with
      | visibility i => cases hconst
      | triValue s =>
        have hs := mem_items_sym.mp hk
        have htype : isBoolTristate (K.sym s).origType = false := by
          simpa [layout, constantKey, hs] using hconst
        show (symTri s : Attr K.toTables _).Within _ _
        rw [symTri, (K.defined s hs).2, htype]
        trivial
      | strValue s =>
        have hs := mem_items_sym.mp hk
        have htype : (K.sym s).origType = .unknown := by
          simpa [layout, constantKey, hs] using hconst
        show (symStr s : Attr K.toTables _).Within _ _
        rw [symStr, htype]
        trivial
      | selection c => cases hconst
      | assignable i =>
        cases i with
        | sym s =>
          have hs := mem_items_sym.mp hk
          have htype : isBoolTristate (K.sym s).origType = false := by
            simpa [layout, constantKey, hs] using hconst
          show (symAssignable s : Attr K.toTables _).Within _ _
          rw [symAssignable, htype]
          trivial
        | choice c => cases hconst
    · refine (within_undefined hk).mono (fun k' hk' => ?_) fun _ h => h
      show k'.item ∉ K.items
      rwa [hk']
  flagFirst := by
    intro k hconst hne
    cases k with
    | visibility i => exact absurd rfl hne
    | triValue s =>
      have h : s ∈ K.uniqueDefinedSyms ∧ isBoolTristate (K.sym s).origType = true := by
        simpa [layout, constantKey] using hconst
      exact ⟨.visibility (.sym s), triFrom s, symTri_defined h.1 h.2, rfl, Or.inl rfl⟩
    | strValue s =>
      have h : s ∈ K.uniqueDefinedSyms ∧ (K.sym s).origType ≠ .unknown := by
        simpa [layout, constantKey] using hconst
      by_cases hbool : isBoolTristate (K.sym s).origType = true
      · refine ⟨.triValue s, _, symStr_tri hbool, rfl, Or.inr ?_⟩
        simp [layout, constantKey, h.1, hbool]
      · exact ⟨.visibility (.sym s), strFrom s, symStr_typed hbool h.2, rfl, Or.inl rfl⟩
    | selection c => exact ⟨.visibility (.choice c), _, rfl, rfl, Or.inl rfl⟩
    | assignable i =>
      cases i with
      | sym s =>
        have h : s ∈ K.uniqueDefinedSyms ∧ isBoolTristate (K.sym s).origType = true := by
          simpa [layout, constantKey] using hconst
        exact ⟨.visibility (.sym s), _, if_pos ⟨h.2, (K.defined s h.1).2⟩, rfl, Or.inl rfl⟩
      | choice c => exact ⟨.visibility (.choice c), _, rfl, rfl, Or.inl rfl⟩

end Kconfig

/-! ## Assignments -/

/-- `n`, `m` and `y` stand for their numbers. -/
def UserValue.normalize : UserValue → UserValue
  | .tri v => .tri v
  | .str s =>
    match Tristate.ofStr s with
    | some v => .tri v
    | none => .str s

/-- A value as `Symbol.set_value` of a symbol of that type takes it. -/
def UserValue.forType (type : SymbolType) (value : UserValue) : UserValue :=
  if isBoolTristate type then value.normalize else value

/-- The test of a value against the type in `set_value`. -/
def validFor : SymbolType → UserValue → Bool
  | .bool, .tri v => v ≠ .m
  | .tristate, .tri _ => true
  | .string, .str _ => true
  | .int, .str s => (pyIntBase 10 s).isSome
  | .hex, .str s => (pyIntBase 16 s).any (0 ≤ ·)
  | _, _ => false

namespace User

variable {T : Tables S C} (u : User T)

/-- Nothing is set. -/
def empty : User T where
  symValue := fun _ => none
  choiceValue := fun _ => none
  userSelection := fun _ => none

def setSym (s : S) (value : Option UserValue) : User T :=
  { u with symValue := Function.update u.symValue s value }

def setMode (c : C) (value : Option Tristate) : User T :=
  { u with choiceValue := Function.update u.choiceValue c value }

def setSelection (c : C) (sel : Option {s // s ∈ (T.choice c).syms}) : User T :=
  { u with userSelection := Function.update u.userSelection c sel }

section SetSym

omit [DecidableEq C]

@[simp] theorem symValue_setSym (s t : S) (value : Option UserValue) :
    (u.setSym s value).symValue t = if t = s then value else u.symValue t :=
  Function.update_apply ..

@[simp] theorem choiceValue_setSym (s : S) (value : Option UserValue) :
    (u.setSym s value).choiceValue = u.choiceValue := rfl

@[simp] theorem userSelection_setSym (s : S) (value : Option UserValue) :
    (u.setSym s value).userSelection = u.userSelection := rfl

end SetSym

section SetChoice

omit [DecidableEq S]

@[simp] theorem symValue_setMode (c : C) (value : Option Tristate) :
    (u.setMode c value).symValue = u.symValue := rfl

@[simp] theorem choiceValue_setMode (c d : C) (value : Option Tristate) :
    (u.setMode c value).choiceValue d = if d = c then value else u.choiceValue d :=
  Function.update_apply ..

@[simp] theorem userSelection_setMode (c : C) (value : Option Tristate) :
    (u.setMode c value).userSelection = u.userSelection := rfl

@[simp] theorem symValue_setSelection (c : C) (sel : Option {s // s ∈ (T.choice c).syms}) :
    (u.setSelection c sel).symValue = u.symValue := rfl

@[simp] theorem choiceValue_setSelection (c : C) (sel : Option {s // s ∈ (T.choice c).syms}) :
    (u.setSelection c sel).choiceValue = u.choiceValue := rfl

@[simp] theorem userSelection_setSelection_self (c : C)
    (sel : Option {s // s ∈ (T.choice c).syms}) : (u.setSelection c sel).userSelection c = sel :=
  Function.update_self ..

@[simp] theorem userSelection_setSelection_of_ne {c d : C} (h : d ≠ c)
    (sel : Option {s // s ∈ (T.choice c).syms}) :
    (u.setSelection c sel).userSelection d = u.userSelection d :=
  Function.update_of_ne h ..

end SetChoice

end User

variable (K : Kconfig S C)

/-- The state of a configuration: what the user has set, the `_was_set` flags, and the caches. -/
structure State where
  user : User K.toTables
  wasSet : Item S C → Bool
  cache : Cache (Key S C) Key.Val

namespace Kconfig

/-- A configuration as it is loaded. -/
def initial : State K where
  user := User.empty
  wasSet := fun _ => false
  cache := fun _ => none

variable {K} (st : State K)

/-- Reads a cached attribute. -/
def get (k : Key S C) : Option (k.Val × State K) :=
  (cached (body K.toTables) st.user.inputs (K.rank k + 1) k st.cache).map fun r =>
    (r.1, { st with cache := r.2 })

/-- `_rec_invalidate`. -/
def recInvalidate (i : Item S C) : Option (State K) :=
  (Memo.recInvalidate K.layout (K.items.length + 1) i st.cache).map fun c => { st with cache := c }

/-- `_rec_invalidate_if_has_prompt`. -/
def recInvalidateIfHasPrompt (s : S) : Option (State K) :=
  if (K.sym s).prompts = [] then some st else recInvalidate st (.sym s)

/-- Marks an item as set. -/
def mark (i : Item S C) : State K := { st with wasSet := Function.update st.wasSet i true }

/-- `Symbol.set_value`. -/
def setValue (s : S) (value : UserValue) : Option (State K) :=
  let value := value.forType (K.sym s).origType
  if st.user.symValue s = some value ∧ (K.sym s).choice = none then some (mark st (.sym s))
  else if !validFor (K.sym s).origType value then some st
  else
    let st := mark { st with user := st.user.setSym s (some value) } (.sym s)
    match h : (K.sym s).choice with
    | none => recInvalidateIfHasPrompt st s
    | some c =>
      if value = .tri .y then
        -- The symbol becomes the user selection of its choice.
        let sel := some ⟨s, (K.choice_mem s c h).1⟩
        recInvalidate (mark { st with user := st.user.setSelection c sel } (.choice c)) (.choice c)
      else recInvalidateIfHasPrompt st s

/-- `Symbol.unset_value`. -/
def unsetValue (s : S) : Option (State K) :=
  if st.user.symValue s = none then some st
  else recInvalidateIfHasPrompt { st with user := st.user.setSym s none } s

/-- `Choice.set_value`. -/
def setChoice (c : C) (value : UserValue) : Option (State K) :=
  match value.normalize with
  | .str _ => some st
  | .tri v =>
    if st.user.choiceValue c = some v then some (mark st (.choice c))
    else if !validFor (K.choice c).origType (.tri v) then some st
    else
      recInvalidate (mark { st with user := st.user.setMode c (some v) } (.choice c)) (.choice c)

/-- `Choice.unset_value`. -/
def unsetChoice (c : C) : Option (State K) :=
  if st.user.choiceValue c = none ∧ st.user.userSelection c = none then some st
  else
    recInvalidate { st with user := (st.user.setMode c none).setSelection c none } (.choice c)

end Kconfig

/-- What a client of the configuration does. -/
inductive Call (S C : Type) where
  | get (k : Key S C)
  | setValue (s : S) (value : UserValue)
  | unsetValue (s : S)
  | setChoice (c : C) (value : UserValue)
  | unsetChoice (c : C)

namespace Kconfig

variable {K}

/-- One call. -/
def step (st : State K) : Call S C → Option (State K)
  | .get k => (get st k).map (·.2)
  | .setValue s value => setValue st s value
  | .unsetValue s => unsetValue st s
  | .setChoice c value => setChoice st c value
  | .unsetChoice c => unsetChoice st c

/-- Several calls. -/
def run (st : State K) (calls : List (Call S C)) : Option (State K) := calls.foldlM step st

/-! ### What the user has set -/

/-- The effect of `Symbol.set_value` on the user's values alone. -/
def assign (u : User K.toTables) (s : S) (value : UserValue) : User K.toTables :=
  let value := value.forType (K.sym s).origType
  if validFor (K.sym s).origType value then
    match h : (K.sym s).choice with
    | none => u.setSym s (some value)
    | some c =>
      if value = .tri .y then
        (u.setSym s (some value)).setSelection c (some ⟨s, (K.choice_mem s c h).1⟩)
      else u.setSym s (some value)
  else u

/-- The effect of `Choice.set_value` on the user's values alone. -/
def assignChoice (u : User K.toTables) (c : C) (value : UserValue) : User K.toTables :=
  match value.normalize with
  | .str _ => u
  | .tri v => if validFor (K.choice c).origType (.tri v) then u.setMode c (some v) else u

/-- The effect of a call on the user's values alone. -/
def applyCall (u : User K.toTables) : Call S C → User K.toTables
  | .get _ => u
  | .setValue s value => assign u s value
  | .unsetValue s => u.setSym s none
  | .setChoice c value => assignChoice u c value
  | .unsetChoice c => (u.setMode c none).setSelection c none

/-! ### Every call keeps the caches valid -/

/-- A valid state. -/
def Good (st : State K) : Prop := Valid K.layout (body K.toTables) st.user.inputs st.cache

/-- What may change when `i` is invalidated. -/
structure Covers (i : Item S C) (changed : Read S C → Prop) : Prop where
  symValue : ∀ s, changed (.symValue s) → i = .sym s ∨ .sym s ∈ K.dependents i
  choiceValue : ∀ c, changed (.choiceValue c) → i = .choice c
  userSelection : ∀ c, changed (.userSelection c) → i = .choice c

theorem within_changed {i : Item S C} {changed : Read S C → Prop}
    (h : Covers (K := K) i changed) (k : Key S C) :
    (body K.toTables k).Within (fun _ => True) fun r =>
      ¬ changed r ∨ k.item = i ∨ k.item ∈ K.dependents i := by
  by_cases hk : k.item ∈ K.items
  · by_cases hnear : k.item = i ∨ k.item ∈ K.dependents i
    · exact (reaches hk).mono (fun _ _ => trivial) fun _ _ => Or.inr hnear
    · refine within_body (scope_of_reaches hk (fun j hj => ⟨fun _ _ => trivial, ?_⟩) trivial) ?_ ?_
      · rintro c rfl
        left
        intro hc
        rw [h.choiceValue c hc] at hnear
        rcases hj with hj | hj | hj
        exacts [hj (mem_items_choice c), hnear (Or.inl hj.symm), hnear (Or.inr hj)]
      · intro s hs
        left
        intro hchanged
        have hitem : k.item = .sym s := by rcases hs with rfl | rfl <;> rfl
        rw [hitem] at hnear
        exact hnear ((h.symValue s hchanged).imp_left Eq.symm)
      · rintro c rfl
        left
        intro hchanged
        exact hnear (Or.inl (h.userSelection c hchanged).symm)
  · exact (within_undefined hk).mono (fun _ _ => trivial) fun _ h => h.elim

/-- Invalidating from `i` makes up for the changes it covers. -/
theorem recInvalidate_good {st : State K} {u : User K.toTables} {i : Item S C}
    (hgood : Valid K.layout (body K.toTables) u.inputs st.cache) (hi : i ∈ K.items)
    (h : Covers (K := K) i fun r => st.user.inputs r ≠ u.inputs r) :
    ∃ st', recInvalidate st i = some st' ∧ st'.user = st.user ∧ Good st' := by
  obtain ⟨c, hrun, hvalid⟩ : ∃ c, Memo.recInvalidate K.layout (K.items.length + 1) i st.cache =
      some c ∧ Valid K.layout (body K.toTables) st.user.inputs c :=
    hgood.recInvalidate fits hi (Nat.lt_succ_self _) fun k =>
      (within_changed h k).mono (fun _ _ => trivial) fun r hr => hr.imp_left not_not.mp
  exact ⟨{ st with cache := c }, by rw [recInvalidate, hrun]; rfl, rfl, hvalid⟩

omit [DecidableEq S] [DecidableEq C] in
/-- What the user set an invisible symbol to does not count. -/
theorem plainTri_invisible {T : Tables S C} (s : S) (user : Option UserValue) :
    (plainTri s .n user : Attr T (Tristate × Bool)) = plainTri s .n none := by
  rcases user with - | ⟨v | v⟩ <;> rfl

omit [DecidableEq S] [DecidableEq C] in
theorem typedStr_invisible {T : Tables S C} (s : S) (user : Option UserValue) :
    (typedStr s .n user : Attr T (Text × Bool)) = typedStr s .n none := by
  have hstring : stringUser .n user = none := by rcases user with - | ⟨v | v⟩ <;> rfl
  have hnum : ∀ base range, intHexUser base range .n user = none := by
    intro base range
    rcases user with - | ⟨v | v⟩ <;> simp [intHexUser]
  unfold typedStr stringStr intHexStr
  simp only [hstring, hnum]
  rfl

omit [DecidableEq S] [DecidableEq C] in
/-- Without a prompt a symbol is invisible. -/
theorem visibility_noPrompt {T : Tables S C} {s : S} (hprompt : (T.sym s).prompts = [])
    {inp : ∀ r, Read.Val T r} {c : Cache (Key S C) Key.Val} {vis : Tristate}
    (h : (symVisibility s : Attr T Tristate).evalOpt inp c = some vis) : vis = .n := by
  rw [symVisibility, hprompt] at h
  change ((hiddenInChoice s .n : Attr T Bool) >>= _).evalOpt inp c = some vis at h
  rw [Query.evalOpt_bind] at h
  obtain ⟨hidden, -, h⟩ := Option.bind_eq_some_iff.mp h
  cases hidden <;> exact (Option.some.inj h).symm

/-- A user value of a symbol without a prompt does not reach any value. -/
theorem inert_of_noPrompt {u u' : User K.toTables} {c : Cache (Key S C) Key.Val} {s : S}
    (hgood : Valid K.layout (body K.toTables) u.inputs c) (hprompt : (K.sym s).prompts = [])
    (h : ∀ r, r ≠ .symValue s → u'.inputs r = u.inputs r) :
    Valid K.layout (body K.toTables) u'.inputs c := by
  -- Queries that do not read the user value of `s` give what they gave.
  have hsame : ∀ {α : Type} (q : Attr K.toTables α), q.Within (fun _ => True) (· ≠ .symValue s) →
      q.evalOpt u'.inputs c = q.evalOpt u.inputs c := fun q hq =>
    Query.evalOpt_congr hq (fun _ _ => rfl) h
  have hscope : ∀ i ∈ K.items, Scope K.toTables (fun _ => True) (· ≠ .symValue s) i := fun i hi =>
    scope_of_reaches hi (fun j _ => ⟨fun _ _ => trivial, by simp⟩) trivial
  refine hgood.inert fun k x hx => ?_
  by_cases hconst : K.constantKey k = true
  · exact Query.evalOpt_congr (fits.constant k hconst) (fun _ _ => rfl) fun _ hr => hr.elim
  by_cases hk : k.item ∈ K.items
  swap
  · exact hsame _ ((within_undefined hk).mono (fun _ _ => trivial) fun _ hr => hr.elim)
  by_cases hread : k = .triValue s ∨ k = .strValue s
  · -- The symbol is invisible, and was when its value was computed.
    have hitem : k.item = .sym s := by rcases hread with rfl | rfl <;> rfl
    have hflag := hgood.flagged k x hx (Bool.eq_false_iff.mpr hconst)
    obtain ⟨vis, hvis⟩ := Option.isSome_iff_exists.mp hflag
    change c (.visibility k.item) = some vis at hvis
    rw [hitem] at hvis hk
    obtain rfl := visibility_noPrompt hprompt (hgood.sound _ _ hvis)
    have hs := mem_items_sym.mp hk
    have hask : ∀ {α : Type} (f : Tristate → Attr K.toTables α) (v : User K.toTables),
        (visibility (.sym s) >>= f).evalOpt v.inputs c = (f .n).evalOpt v.inputs c := by
      intro α f v
      rw [Query.evalOpt_bind]
      change ((c (.visibility (.sym s))).bind some).bind _ = _
      rw [hvis]
      rfl
    have huser : ∀ {α : Type} (f : Option UserValue → Attr K.toTables α) (v : User K.toTables),
        (symUserValue s >>= f).evalOpt v.inputs c = (f (v.symValue s)).evalOpt v.inputs c :=
      fun _ _ => rfl
    rcases hread with rfl | rfl
    · have htype : isBoolTristate (K.sym s).origType = true := by
        simpa [constantKey, hs] using hconst
      change (symTri s : Attr K.toTables _).evalOpt _ c = (symTri s : Attr K.toTables _).evalOpt _ c
      rw [symTri_defined hs htype, hask, hask]
      unfold triFrom
      split
      · rw [huser, huser, plainTri_invisible, plainTri_invisible s (u.symValue s)]
        exact hsame _ ((hscope _ hk).plainTri _ _)
      · rfl
    · have hknown : (K.sym s).origType ≠ .unknown := by
        simpa [constantKey, hs] using hconst
      change (symStr s : Attr K.toTables _).evalOpt _ c = (symStr s : Attr K.toTables _).evalOpt _ c
      by_cases htype : isBoolTristate (K.sym s).origType = true
      · rw [symStr_tri htype]
        rfl
      · rw [symStr_typed htype hknown, hask, hask, strFrom, huser, huser, typedStr_invisible,
          typedStr_invisible s (u.symValue s)]
        exact hsame _ (((hscope _ hk).typedStr _ _).bind fun _ => trivial)
  · refine hsame _ (within_body (hscope _ hk) (fun t ht => ?_) (by simp))
    rintro ⟨rfl⟩
    exact hread ht

/-- Where only the user value of `s` is new, `_rec_invalidate_if_has_prompt` is enough. -/
theorem recInvalidateIfHasPrompt_good {st : State K} {u : User K.toTables} {s : S}
    (hgood : Valid K.layout (body K.toTables) u.inputs st.cache)
    (h : ∀ r, r ≠ .symValue s → st.user.inputs r = u.inputs r) :
    ∃ st', recInvalidateIfHasPrompt st s = some st' ∧ st'.user = st.user ∧ Good st' := by
  unfold recInvalidateIfHasPrompt
  split
  · next hprompt => exact ⟨st, rfl, rfl, inert_of_noPrompt hgood hprompt h⟩
  · next hprompt =>
    have hs : s ∈ K.uniqueDefinedSyms := by
      by_contra hs
      exact hprompt (K.undefined s hs).1
    refine recInvalidate_good hgood (mem_items_sym.mpr hs) ⟨fun t ht => ?_, fun c hc => ?_, fun c hc => ?_⟩
    · by_cases hts : t = s
      · exact Or.inl (by rw [hts])
      · exact absurd (h _ (by simpa using hts)) ht
    · exact absurd (h _ (by simp)) hc
    · exact absurd (h _ (by simp)) hc

theorem setSym_inputs (u : User K.toTables) (s : S) (value : Option UserValue) :
    ∀ r, r ≠ .symValue s → (u.setSym s value).inputs r = u.inputs r := by
  intro r hr
  cases r with
  | symValue t => exact Function.update_of_ne (fun h => hr (by rw [h])) _ _
  | choiceValue c => rfl
  | userSelection c => rfl

theorem setValue_good {st : State K} (hgood : Good st) (s : S) (value : UserValue) :
    ∃ st', setValue st s value = some st' ∧ st'.user = assign st.user s value ∧ Good st' := by
  unfold setValue assign
  generalize value.forType (K.sym s).origType = value
  simp only
  split
  · next hsame =>
    refine ⟨_, rfl, ?_, hgood⟩
    have hset : st.user.setSym s (some value) = st.user := by
      rw [User.setSym, ← hsame.1, Function.update_eq_self]
    split
    · split
      · exact hset.symm
      · next c hc => rw [hsame.2] at hc; cases hc
    · rfl
  · split
    · next hinvalid =>
      refine ⟨_, rfl, ?_, hgood⟩
      rw [if_neg (by simpa using hinvalid)]
    · next hvalid =>
      rw [if_pos (by simpa using hvalid)]
      have hplain : ∃ st', recInvalidateIfHasPrompt
          (mark { st with user := st.user.setSym s (some value) } (.sym s)) s = some st' ∧
            st'.user = st.user.setSym s (some value) ∧ Good st' :=
        recInvalidateIfHasPrompt_good hgood (setSym_inputs _ _ _)
      split
      · exact hplain
      · next c hc =>
        split
        · -- The choice is invalidated, and the symbol as its dependent.
          refine recInvalidate_good hgood (mem_items_choice c)
            ⟨fun t ht => Or.inr ?_, fun d hd => absurd rfl hd, fun d hd => ?_⟩
          · have hts : t = s := by
              by_contra hts
              exact ht (setSym_inputs st.user s (some value) (.symValue t) (by simpa using hts))
            rw [hts]
            exact mem_dependents_choice (K.choice_syms c s (K.choice_mem s c hc).1) hc
          · by_contra hdc
            exact hd (Function.update_of_ne (fun h => hdc (by rw [h])) _ _)
        · exact hplain

theorem unsetValue_good {st : State K} (hgood : Good st) (s : S) :
    ∃ st', unsetValue st s = some st' ∧ st'.user = st.user.setSym s none ∧ Good st' := by
  unfold unsetValue
  split
  · next hnone =>
    refine ⟨_, rfl, ?_, hgood⟩
    rw [User.setSym, ← hnone, Function.update_eq_self]
  · exact recInvalidateIfHasPrompt_good hgood (setSym_inputs _ _ _)

/-- Where only the user's values for the choice `c` are new, invalidating the choice is enough. -/
theorem recInvalidate_choice {st : State K} {u : User K.toTables} {c : C}
    (hgood : Valid K.layout (body K.toTables) u.inputs st.cache)
    (hsym : st.user.symValue = u.symValue)
    (hmode : ∀ d, d ≠ c → st.user.choiceValue d = u.choiceValue d)
    (hsel : ∀ d, d ≠ c → st.user.userSelection d = u.userSelection d) :
    ∃ st', recInvalidate st (.choice c) = some st' ∧ st'.user = st.user ∧ Good st' := by
  refine recInvalidate_good hgood (mem_items_choice c)
    ⟨fun t ht => absurd (congrFun hsym t) ht, fun d hd => ?_, fun d hd => ?_⟩
  · by_contra hdc
    exact hd (hmode d fun h => hdc (by rw [h]))
  · by_contra hdc
    exact hd (hsel d fun h => hdc (by rw [h]))

theorem setChoice_good {st : State K} (hgood : Good st) (c : C) (value : UserValue) :
    ∃ st', setChoice st c value = some st' ∧ st'.user = assignChoice st.user c value ∧
      Good st' := by
  unfold setChoice assignChoice
  split
  · exact ⟨st, rfl, rfl, hgood⟩
  · next v hv =>
    split
    · next hsame =>
      refine ⟨_, rfl, ?_, hgood⟩
      have hset : st.user.setMode c (some v) = st.user := by
        rw [User.setMode, ← hsame, Function.update_eq_self]
      rw [hset, ite_self]
      rfl
    · split
      · next hinvalid =>
        refine ⟨_, rfl, ?_, hgood⟩
        rw [if_neg (by simpa using hinvalid)]
      · next hvalid =>
        rw [if_pos (by simpa using hvalid)]
        exact recInvalidate_choice hgood rfl (fun d hd => Function.update_of_ne hd _ _) fun _ _ => rfl

theorem unsetChoice_good {st : State K} (hgood : Good st) (c : C) :
    ∃ st', unsetChoice st c = some st' ∧
      st'.user = (st.user.setMode c none).setSelection c none ∧ Good st' := by
  unfold unsetChoice
  split
  · next hnone =>
    refine ⟨_, rfl, ?_, hgood⟩
    rw [User.setMode, ← hnone.1, Function.update_eq_self, User.setSelection, ← hnone.2,
      Function.update_eq_self]
  · exact recInvalidate_choice hgood rfl (fun d hd => Function.update_of_ne hd _ _)
      fun d hd => Function.update_of_ne hd _ _

/-- Reading an attribute returns its value. -/
theorem get_good {st : State K} (hgood : Good st) (k : Key S C) :
    ∃ st', get st k = some (K.acyclic.value st.user.inputs k, st') ∧ st'.user = st.user ∧
      Good st' := by
  obtain ⟨c, hrun, hvalid, -⟩ := hgood.cached K.acyclic fits (Nat.lt_succ_self (K.rank k))
  exact ⟨{ st with cache := c }, by rw [get, hrun]; rfl, rfl, hvalid⟩

/-- Each call ends, changes the user's values as it says, and leaves valid caches. -/
theorem step_good {st : State K} (hgood : Good st) (call : Call S C) :
    ∃ st', step st call = some st' ∧ st'.user = applyCall st.user call ∧ Good st' := by
  cases call with
  | get k =>
    obtain ⟨st', hget, huser, hgood'⟩ := get_good hgood k
    exact ⟨st', by rw [step, hget]; rfl, huser, hgood'⟩
  | setValue s value => exact setValue_good hgood s value
  | unsetValue s => exact unsetValue_good hgood s
  | setChoice c value => exact setChoice_good hgood c value
  | unsetChoice c => exact unsetChoice_good hgood c

theorem run_good {st : State K} (hgood : Good st) (calls : List (Call S C)) :
    ∃ st', run st calls = some st' ∧ st'.user = calls.foldl applyCall st.user ∧ Good st' := by
  induction calls generalizing st with
  | nil => exact ⟨st, rfl, rfl, hgood⟩
  | cons call calls ih =>
    obtain ⟨st₁, hstep, huser₁, hgood₁⟩ := step_good hgood call
    obtain ⟨st₂, hrun, huser₂, hgood₂⟩ := ih hgood₁
    refine ⟨st₂, ?_, ?_, hgood₂⟩
    · rw [run, List.foldlM_cons, hstep]
      exact hrun
    · rw [huser₂, huser₁]
      rfl

/-- **The caches are transparent.** After any calls, an attribute read through the caches is what the
bodies give for the user's values without any cache. -/
theorem run_transparent (K : Kconfig S C) (calls : List (Call S C)) (k : Key S C) :
    ∃ st v, run K.initial calls = some st ∧ (get st k).map (·.1) = some v ∧
      plain (body K.toTables) (calls.foldl applyCall (User.empty : User K.toTables)).inputs
        (K.rank k + 1) k = some v := by
  have hinit : Good K.initial := valid_empty
  obtain ⟨st, hrun, huser, hgood⟩ := run_good hinit calls
  obtain ⟨st', hget, -, -⟩ := get_good hgood k
  refine ⟨st, _, hrun, by rw [hget]; rfl, ?_⟩
  rw [huser]
  exact K.acyclic.plain_eq (Nat.lt_succ_self _)

end Kconfig

end MaixSpeech.Kconfiglib
