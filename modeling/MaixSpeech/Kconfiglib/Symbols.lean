import MaixSpeech.Common.Memo
import MaixSpeech.Kconfiglib.Expr

/-!
# Symbols, choices and the values they compute

Reference: `tools/kconfig/Kconfiglib/kconfiglib.py`.

The attributes of symbols and choices, as the bodies of their properties compute them: each is a query
for other attributes. `Symbol.tri_value` and `Symbol.str_value` also decide whether the symbol gets an
entry in the configuration (`_write_to_conf`); the model keeps that flag beside the value, since it is
only read when the value has been computed. Warnings are left out.
-/

namespace MaixSpeech.Kconfiglib

open Common Common.Memo Build

/-! ## The tables -/

/-- What the user assigns to a symbol: a tristate to a bool or tristate symbol, a string to others. -/
inductive UserValue where
  | tri (v : Tristate)
  | str (s : Text)
deriving DecidableEq

/-- A symbol after the menu tree has been finalized. -/
structure SymbolDef (S C : Type) where
  name : Text
  origType : SymbolType
  isConstant : Bool
  /-- The `_cached_tri_val` that `n`, `m` and `y` are made with. -/
  preset : Option Tristate
  /-- The conditions of the prompts. -/
  prompts : List (Expr S C)
  defaults : List (Expr S C × Expr S C)
  revDep : Expr S C
  weakRevDep : Expr S C
  directDep : Expr S C
  ranges : List (S × S × Expr S C)
  choice : Option C
  /-- `env_var is not None`, or the symbol is `defconfig_list`. -/
  envVar : Bool

/-- A symbol that is only mentioned; `n` is the constant its dependencies start with. -/
def SymbolDef.mentioned {S C : Type} (n : S) (name : Text) (isConstant : Bool) : SymbolDef S C where
  name := name
  origType := .unknown
  isConstant := isConstant
  preset := none
  prompts := []
  defaults := []
  revDep := .item (.sym n)
  weakRevDep := .item (.sym n)
  directDep := .item (.sym n)
  ranges := []
  choice := none
  envVar := false

/-- `n`, `m` or `y`. -/
def SymbolDef.constant {S C : Type} (n : S) (name : Text) (v : Tristate) : SymbolDef S C :=
  { SymbolDef.mentioned n name true with origType := .tristate, preset := some v }

/-- A symbol defined once, with a prompt; the condition of the prompt is all it depends on. -/
def SymbolDef.config {S C : Type} (n : S) (name : Text) (type : SymbolType) (cond : Expr S C)
    (defaults : List (Expr S C × Expr S C)) : SymbolDef S C :=
  { SymbolDef.mentioned n name false with
    origType := type, prompts := [cond], defaults := defaults, directDep := cond }

/-- A choice after the menu tree has been finalized. -/
structure ChoiceDef (S C : Type) where
  origType : SymbolType
  isOptional : Bool
  prompts : List (Expr S C)
  defaults : List (S × Expr S C)
  syms : List S

/-- The symbols and choices of a configuration. -/
structure Tables (S C : Type) where
  sym : S → SymbolDef S C
  choice : C → ChoiceDef S C
  consts : Constants S
  modules : S
  uniqueDefinedSyms : List S
  uniqueChoices : List C

/-- What the user has set; the selection of a choice is one of its symbols. -/
structure User {S C : Type} (T : Tables S C) where
  symValue : S → Option UserValue
  choiceValue : C → Option Tristate
  userSelection : ∀ c, Option {s // s ∈ (T.choice c).syms}

/-- The attributes with a cache. -/
inductive Key (S C : Type) where
  | visibility (i : Item S C)
  | triValue (s : S)
  | strValue (s : S)
  | selection (c : C)
  | assignable (i : Item S C)
deriving DecidableEq

variable {S C : Type}

/-- The item of an attribute. -/
def Key.item : Key S C → Item S C
  | visibility i => i
  | triValue s => .sym s
  | strValue s => .sym s
  | selection c => .choice c
  | assignable i => i

/-- The values of an attribute, with `_write_to_conf` where it is decided. -/
def Key.Val : Key S C → Type
  | visibility _ => Tristate
  | triValue _ => Tristate × Bool
  | strValue _ => Text × Bool
  | selection _ => Option S
  | assignable _ => List Tristate

/-- The things a user sets. -/
inductive Read (S C : Type) where
  | symValue (s : S)
  | choiceValue (c : C)
  | userSelection (c : C)

/-- The values of what a user sets. -/
def Read.Val (T : Tables S C) : Read S C → Type
  | symValue _ => Option UserValue
  | choiceValue _ => Option Tristate
  | userSelection c => Option {s // s ∈ (T.choice c).syms}

/-- The user's values as inputs. -/
def User.inputs {T : Tables S C} (u : User T) : ∀ r : Read S C, r.Val T
  | .symValue s => u.symValue s
  | .choiceValue c => u.choiceValue c
  | .userSelection c => u.userSelection c

/-- A computation that reads attributes and user values. -/
abbrev Attr (T : Tables S C) (α : Type) := Query (Key S C) Key.Val (Read S C) (Read.Val T) α

/-! ## The bodies -/

section Bodies

variable {T : Tables S C}

/-- `Symbol.visibility`, `Choice.visibility`. -/
def visibility (i : Item S C) : Attr T Tristate := Query.get (Key.visibility i)

/-- `Symbol.tri_value` and `_write_to_conf`. -/
def triAndWrite (s : S) : Attr T (Tristate × Bool) := Query.get (Key.triValue s)

/-- `Symbol.str_value` and `_write_to_conf`. -/
def strAndWrite (s : S) : Attr T (Text × Bool) := Query.get (Key.strValue s)

/-- `Choice.selection`. -/
def choiceSelection (c : C) : Attr T (Option S) := Query.get (Key.selection c)

/-- `Symbol.user_value`. -/
def symUserValue (s : S) : Attr T (Option UserValue) := Query.input (Read.symValue s)

/-- `Choice.user_value`. -/
def choiceUserValue (c : C) : Attr T (Option Tristate) := Query.input (Read.choiceValue c)

/-- `Choice.user_selection`. -/
def userSelection (c : C) : Attr T (Option {s // s ∈ (T.choice c).syms}) :=
  Query.input (Read.userSelection c)

/-- `Symbol.tri_value`. -/
def symTriValue (s : S) : Attr T Tristate := do
  let v ← triAndWrite s
  pure v.1

/-- `Symbol.str_value`. -/
def symStrValue (s : S) : Attr T Text := do
  let v ← strAndWrite s
  pure v.1

/-- `Choice.type`. -/
def choiceType (c : C) : Attr T SymbolType :=
  if (T.choice c).origType = .tristate then do
    if (← symTriValue T.modules) = .n then pure .bool else pure .tristate
  else pure (T.choice c).origType

variable (T) in
/-- The mode the user gives a choice; without `optional` it is at least `m`. -/
def modeOf (c : C) (user : Option Tristate) : Tristate :=
  let val := if (T.choice c).isOptional then .n else .m
  match user with
  | some v => max val v
  | none => val

/-- `Choice.tri_value`. -/
def choiceTriValue (c : C) : Attr T Tristate := do
  let vis ← visibility (.choice c)
  let user ← choiceUserValue c
  let val := min (modeOf T c user) vis
  if val = .m then do
    if (← choiceType c) = .bool then pure .y else pure .m
  else pure val

/-- `self.choice and self.choice.tri_value == 2`. -/
def inYChoice (s : S) : Attr T Bool :=
  match (T.sym s).choice with
  | none => pure false
  | some c => do pure (decide ((← choiceTriValue c) = .y))

/-- `Symbol.type`. -/
def symType (s : S) : Attr T SymbolType :=
  if (T.sym s).origType = .tristate then do
    if ← inYChoice s then pure .bool
    else if (← symTriValue T.modules) = .n then pure .bool else pure .tristate
  else pure (T.sym s).origType

/-- `sc.tri_value` in an expression. -/
def itemTriValue : Item S C → Attr T Tristate
  | .sym s => symTriValue s
  | .choice c => choiceTriValue c

/-- `_sym_to_num`, `none` for a `ValueError`. -/
def symToNum (s : S) : Attr T (Option ℤ) :=
  if isBoolTristate (T.sym s).origType then do
    let v ← symTriValue s
    pure (some v.toNat)
  else do
    let str ← symStrValue s
    pure (pyIntBase (typeToBase (T.sym s).origType) str)

/-- `_strcmp` of the values of two symbols. -/
def compareStrings (v₁ v₂ : S) : Attr T ℤ := do
  let s₁ ← symStrValue v₁
  let s₂ ← symStrValue v₂
  pure (strcmp s₁ s₂)

/-- The comparison behind a relation. -/
def relComp (v₁ v₂ : S) : Attr T ℤ :=
  if (T.sym v₁).origType = .string ∧ (T.sym v₂).origType = .string then compareStrings v₁ v₂
  else do
    match ← symToNum v₁ with
    | none => compareStrings v₁ v₂
    | some n₁ =>
      match ← symToNum v₂ with
      | none => compareStrings v₁ v₂
      | some n₂ => pure (n₁ - n₂)

/-- `expr_value`. -/
def exprValue : Expr S C → Attr T Tristate
  | .item i => itemTriValue i
  | .and e₁ e₂ => do
    let v₁ ← exprValue e₁
    if v₁ = .n then pure .n
    else do
      let v₂ ← exprValue e₂
      pure (min v₁ v₂)
  | .or e₁ e₂ => do
    let v₁ ← exprValue e₁
    if v₁ = .y then pure .y
    else do
      let v₂ ← exprValue e₂
      pure (max v₁ v₂)
  | .not e => do
    let v ← exprValue e
    pure v.compl
  | .rel r v₁ v₂ => do
    let comp ← relComp v₁ v₂
    pure (if r.test comp then .y else .n)

/-- The loop over the prompts in `_visibility`. -/
def promptVisibility : List (Expr S C) → Tristate → Attr T Tristate
  | [], vis => pure vis
  | cond :: conds, vis => do
    let v ← exprValue cond
    promptVisibility conds (max vis v)

/-- The part of `_visibility` for choice symbols: is the symbol hidden? -/
def hiddenInChoice (s : S) (vis : Tristate) : Attr T Bool :=
  match (T.sym s).choice with
  | none => pure false
  | some c =>
    if (T.choice c).origType = .tristate ∧ (T.sym s).origType ≠ .tristate then do
      -- Non-tristate choice symbols are only visible in y mode.
      pure (decide ((← choiceTriValue c) ≠ .y))
    else if (T.sym s).origType = .tristate ∧ vis = .m then do
      -- Choice symbols with m visibility are not visible in y mode.
      pure (decide ((← choiceTriValue c) = .y))
    else pure false

/-- `_visibility` of a symbol. -/
def symVisibility (s : S) : Attr T Tristate := do
  let vis ← promptVisibility (T.sym s).prompts .n
  if ← hiddenInChoice s vis then pure .n
  else if vis = .m then do
    if (← symType s) = .tristate then pure .m else pure .y
  else pure vis

/-- `_visibility` of a choice. -/
def choiceVisibility (c : C) : Attr T Tristate := do
  let vis ← promptVisibility (T.choice c).prompts .n
  if vis = .m then do
    if (← choiceType c) = .tristate then pure .m else pure .y
  else pure vis

/-- The loop over the defaults of a bool or tristate symbol. -/
def defaultTri : List (Expr S C × Expr S C) → Attr T Tristate
  | [] => pure .n
  | (default, cond) :: rest => do
    let dep ← exprValue cond
    if dep = .n then defaultTri rest
    else do
      let v ← exprValue default
      pure (min v dep)

/-- The value of a symbol without a user value that counts, and whether it is written. -/
def defaultsAndImplies (s : S) (write : Bool) : Attr T (Tristate × Bool) := do
  let val ← defaultTri (T.sym s).defaults
  let write := write || decide (val ≠ .n)
  let dep ← exprValue (T.sym s).weakRevDep
  if dep = .n then pure (val, write)
  else do
    let direct ← exprValue (T.sym s).directDep
    if direct = .n then pure (val, write) else pure (max dep val, true)

/-- Where `m` is promoted to `y`: for bool symbols and for those with an `imply` of `y`. -/
def promote (s : S) (val : Tristate) : Attr T Tristate :=
  if val = .m then do
    if (← symType s) = .bool then pure .y
    else if (← exprValue (T.sym s).weakRevDep) = .y then pure .y
    else pure .m
  else pure val

/-- The user value as far as the visibility lets it, or else the defaults and implies. -/
def userOrDefaults (s : S) (vis : Tristate) : Option UserValue → Attr T (Tristate × Bool)
  | some (.tri v) => if vis = .n then defaultsAndImplies s false else pure (min v vis, true)
  | _ => defaultsAndImplies s (decide (vis ≠ .n))

/-- `Symbol.tri_value` of a bool or tristate symbol outside choices, from its user value. -/
def plainTri (s : S) (vis : Tristate) (user : Option UserValue) : Attr T (Tristate × Bool) := do
  let (val, write) ← userOrDefaults s vis user
  -- Reverse dependencies take precedence.
  let rev ← exprValue (T.sym s).revDep
  let val' ← promote s (if rev = .n then val else max rev val)
  pure (val', write || decide (rev ≠ .n))

variable [DecidableEq S]

/-- The value of a visible choice symbol in m mode: `m` for any user value but 0. -/
def mModeValue : Option UserValue → Tristate
  | some (.tri v) => if v = .n then .n else .m
  | _ => .n

/-- `Symbol.tri_value` of a choice symbol. -/
def choiceSymTri (s : S) (c : C) (vis : Tristate) : Attr T (Tristate × Bool) :=
  if vis = .y then do
    let selection ← choiceSelection c
    pure (if selection = some s then .y else .n, true)
  else if vis = .n then pure (.n, false)
  else do
    let user ← symUserValue s
    pure (mModeValue user, true)

/-- `Symbol.tri_value` of a bool or tristate symbol. -/
def triFrom (s : S) (vis : Tristate) : Attr T (Tristate × Bool) :=
  match (T.sym s).choice with
  | none => symUserValue s >>= plainTri s vis
  | some c => choiceSymTri s c vis

/-- `Symbol.tri_value`, with `_write_to_conf`. -/
def symTri (s : S) : Attr T (Tristate × Bool) :=
  match (T.sym s).preset with
  | some v => pure (v, false)
  | none =>
    if isBoolTristate (T.sym s).origType then visibility (.sym s) >>= triFrom s
    else pure (.n, false)

/-- The first range whose condition is not `n`, as numbers. -/
def activeRange (base : ℕ) : List (S × S × Expr S C) → Attr T (Option (ℤ × ℤ))
  | [] => pure none
  | (low, high, cond) :: rest => do
    let v ← exprValue cond
    if v = .n then activeRange base rest
    else do
      let low ← symStrValue low
      let high ← symStrValue high
      pure (some ((pyIntBase base low).getD 0, (pyIntBase base high).getD 0))

/-- Within the range, when there is one. -/
def inRange (range : Option (ℤ × ℤ)) (n : ℤ) : Bool :=
  match range with
  | some (low, high) => low ≤ n ∧ n ≤ high
  | none => true

/-- `str(clamp)` or `hex(clamp)`. -/
def numToStr : SymbolType → ℤ → Text
  | .int, n => pyStrInt n
  | _, n => pyHex n

/-- The clamping of a default value. -/
def clamp (type : SymbolType) (range : Option (ℤ × ℤ)) (val : Text) (num : ℤ) : Text :=
  match range with
  | some (low, high) =>
    if num < low then numToStr type low else if num > high then numToStr type high else val
  | none => val

/-- `default.str_value`; the sanity check refuses other defaults of string, int and hex symbols. -/
def defaultStr : Expr S C → Attr T Text
  | .item (.sym s) => symStrValue s
  | _ => pure []

/-- The loop over the defaults of a string, int or hex symbol: the value, and whether one counts. -/
def strDefault : List (Expr S C × Expr S C) → Attr T (Text × Bool)
  | [] => pure ([], false)
  | (default, cond) :: rest => do
    let dep ← exprValue cond
    if dep = .n then strDefault rest
    else do
      let val ← defaultStr default
      pure (val, true)

/-- A user value of an int or hex symbol that counts. -/
def intHexUser (base : ℕ) (range : Option (ℤ × ℤ)) (vis : Tristate) :
    Option UserValue → Option Text
  | some (.str v) =>
    if vis ≠ .n ∧ v ≠ [] ∧ (pyIntBase base v).any (inRange range) then some v else none
  | _ => none

/-- `Symbol.str_value` of an int or hex symbol, from its user value. -/
def intHexStr (s : S) (vis : Tristate) (user : Option UserValue) : Attr T (Text × Bool) := do
  let base := typeToBase (T.sym s).origType
  let range ← activeRange base (T.sym s).ranges
  match intHexUser base range vis user with
  | some v => pure (v, true)
  | none => do
    let (val, hasDefault) ← strDefault (T.sym s).defaults
    let num := if hasDefault then (pyIntBase base val).getD 0 else 0
    pure (clamp (T.sym s).origType range val num, hasDefault || decide (vis ≠ .n))

/-- A user value of a string symbol that counts. -/
def stringUser (vis : Tristate) : Option UserValue → Option Text
  | some (.str v) => if vis ≠ .n then some v else none
  | _ => none

/-- `Symbol.str_value` of a string symbol, from its user value. -/
def stringStr (s : S) (vis : Tristate) (user : Option UserValue) : Attr T (Text × Bool) :=
  match stringUser vis user with
  | some v => pure (v, true)
  | none => do
    let (val, hasDefault) ← strDefault (T.sym s).defaults
    pure (val, hasDefault || decide (vis ≠ .n))

/-- The value of a string, int or hex symbol, and whether it would be written. -/
def typedStr (s : S) (vis : Tristate) (user : Option UserValue) : Attr T (Text × Bool) :=
  if (T.sym s).origType = .string then stringStr s vis user else intHexStr s vis user

/-- `Symbol.str_value` of a string, int or hex symbol. -/
def strFrom (s : S) (vis : Tristate) : Attr T (Text × Bool) := do
  let user ← symUserValue s
  let (val, write) ← typedStr s vis user
  pure (val, write && !(T.sym s).envVar)

/-- `Symbol.str_value`, with `_write_to_conf`. -/
def symStr (s : S) : Attr T (Text × Bool) :=
  if isBoolTristate (T.sym s).origType then do
    let v ← triAndWrite s
    pure (v.1.toStr, v.2)
  else if (T.sym s).origType = .unknown then pure ((T.sym s).name, false)
  else visibility (.sym s) >>= strFrom s

/-- `Choice._selection_from_defaults`, the part for the symbols: the first one that is visible. -/
def firstVisible : List S → Attr T (Option S)
  | [] => pure none
  | s :: rest => do
    let vis ← visibility (.sym s)
    if vis = .n then firstVisible rest else pure (some s)

/-- `Choice._selection_from_defaults`. -/
def selectionFromDefaults (c : C) : List (S × Expr S C) → Attr T (Option S)
  | [] => firstVisible (T.choice c).syms
  | (s, cond) :: rest => do
    let v ← exprValue cond
    if v = .n then selectionFromDefaults c rest
    else do
      let vis ← visibility (.sym s)
      if vis = .n then selectionFromDefaults c rest else pure (some s)

/-- `Choice._selection`. -/
def selection (c : C) : Attr T (Option S) := do
  if (← choiceTriValue c) ≠ .y then pure none
  else
    match ← userSelection c with
    | none => selectionFromDefaults c (T.choice c).defaults
    | some s => do
      let vis ← visibility (.sym s)
      if vis = .n then selectionFromDefaults c (T.choice c).defaults else pure (some s.1)

/-- Has `m` no place among the values of a symbol? -/
def noModule (s : S) (vis rev : Tristate) : Attr T Bool :=
  if vis = .y then do
    if (← symType s) = .bool then pure true
    else do pure (decide ((← exprValue (T.sym s).weakRevDep) = .y))
  else if rev = .n then do pure (decide ((← exprValue (T.sym s).weakRevDep) = .y))
  else pure false

/-- The values `Symbol._assignable` lists. -/
def symValuesFor (vis rev : Tristate) (noM : Bool) : List Tristate :=
  if rev = .n then
    if noM then [.n, .y] else if vis = .y then [.n, .m, .y] else [.n, .m]
  else if vis = .y then
    if noM then [.y] else [.m, .y]
  else [.m]

/-- `Symbol._assignable`. The constants `n`, `m` and `y` have no prompt. -/
def symAssignable (s : S) : Attr T (List Tristate) :=
  if isBoolTristate (T.sym s).origType ∧ (T.sym s).preset = none then do
    let vis ← visibility (.sym s)
    if vis = .n then pure []
    else do
      let rev ← exprValue (T.sym s).revDep
      if rev = .y ∨ vis = .y ∧ (T.sym s).choice.isSome then pure [.y]
      else do
        let noM ← noModule s vis rev
        pure (symValuesFor vis rev noM)
  else pure []

/-- The values `Choice._assignable` lists. -/
def choiceValuesFor (isOptional : Bool) (rest : List Tristate) : List Tristate :=
  if isOptional then .n :: rest else rest

/-- `Choice._assignable`. -/
def choiceAssignable (c : C) : Attr T (List Tristate) := do
  let vis ← visibility (.choice c)
  if vis = .n then pure []
  else if vis = .y then do
    let type ← choiceType c
    pure (choiceValuesFor (T.choice c).isOptional (if type = .bool then [.y] else [.m, .y]))
  else pure (choiceValuesFor (T.choice c).isOptional [.m])

variable (T) in
/-- The body of each attribute. -/
def body : ∀ k : Key S C, Attr T k.Val
  | .visibility (.sym s) => symVisibility s
  | .visibility (.choice c) => choiceVisibility c
  | .triValue s => symTri s
  | .strValue s => symStr s
  | .selection c => selection c
  | .assignable (.sym s) => symAssignable s
  | .assignable (.choice c) => choiceAssignable c

end Bodies

/-! ## The values of expressions -/

section Value

variable {T : Tables S C} (inp : ∀ r : Read S C, r.Val T) (val : ∀ k : Key S C, k.Val)

/-- The values of attributes, as expressions see them. -/
def valuation : Valuation S C where
  origType := fun s => (T.sym s).origType
  triValue
    | .sym s => (symTriValue (T := T) s).eval inp val
    | .choice c => (choiceTriValue c).eval inp val
  strValue := fun s => (symStrValue (T := T) s).eval inp val

theorem eval_relComp (v₁ v₂ : S) :
    (relComp v₁ v₂).eval inp val = (valuation inp val).comp v₁ v₂ := by
  have hcompare : (compareStrings v₁ v₂).eval inp val =
      strcmp ((valuation inp val).strValue v₁) ((valuation inp val).strValue v₂) := rfl
  have hnum : ∀ s, (symToNum s).eval inp val = (valuation inp val).symToNum s := by
    intro s
    rw [symToNum, Query.eval_ite]
    rfl
  rw [relComp, Query.eval_ite, Valuation.comp, hcompare, Query.eval_bind, hnum]
  refine if_congr Iff.rfl rfl ?_
  cases (valuation inp val).symToNum v₁ with
  | none => exact hcompare
  | some n₁ =>
    rw [Query.eval_bind, hnum]
    cases (valuation inp val).symToNum v₂ with
    | none => exact hcompare
    | some n₂ => rfl

/-- The short cuts of `expr_value` do not change its result. -/
theorem eval_exprValue (e : Expr S C) :
    (exprValue e).eval inp val = e.value (valuation inp val) := by
  induction e with
  | item i => cases i <;> rfl
  | and e₁ e₂ ih₁ ih₂ =>
    rw [exprValue, Query.eval_bind, ih₁, Query.eval_ite, Query.eval_bind, ih₂, Expr.value]
    split
    · next h => rw [h, min_eq_left (Tristate.n_le _)]; rfl
    · rfl
  | or e₁ e₂ ih₁ ih₂ =>
    rw [exprValue, Query.eval_bind, ih₁, Query.eval_ite, Query.eval_bind, ih₂, Expr.value]
    split
    · next h => rw [h, max_eq_left (Tristate.le_y _)]; rfl
    · rfl
  | not e ih =>
    rw [exprValue, Query.eval_bind, ih]
    rfl
  | rel r v₁ v₂ =>
    rw [exprValue, Query.eval_bind, eval_relComp]
    rfl

end Value

end MaixSpeech.Kconfiglib
