import MaixSpeech.Kconfiglib.Cache

/-!
# The equations of the values

Reference: `tools/kconfig/Kconfiglib/kconfiglib.py`.

What the bodies compute, said without queries, over the values of expressions. The values of a
configuration under what the user has set satisfy these equations, and nothing else does, since the
properties do not loop.
-/

namespace MaixSpeech.Kconfiglib

open Common Common.Memo Build

variable {S C : Type} {T : Tables S C}

/-! ## The equations -/

/-- `m` becomes `y` where the condition holds. -/
def promoteIf (p : Prop) [Decidable p] (val : Tristate) : Tristate :=
  if val = .m ∧ p then .y else val

section Equations

variable (T) (v : Valuation S C)

/-- The type of a choice. -/
def choiceTypeIn (c : C) : SymbolType :=
  if (T.choice c).origType = .tristate ∧ v.triValue (.sym T.modules) = .n then .bool
  else (T.choice c).origType

/-- The mode of a choice, from its visibility and what the user set it to. -/
def modeIn (c : C) (vis : Tristate) (user : Option Tristate) : Tristate :=
  promoteIf (choiceTypeIn T v c = .bool) (min (modeOf T c user) vis)

/-- Is the symbol in a choice in y mode? -/
def inYChoiceIn (s : S) : Bool :=
  match (T.sym s).choice with
  | none => false
  | some c => v.triValue (.choice c) = .y

/-- The type of a symbol. -/
def symTypeIn (s : S) : SymbolType :=
  if (T.sym s).origType = .tristate ∧ (inYChoiceIn T v s ∨ v.triValue (.sym T.modules) = .n) then
    .bool
  else (T.sym s).origType

/-- The strongest of the prompts. -/
def promptsIn (conds : List (Expr S C)) (vis : Tristate) : Tristate :=
  conds.foldl (fun vis e => max vis (e.value v)) vis

/-- Is a choice symbol hidden by the mode of its choice? -/
def hiddenIn (s : S) (vis : Tristate) : Bool :=
  match (T.sym s).choice with
  | none => false
  | some c =>
    if (T.choice c).origType = .tristate ∧ (T.sym s).origType ≠ .tristate then
      v.triValue (.choice c) ≠ .y
    else (T.sym s).origType = .tristate ∧ vis = .m ∧ v.triValue (.choice c) = .y

/-- The visibility of a symbol. -/
def symVisibilityIn (s : S) : Tristate :=
  if hiddenIn T v s (promptsIn v (T.sym s).prompts .n) then .n
  else promoteIf (symTypeIn T v s ≠ .tristate) (promptsIn v (T.sym s).prompts .n)

/-- The visibility of a choice. -/
def choiceVisibilityIn (c : C) : Tristate :=
  promoteIf (choiceTypeIn T v c ≠ .tristate) (promptsIn v (T.choice c).prompts .n)

/-- The value of the first default that counts. -/
def defaultIn : List (Expr S C × Expr S C) → Tristate
  | [] => .n
  | (default, cond) :: rest =>
    if cond.value v = .n then defaultIn rest else min (default.value v) (cond.value v)

/-- The value that defaults and implies give, and whether it is written. -/
def defaultsAndImpliesIn (s : S) (write : Bool) : Tristate × Bool :=
  let val := defaultIn v (T.sym s).defaults
  if (T.sym s).weakRevDep.value v = .n ∨ (T.sym s).directDep.value v = .n then
    (val, write || decide (val ≠ .n))
  else (max ((T.sym s).weakRevDep.value v) val, true)

/-- The value before the reverse dependencies, and whether it is written. -/
def userOrDefaultsIn (s : S) (vis : Tristate) : Option UserValue → Tristate × Bool
  | some (.tri t) => if vis = .n then defaultsAndImpliesIn T v s false else (min t vis, true)
  | _ => defaultsAndImpliesIn T v s (decide (vis ≠ .n))

/-- The value of a bool or tristate symbol outside choices. -/
def plainTriIn (s : S) (vis : Tristate) (user : Option UserValue) : Tristate × Bool :=
  let r := userOrDefaultsIn T v s vis user
  (promoteIf (symTypeIn T v s = .bool ∨ (T.sym s).weakRevDep.value v = .y)
      (max ((T.sym s).revDep.value v) r.1),
    r.2 || decide ((T.sym s).revDep.value v ≠ .n))

/-- The range that is active. -/
def rangeIn (base : ℕ) : List (S × S × Expr S C) → Option (ℤ × ℤ)
  | [] => none
  | (low, high, cond) :: rest =>
    if cond.value v = .n then rangeIn base rest
    else some ((pyIntBase base (v.strValue low)).getD 0, (pyIntBase base (v.strValue high)).getD 0)

/-- The text of the first default that counts, and whether there is one. -/
def strDefaultIn : List (Expr S C × Expr S C) → Text × Bool
  | [] => ([], false)
  | (default, cond) :: rest =>
    if cond.value v = .n then strDefaultIn rest
    else
      match default with
      | .item (.sym s) => (v.strValue s, true)
      | _ => ([], true)

/-- The value of an int or hex symbol. -/
def intHexIn (s : S) (vis : Tristate) (user : Option UserValue) : Text × Bool :=
  let base := typeToBase (T.sym s).origType
  let range := rangeIn v base (T.sym s).ranges
  match intHexUser base range vis user with
  | some t => (t, true)
  | none =>
    let r := strDefaultIn v (T.sym s).defaults
    let num := if r.2 then (pyIntBase base r.1).getD 0 else 0
    (clamp (T.sym s).origType range r.1 num, r.2 || decide (vis ≠ .n))

/-- The value of a string symbol. -/
def stringIn (s : S) (vis : Tristate) (user : Option UserValue) : Text × Bool :=
  match stringUser vis user with
  | some t => (t, true)
  | none =>
    let r := strDefaultIn v (T.sym s).defaults
    (r.1, r.2 || decide (vis ≠ .n))

/-- The value of a string, int or hex symbol. -/
def typedStrIn (s : S) (vis : Tristate) (user : Option UserValue) : Text × Bool :=
  if (T.sym s).origType = .string then stringIn T v s vis user else intHexIn T v s vis user

/-- The selection without the user's. -/
def selectionFromDefaultsIn (vis : S → Tristate) (c : C) : List (S × Expr S C) → Option S
  | [] => (T.choice c).syms.find? fun s => vis s ≠ .n
  | (s, cond) :: rest =>
    if cond.value v = .n ∨ vis s = .n then selectionFromDefaultsIn vis c rest else some s

/-- The selection of a choice. -/
def selectionIn (vis : S → Tristate) (c : C) (user : Option {s // s ∈ (T.choice c).syms}) :
    Option S :=
  if v.triValue (.choice c) ≠ .y then none
  else
    match user with
    | none => selectionFromDefaultsIn T v vis c (T.choice c).defaults
    | some s =>
      if vis s = .n then selectionFromDefaultsIn T v vis c (T.choice c).defaults else some s.1

/-- Has `m` no place among the values of a symbol? -/
def noModuleIn (s : S) (vis rev : Tristate) : Bool :=
  if vis = .y then symTypeIn T v s = .bool ∨ (T.sym s).weakRevDep.value v = .y
  else rev = .n ∧ (T.sym s).weakRevDep.value v = .y

/-- The values that can be assigned to a symbol. -/
def symAssignableIn (s : S) (vis : Tristate) : List Tristate :=
  let rev := (T.sym s).revDep.value v
  if isBoolTristate (T.sym s).origType ∧ (T.sym s).preset = none ∧ vis ≠ .n then
    if rev = .y ∨ vis = .y ∧ (T.sym s).choice.isSome then [.y]
    else symValuesFor vis rev (noModuleIn T v s vis rev)
  else []

/-- The modes that can be assigned to a choice. -/
def choiceAssignableIn (c : C) (vis : Tristate) : List Tristate :=
  if vis = .n then []
  else
    choiceValuesFor (T.choice c).isOptional
      (if vis ≠ .y then [.m] else if choiceTypeIn T v c = .bool then [.y] else [.m, .y])

end Equations

/-! ## The bodies satisfy them -/

section Eval

variable {inp : ∀ r, Read.Val T r} {val : ∀ k : Key S C, k.Val}

theorem eval_choiceType (c : C) :
    (choiceType c : Attr T SymbolType).eval inp val = choiceTypeIn T (valuation inp val) c := by
  rw [choiceType, choiceTypeIn]
  by_cases htype : (T.choice c).origType = .tristate
  · rw [if_pos htype, Query.eval_bind, Query.eval_ite]
    have hmod : (symTriValue T.modules : Attr T Tristate).eval inp val =
      (valuation inp val).triValue (.sym T.modules) := rfl
    rw [hmod]
    simp [htype]
  · simp [htype]

theorem eval_choiceTriValue (c : C) : (choiceTriValue c : Attr T Tristate).eval inp val =
    modeIn T (valuation inp val) c (val (.visibility (.choice c))) (inp (.choiceValue c)) := by
  rw [choiceTriValue, Query.eval_bind, Query.eval_bind, Query.eval_ite, Query.eval_bind,
    eval_choiceType, Query.eval_ite]
  show (if min (modeOf T c (inp (.choiceValue c))) (val (.visibility (.choice c))) = .m then _
    else min (modeOf T c (inp (.choiceValue c))) (val (.visibility (.choice c)))) = _
  unfold modeIn promoteIf
  generalize min (modeOf T c (inp (.choiceValue c))) (val (.visibility (.choice c))) = mode
  by_cases hm : mode = .m <;> simp [hm]

theorem eval_inYChoice (s : S) :
    (inYChoice s : Attr T Bool).eval inp val = inYChoiceIn T (valuation inp val) s := by
  unfold inYChoice inYChoiceIn
  cases (T.sym s).choice with
  | none => rfl
  | some c =>
    simp only [Query.eval_bind]
    rfl

theorem eval_symType (s : S) :
    (symType s : Attr T SymbolType).eval inp val = symTypeIn T (valuation inp val) s := by
  rw [symType, symTypeIn]
  by_cases htype : (T.sym s).origType = .tristate
  · rw [if_pos htype, Query.eval_bind, eval_inYChoice, Query.eval_ite, Query.eval_bind,
      Query.eval_ite]
    have hmod : (symTriValue T.modules : Attr T Tristate).eval inp val =
      (valuation inp val).triValue (.sym T.modules) := rfl
    rw [hmod]
    by_cases hy : inYChoiceIn T (valuation inp val) s = true <;>
      by_cases hn : (valuation inp val).triValue (.sym T.modules) = .n <;>
      simp [htype, hy, hn]
  · simp [htype]

theorem eval_promptVisibility (conds : List (Expr S C)) (vis : Tristate) :
    (promptVisibility conds vis : Attr T Tristate).eval inp val =
      promptsIn (valuation inp val) conds vis := by
  induction conds generalizing vis with
  | nil => rfl
  | cons cond conds ih =>
    rw [promptVisibility, Query.eval_bind, eval_exprValue, ih]
    rfl

theorem eval_hiddenInChoice (s : S) (vis : Tristate) :
    (hiddenInChoice s vis : Attr T Bool).eval inp val = hiddenIn T (valuation inp val) s vis := by
  have hmode : ∀ c, (choiceTriValue c : Attr T Tristate).eval inp val =
    (valuation inp val).triValue (.choice c) := fun _ => rfl
  unfold hiddenInChoice hiddenIn
  cases (T.sym s).choice with
  | none => rfl
  | some c =>
    simp only [Query.eval_ite, Query.eval_bind, Query.eval_pure, hmode]
    refine if_congr Iff.rfl rfl ?_
    by_cases h : (T.sym s).origType = .tristate ∧ vis = .m
    · simp [h]
    · rw [if_neg h, eq_comm, decide_eq_false_iff_not]
      exact fun h' => h ⟨h'.1, h'.2.1⟩

theorem eval_symVisibility (s : S) :
    (symVisibility s : Attr T Tristate).eval inp val =
      symVisibilityIn T (valuation inp val) s := by
  rw [symVisibility, Query.eval_bind, eval_promptVisibility, Query.eval_bind, eval_hiddenInChoice,
    Query.eval_ite, Query.eval_ite, Query.eval_bind, eval_symType, Query.eval_ite]
  unfold symVisibilityIn promoteIf
  generalize promptsIn (valuation inp val) (T.sym s).prompts .n = vis
  by_cases hm : vis = .m <;> simp [hm]

theorem eval_choiceVisibility (c : C) :
    (choiceVisibility c : Attr T Tristate).eval inp val =
      choiceVisibilityIn T (valuation inp val) c := by
  rw [choiceVisibility, Query.eval_bind, eval_promptVisibility, Query.eval_ite, Query.eval_bind,
    eval_choiceType, Query.eval_ite]
  unfold choiceVisibilityIn promoteIf
  generalize promptsIn (valuation inp val) (T.choice c).prompts .n = vis
  by_cases hm : vis = .m <;> simp [hm]

theorem eval_defaultTri (defaults : List (Expr S C × Expr S C)) :
    (defaultTri defaults : Attr T Tristate).eval inp val =
      defaultIn (valuation inp val) defaults := by
  induction defaults with
  | nil => rfl
  | cons p rest ih =>
    rw [defaultTri, Query.eval_bind, eval_exprValue, Query.eval_ite, ih, Query.eval_bind,
      eval_exprValue, defaultIn]
    rfl

theorem eval_defaultsAndImplies (s : S) (write : Bool) :
    (defaultsAndImplies s write : Attr T (Tristate × Bool)).eval inp val =
      defaultsAndImpliesIn T (valuation inp val) s write := by
  rw [defaultsAndImplies, Query.eval_bind, eval_defaultTri, Query.eval_bind, eval_exprValue,
    Query.eval_ite, Query.eval_bind, eval_exprValue, Query.eval_ite]
  unfold defaultsAndImpliesIn
  by_cases hweak : (T.sym s).weakRevDep.value (valuation inp val) = .n <;>
    by_cases hdirect : (T.sym s).directDep.value (valuation inp val) = .n <;>
    simp [hweak, hdirect]

theorem eval_userOrDefaults (s : S) (vis : Tristate) (user : Option UserValue) :
    (userOrDefaults s vis user : Attr T (Tristate × Bool)).eval inp val =
      userOrDefaultsIn T (valuation inp val) s vis user := by
  rcases user with - | ⟨t | t⟩
  · exact eval_defaultsAndImplies s _
  · rw [userOrDefaults, Query.eval_ite, eval_defaultsAndImplies]
    rfl
  · exact eval_defaultsAndImplies s _

theorem eval_promote (s : S) (t : Tristate) :
    (promote s t : Attr T Tristate).eval inp val =
      promoteIf (symTypeIn T (valuation inp val) s = .bool ∨
        (T.sym s).weakRevDep.value (valuation inp val) = .y) t := by
  rw [promote, Query.eval_ite, Query.eval_bind, eval_symType, Query.eval_ite, Query.eval_bind,
    eval_exprValue, Query.eval_ite]
  unfold promoteIf
  by_cases hm : t = .m <;> by_cases htype : symTypeIn T (valuation inp val) s = .bool <;>
    by_cases hweak : (T.sym s).weakRevDep.value (valuation inp val) = .y <;>
    simp [hm, htype, hweak]

theorem eval_plainTri (s : S) (vis : Tristate) (user : Option UserValue) :
    (plainTri s vis user : Attr T (Tristate × Bool)).eval inp val =
      plainTriIn T (valuation inp val) s vis user := by
  rw [plainTri, Query.eval_bind, eval_userOrDefaults]
  unfold plainTriIn
  generalize userOrDefaultsIn T (valuation inp val) s vis user = r
  show ((exprValue (T.sym s).revDep : Attr T Tristate) >>= _).eval inp val = _
  rw [Query.eval_bind, eval_exprValue, Query.eval_bind, eval_promote]
  by_cases hrev : (T.sym s).revDep.value (valuation inp val) = .n
  · simp only [hrev, if_true, max_eq_right (Tristate.n_le r.1)]
    rfl
  · simp only [if_neg hrev]
    rfl

theorem eval_activeRange (base : ℕ) (ranges : List (S × S × Expr S C)) :
    (activeRange base ranges : Attr T (Option (ℤ × ℤ))).eval inp val =
      rangeIn (valuation inp val) base ranges := by
  induction ranges with
  | nil => rfl
  | cons r rest ih =>
    rw [activeRange, Query.eval_bind, eval_exprValue, Query.eval_ite, ih, rangeIn]
    rfl

theorem eval_strDefault (defaults : List (Expr S C × Expr S C)) :
    (strDefault defaults : Attr T (Text × Bool)).eval inp val =
      strDefaultIn (valuation inp val) defaults := by
  induction defaults with
  | nil => rfl
  | cons p rest ih =>
    obtain ⟨default, cond⟩ := p
    rw [strDefault, Query.eval_bind, eval_exprValue, Query.eval_ite, ih]
    refine if_congr Iff.rfl rfl ?_
    rcases default with (s | c) | _ | _ | _ | _ <;> rfl

theorem eval_typedStr (s : S) (vis : Tristate) (user : Option UserValue) :
    (typedStr s vis user : Attr T (Text × Bool)).eval inp val =
      typedStrIn T (valuation inp val) s vis user := by
  rw [typedStr, Query.eval_ite, typedStrIn]
  refine if_congr Iff.rfl ?_ ?_
  · unfold stringStr stringIn
    cases stringUser vis user with
    | some t => rfl
    | none =>
      rw [Query.eval_bind, eval_strDefault]
      rfl
  · rw [intHexStr, Query.eval_bind, eval_activeRange]
    unfold intHexIn
    simp only
    cases intHexUser (typeToBase (T.sym s).origType) (rangeIn (valuation inp val)
      (typeToBase (T.sym s).origType) (T.sym s).ranges) vis user with
    | some t => rfl
    | none =>
      rw [Query.eval_bind, eval_strDefault]
      rfl

/-- The visibilities among the values of attributes. -/
def visOf (val : ∀ k : Key S C, k.Val) (s : S) : Tristate := val (.visibility (.sym s))

/-- The texts among the values of attributes. -/
def strOf (val : ∀ k : Key S C, k.Val) (s : S) : Text :=
  let v : Text × Bool := val (.strValue s)
  v.1

/-- The symbols that get written, among the values of attributes. -/
def writesOf (val : ∀ k : Key S C, k.Val) (s : S) : Bool :=
  let v : Text × Bool := val (.strValue s)
  v.2

theorem eval_selection (c : C) : (selection c : Attr T (Option S)).eval inp val =
    selectionIn T (valuation inp val) (visOf val) c (inp (.userSelection c)) := by
  have hvis : ∀ s, (visibility (.sym s) : Attr T Tristate).eval inp val = visOf val s :=
    fun _ => rfl
  have hvisible : ∀ syms, (firstVisible syms : Attr T (Option S)).eval inp val =
      syms.find? fun s => visOf val s ≠ .n := by
    intro syms
    induction syms with
    | nil => rfl
    | cons s syms ih =>
      rw [firstVisible, Query.eval_bind, Query.eval_ite, ih, List.find?_cons, hvis]
      by_cases h : visOf val s = .n <;> simp [h]
  have hdefaults : ∀ defaults, (selectionFromDefaults c defaults : Attr T (Option S)).eval inp val =
      selectionFromDefaultsIn T (valuation inp val) (visOf val) c defaults := by
    intro defaults
    induction defaults with
    | nil => exact hvisible _
    | cons d rest ih =>
      obtain ⟨s, cond⟩ := d
      rw [selectionFromDefaults, Query.eval_bind, eval_exprValue, Query.eval_ite, ih,
        Query.eval_bind, Query.eval_ite, ih, hvis, selectionFromDefaultsIn]
      by_cases hcond : cond.value (valuation inp val) = .n <;>
        by_cases h : visOf val s = .n <;> simp [hcond, h]
  rw [selection, Query.eval_bind, Query.eval_ite, Query.eval_bind]
  unfold selectionIn
  refine if_congr Iff.rfl rfl ?_
  change (match inp (.userSelection c) with
    | none => selectionFromDefaults c (T.choice c).defaults
    | some s => _ : Attr T (Option S)).eval inp val = _
  cases inp (.userSelection c) with
  | none => exact hdefaults _
  | some s =>
    show ((visibility (.sym s.1) : Attr T Tristate) >>= _).eval inp val = _
    rw [Query.eval_bind, Query.eval_ite, hdefaults, hvis]
    rfl

theorem eval_symAssignable (s : S) : (symAssignable s : Attr T (List Tristate)).eval inp val =
    symAssignableIn T (valuation inp val) s (visOf val s) := by
  have hnoM : ∀ vis rev, (noModule s vis rev : Attr T Bool).eval inp val =
      noModuleIn T (valuation inp val) s vis rev := by
    intro vis rev
    simp only [noModule, Query.eval_ite, Query.eval_bind, eval_symType, eval_exprValue,
      Query.eval_pure, noModuleIn]
    by_cases hvis : vis = .y <;> by_cases hrev : rev = .n <;>
      by_cases htype : symTypeIn T (valuation inp val) s = .bool <;> simp [hvis, hrev, htype]
  have hvis : (visibility (.sym s) : Attr T Tristate).eval inp val = visOf val s := rfl
  simp only [symAssignable, Query.eval_ite, Query.eval_bind, eval_exprValue, hnoM, hvis,
    Query.eval_pure, symAssignableIn]
  by_cases htype : isBoolTristate (T.sym s).origType = true <;>
    by_cases hpreset : (T.sym s).preset = none <;> by_cases h : visOf val s = .n <;>
    simp [htype, hpreset, h]

theorem eval_choiceAssignable (c : C) :
    (choiceAssignable c : Attr T (List Tristate)).eval inp val =
      choiceAssignableIn T (valuation inp val) c (val (.visibility (.choice c))) := by
  have hvis : (visibility (.choice c) : Attr T Tristate).eval inp val =
    val (.visibility (.choice c)) := rfl
  rw [choiceAssignable, Query.eval_bind, Query.eval_ite, Query.eval_ite, Query.eval_bind,
    eval_choiceType, hvis]
  unfold choiceAssignableIn
  generalize val (.visibility (.choice c)) = vis
  change Tristate at vis
  cases vis <;> rfl

end Eval

/-! ## The values of a configuration -/

namespace Kconfig

variable [DecidableEq S] [DecidableEq C] (K : Kconfig S C) (u : User K.toTables)

/-- The values of all attributes. -/
def vals : ∀ k : Key S C, k.Val := K.acyclic.value u.inputs

/-- The values of symbols and choices in expressions. -/
def values : Valuation S C := valuation u.inputs (K.vals u)

/-- `Symbol.tri_value`. -/
def tri (s : S) : Tristate := (K.values u).triValue (.sym s)

/-- `Symbol.str_value`. -/
def str (s : S) : Text := (K.values u).strValue s

/-- `Choice.tri_value`. -/
def mode (c : C) : Tristate := (K.values u).triValue (.choice c)

/-- `Symbol.visibility`. -/
def vis (s : S) : Tristate := visOf (K.vals u) s

/-- `Choice.visibility`. -/
def choiceVis (c : C) : Tristate := K.vals u (.visibility (.choice c))

/-- `Choice.selection`. -/
def selected (c : C) : Option S := K.vals u (.selection c)

/-- `_write_to_conf`, as `str_value` leaves it. -/
def written (s : S) : Bool := writesOf (K.vals u) s

theorem vals_eq (k : Key S C) : K.vals u k = (body K.toTables k).eval u.inputs (K.vals u) :=
  K.acyclic.value_solves k

theorem vis_eq (s : S) : K.vis u s = symVisibilityIn K.toTables (K.values u) s :=
  (K.vals_eq u (.visibility (.sym s))).trans (eval_symVisibility s)

theorem choiceVis_eq (c : C) :
    K.choiceVis u c = choiceVisibilityIn K.toTables (K.values u) c :=
  (K.vals_eq u (.visibility (.choice c))).trans (eval_choiceVisibility c)

theorem mode_eq (c : C) :
    K.mode u c = modeIn K.toTables (K.values u) c (K.choiceVis u c) (u.choiceValue c) :=
  eval_choiceTriValue c

theorem selected_eq (c : C) : K.selected u c =
    selectionIn K.toTables (K.values u) (K.vis u) c (u.userSelection c) :=
  (K.vals_eq u (.selection c)).trans (eval_selection c)

variable {s : S}

theorem tri_plain (hs : s ∈ K.uniqueDefinedSyms)
    (htype : isBoolTristate (K.sym s).origType = true) (hc : (K.sym s).choice = none) :
    K.vals u (.triValue s) =
      plainTriIn K.toTables (K.values u) s (K.vis u s) (u.symValue s) := by
  refine (K.vals_eq u (.triValue s)).trans ?_
  change (symTri s : Attr K.toTables _).eval u.inputs (K.vals u) = _
  rw [symTri_defined hs htype, Query.eval_bind]
  unfold triFrom
  rw [hc]
  exact eval_plainTri s _ _

theorem tri_choice (hs : s ∈ K.uniqueDefinedSyms)
    (htype : isBoolTristate (K.sym s).origType = true) {c : C} (hc : (K.sym s).choice = some c) :
    K.vals u (.triValue s) =
      if K.vis u s = .y then (if K.selected u c = some s then .y else .n, true)
      else if K.vis u s = .n then (.n, false)
      else (mModeValue (u.symValue s), true) := by
  refine (K.vals_eq u (.triValue s)).trans ?_
  change (symTri s : Attr K.toTables _).eval u.inputs (K.vals u) = _
  rw [symTri_defined hs htype, Query.eval_bind]
  unfold triFrom
  rw [hc]
  change (choiceSymTri s c (K.vis u s) : Attr K.toTables _).eval u.inputs (K.vals u) = _
  rw [choiceSymTri, Query.eval_ite, Query.eval_ite, Query.eval_bind, Query.eval_bind]
  rfl

theorem str_tri (htype : isBoolTristate (K.sym s).origType = true) :
    K.vals u (.strValue s) =
      ((K.vals u (.triValue s)).1.toStr, (K.vals u (.triValue s)).2) := by
  refine (K.vals_eq u (.strValue s)).trans ?_
  change (symStr s : Attr K.toTables _).eval u.inputs (K.vals u) = _
  rw [symStr_tri htype, Query.eval_bind]
  rfl

theorem str_typed (htype : ¬ isBoolTristate (K.sym s).origType = true)
    (hknown : (K.sym s).origType ≠ .unknown) :
    K.vals u (.strValue s) =
      ((typedStrIn K.toTables (K.values u) s (K.vis u s) (u.symValue s)).1,
        (typedStrIn K.toTables (K.values u) s (K.vis u s) (u.symValue s)).2 &&
          !(K.sym s).envVar) := by
  refine (K.vals_eq u (.strValue s)).trans ?_
  change (symStr s : Attr K.toTables _).eval u.inputs (K.vals u) = _
  rw [symStr_typed htype hknown, Query.eval_bind, strFrom, Query.eval_bind, Query.eval_bind,
    eval_typedStr]
  rfl

/-! ### Reading them -/

/-- What the user has set after some calls. -/
def after (K : Kconfig S C) (calls : List (Call S C)) : User K.toTables :=
  calls.foldl applyCall User.empty

/-- What an attribute reads after some calls, through the caches. -/
def readAfter (K : Kconfig S C) (calls : List (Call S C)) (k : Key S C) : Option k.Val := do
  let st ← run K.initial calls
  let r ← get st k
  pure r.1

theorem readAfter_eq (K : Kconfig S C) (calls : List (Call S C)) (k : Key S C) :
    K.readAfter calls k = some (K.vals (K.after calls) k) := by
  have hinit : Good K.initial := valid_empty
  obtain ⟨st, hrun, huser, hgood⟩ := run_good hinit calls
  obtain ⟨st', hget, -, -⟩ := get_good hgood k
  rw [readAfter, hrun, after, vals]
  change (get st k).bind _ = _
  rw [hget, huser]
  rfl

/-- `Symbol.visibility` after some calls. -/
def visAfter (K : Kconfig S C) (calls : List (Call S C)) (s : S) : Option Tristate :=
  K.readAfter calls (.visibility (.sym s))

/-- `Symbol.tri_value` after some calls. -/
def triAfter (K : Kconfig S C) (calls : List (Call S C)) (s : S) : Option Tristate := do
  let r : Tristate × Bool ← K.readAfter calls (.triValue s)
  pure r.1

/-- `Choice.selection` after some calls. -/
def selectionAfter (K : Kconfig S C) (calls : List (Call S C)) (c : C) : Option (Option S) :=
  K.readAfter calls (.selection c)

/-- `Symbol.assignable` after some calls. -/
def assignableAfter (K : Kconfig S C) (calls : List (Call S C)) (s : S) : Option (List Tristate) :=
  K.readAfter calls (.assignable (.sym s))

theorem visAfter_eq (calls : List (Call S C)) (s : S) :
    K.visAfter calls s = some (K.vis (K.after calls) s) :=
  K.readAfter_eq calls _

theorem triAfter_eq (calls : List (Call S C)) (s : S) :
    K.triAfter calls s = some (K.tri (K.after calls) s) := by
  rw [triAfter, readAfter_eq]
  rfl

theorem assignableAfter_eq (calls : List (Call S C)) (s : S) : K.assignableAfter calls s =
    some (symAssignableIn K.toTables (K.values (K.after calls)) s (K.vis (K.after calls) s)) := by
  refine (K.readAfter_eq calls _).trans (congrArg some ?_)
  exact (K.vals_eq _ (.assignable (.sym s))).trans (eval_symAssignable s)

theorem selectionAfter_eq (calls : List (Call S C)) (c : C) :
    K.selectionAfter calls c = some (K.selected (K.after calls) c) :=
  K.readAfter_eq calls _

end Kconfig

end MaixSpeech.Kconfiglib
