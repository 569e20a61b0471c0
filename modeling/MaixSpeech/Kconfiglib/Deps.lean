import MaixSpeech.Kconfiglib.Symbols

/-!
# What values depend on

Reference: `tools/kconfig/Kconfiglib/kconfiglib.py`.

`_build_dep` registers each symbol and choice with everything its properties mention, and
`_add_choice_deps` the choices with their symbols. `within_body` is the other side of it: a body looks
at nothing outside the scope of its item, which is its own attributes, those of the items in its
expressions, its choice or its choice symbols, and `MODULES`.
-/

namespace MaixSpeech.Kconfiglib

open Common Common.Memo Build

variable {S C : Type}

/-! ## Dependencies -/

namespace Tables

variable (T : Tables S C)

/-- All symbols and choices that are defined. -/
def items : List (Item S C) := T.uniqueDefinedSyms.map .sym ++ T.uniqueChoices.map .choice

/-- `is_constant`, false for choices. -/
def isConstant : Item S C → Bool
  | .sym s => (T.sym s).isConstant
  | .choice _ => false

/-- The expressions that `_build_dep` looks at for an item. -/
def exprs : Item S C → List (Expr S C)
  | .sym s =>
    let d := T.sym s
    d.prompts ++ d.defaults.flatMap (fun p => [p.1, p.2]) ++ [d.revDep, d.weakRevDep] ++
      d.ranges.flatMap (fun r => [.item (.sym r.1), .item (.sym r.2.1), r.2.2]) ++ [d.directDep]
  | .choice c =>
    let d := T.choice c
    d.prompts ++ d.defaults.map (·.2)

/-- `_make_depend_on`: the items that an expression is registered with. -/
def makeDependOn (e : Expr S C) : List (Item S C) :=
  (exprItems e).filter fun i => !T.isConstant i

/-- What an item is registered with by `_build_dep` and `_add_choice_deps`. -/
def dependsOn (i : Item S C) : List (Item S C) :=
  (T.exprs i).flatMap T.makeDependOn ++
    match i with
    | .sym _ => []
    | .choice c => (T.choice c).syms.map .sym

end Tables

/-- A finalized configuration: its tables with the `_dependents` sets, in any order. Three conditions
are not enforced when it is parsed: that choice symbols mention their choice, that the defaults of a
choice are among its symbols, and that the properties do not loop. -/
structure Kconfig (S C : Type) [DecidableEq S] [DecidableEq C] extends Tables S C where
  dependents : Item S C → List (Item S C)
  mem_dependents : ∀ i j, j ∈ dependents i ↔ j ∈ toTables.items ∧ i ∈ toTables.dependsOn j
  mem_choices : ∀ c, c ∈ uniqueChoices
  /-- Symbols without a definition have nothing but a name and, for `n`, `m` and `y`, a value. -/
  undefined : ∀ s, s ∉ uniqueDefinedSyms →
    (sym s).prompts = [] ∧ (sym s).choice = none ∧
      ((sym s).preset = none → (sym s).origType = .unknown) ∧
      ((sym s).preset ≠ none → (sym s).origType = .tristate)
  defined : ∀ s ∈ uniqueDefinedSyms, (sym s).isConstant = false ∧ (sym s).preset = none
  preset : (sym consts.n).preset = some .n ∧ (sym consts.m).preset = some .m ∧
    (sym consts.y).preset = some .y
  /-- A choice symbol mentions its choice, as it does where the dependencies of a node inside reach
  one of its properties. -/
  choice_mem : ∀ s c, (sym s).choice = some c →
    s ∈ (choice c).syms ∧ .choice c ∈ toTables.dependsOn (.sym s)
  choice_syms : ∀ c, ∀ s ∈ (choice c).syms, s ∈ uniqueDefinedSyms
  /-- `_check_choice_sanity` only warns of another default, and `_build_dep` does not register it. -/
  choice_defaults : ∀ c, ∀ d ∈ (choice c).defaults, d.1 ∈ (choice c).syms
  rank : Key S C → ℕ
  /-- No attribute asks for itself. -/
  acyclic : Ranked (body toTables) rank

/-! ## What the bodies look at -/

section Within

variable {T : Tables S C} {P : Key S C → Prop} {Q : Read S C → Prop}

/-- An item may be looked at: all its attributes, and a choice's user value. -/
def Open (P : Key S C → Prop) (Q : Read S C → Prop) (i : Item S C) : Prop :=
  (∀ k : Key S C, k.item = i → P k) ∧ ∀ c, i = .choice c → Q (.choiceValue c)

/-- `P` and `Q` admit what the properties of an item look at. -/
structure Scope (T : Tables S C) (P : Key S C → Prop) (Q : Read S C → Prop) (i : Item S C) :
    Prop where
  modules : P (.triValue T.modules)
  own : Open P Q i
  exprs : ∀ e ∈ T.exprs i, ∀ j ∈ exprItems e, Open P Q j
  sym : ∀ s, i = .sym s → ∀ c, (T.sym s).choice = some c → Open P Q (.choice c)
  choice : ∀ c, i = .choice c →
    ∀ s, (s ∈ (T.choice c).syms ∨ ∃ d ∈ (T.choice c).defaults, d.1 = s) → Open P Q (.sym s)

/-- The visibility of an open item may be read. -/
theorem within_visibility {i : Item S C} (h : Open P Q i) :
    (visibility i : Attr T Tristate).Within P Q :=
  Query.within_get (Key.visibility i) |>.mpr (h.1 _ rfl)

theorem within_symTriValue {s : S} (h : P (.triValue s)) :
    (symTriValue s : Attr T Tristate).Within P Q :=
  (Query.within_get (Key.triValue s) |>.mpr h).bind fun _ => trivial

theorem within_symStrValue {s : S} (h : P (.strValue s)) :
    (symStrValue s : Attr T Text).Within P Q :=
  (Query.within_get (Key.strValue s) |>.mpr h).bind fun _ => trivial

/-- The type of a choice depends on `MODULES` alone. -/
theorem within_choiceType (hmod : P (.triValue T.modules)) (c : C) :
    (choiceType c : Attr T SymbolType).Within P Q := by
  refine .ite (fun _ => ?_) fun _ => trivial
  exact (within_symTriValue hmod).bind fun _ => .ite (fun _ => trivial) fun _ => trivial

/-- The mode of a choice: its visibility, what the user gave it, and its type. -/
theorem within_choiceTriValue (hmod : P (.triValue T.modules)) {c : C}
    (h : Open P Q (.choice c)) : (choiceTriValue c : Attr T Tristate).Within P Q := by
  refine (within_visibility h).bind fun vis => ?_
  refine Query.Within.bind (Query.within_input (Read.choiceValue c) |>.mpr (h.2 c rfl)) fun user => ?_
  refine .ite (fun _ => ?_) fun _ => trivial
  exact (within_choiceType hmod c).bind fun _ => .ite (fun _ => trivial) fun _ => trivial

theorem within_inYChoice (hmod : P (.triValue T.modules)) {s : S}
    (h : ∀ c, (T.sym s).choice = some c → Open P Q (.choice c)) :
    (inYChoice s : Attr T Bool).Within P Q := by
  unfold inYChoice
  split
  · trivial
  · next c hc => exact (within_choiceTriValue hmod (h c hc)).bind fun _ => trivial

/-- The type of a symbol depends on the mode of its choice and on `MODULES`. -/
theorem within_symType (hmod : P (.triValue T.modules)) {s : S}
    (h : ∀ c, (T.sym s).choice = some c → Open P Q (.choice c)) :
    (symType s : Attr T SymbolType).Within P Q := by
  refine .ite (fun _ => (within_inYChoice hmod h).bind fun _ => ?_) fun _ => trivial
  refine .ite (fun _ => trivial) fun _ => ?_
  exact (within_symTriValue hmod).bind fun _ => .ite (fun _ => trivial) fun _ => trivial

/-- A relation reads the values of its two symbols. -/
theorem within_relComp {v₁ v₂ : S} (h₁ : Open P Q (.sym v₁)) (h₂ : Open P Q (.sym v₂)) :
    (relComp v₁ v₂ : Attr T ℤ).Within P Q := by
  have hcompare : (compareStrings v₁ v₂ : Attr T ℤ).Within P Q :=
    (within_symStrValue (h₁.1 _ rfl)).bind fun _ =>
      (within_symStrValue (h₂.1 _ rfl)).bind fun _ => trivial
  have hnum : ∀ s, Open P Q (.sym s) → (symToNum s : Attr T (Option ℤ)).Within P Q := by
    intro s hs
    refine .ite (fun _ => ?_) fun _ => ?_
    · exact (within_symTriValue (hs.1 _ rfl)).bind fun _ => trivial
    · exact (within_symStrValue (hs.1 _ rfl)).bind fun _ => trivial
  refine .ite (fun _ => hcompare) fun _ => (hnum v₁ h₁).bind fun n₁ => ?_
  cases n₁ with
  | none => exact hcompare
  | some n₁ =>
    refine (hnum v₂ h₂).bind fun n₂ => ?_
    cases n₂ with
    | none => exact hcompare
    | some n₂ => trivial

/-- **Expressions** read the items that `expr_items` lists, and `MODULES` for the choices. -/
theorem within_exprValue (hmod : P (.triValue T.modules)) {e : Expr S C}
    (h : ∀ j ∈ exprItems e, Open P Q j) : (exprValue e : Attr T Tristate).Within P Q := by
  induction e with
  | item i =>
    have hi := h i List.mem_cons_self
    cases i with
    | sym s => exact within_symTriValue (hi.1 _ rfl)
    | choice c => exact within_choiceTriValue hmod hi
  | and e₁ e₂ ih₁ ih₂ =>
    refine (ih₁ fun j hj => h j (List.mem_append_left _ hj)).bind fun v₁ => ?_
    refine .ite (fun _ => trivial) fun _ => ?_
    exact (ih₂ fun j hj => h j (List.mem_append_right _ hj)).bind fun _ => trivial
  | or e₁ e₂ ih₁ ih₂ =>
    refine (ih₁ fun j hj => h j (List.mem_append_left _ hj)).bind fun v₁ => ?_
    refine .ite (fun _ => trivial) fun _ => ?_
    exact (ih₂ fun j hj => h j (List.mem_append_right _ hj)).bind fun _ => trivial
  | not e ih => exact (ih h).bind fun _ => trivial
  | rel r v₁ v₂ =>
    exact (within_relComp (h _ (by simp [exprItems])) (h _ (by simp [exprItems]))).bind
      fun _ => trivial

variable {i : Item S C}

/-! The loops of the bodies, over the conditions and values they go through. -/

theorem within_promptVisibility (hmod : P (.triValue T.modules)) {conds : List (Expr S C)}
    (h : ∀ e ∈ conds, ∀ j ∈ exprItems e, Open P Q j) (vis : Tristate) :
    (promptVisibility conds vis : Attr T Tristate).Within P Q := by
  induction conds generalizing vis with
  | nil => trivial
  | cons cond conds ih =>
    refine (within_exprValue hmod (h cond List.mem_cons_self)).bind fun v => ?_
    exact ih (fun e he => h e (List.mem_cons_of_mem cond he)) _

theorem within_defaultTri (hmod : P (.triValue T.modules)) {l : List (Expr S C × Expr S C)}
    (h : ∀ p ∈ l, (∀ j ∈ exprItems p.1, Open P Q j) ∧ ∀ j ∈ exprItems p.2, Open P Q j) :
    (defaultTri l : Attr T Tristate).Within P Q := by
  induction l with
  | nil => trivial
  | cons p l ih =>
    obtain ⟨h₁, h₂⟩ := h p List.mem_cons_self
    refine (within_exprValue hmod h₂).bind fun dep => ?_
    refine .ite (fun _ => ih fun q hq => h q (List.mem_cons_of_mem p hq)) fun _ => ?_
    exact (within_exprValue hmod h₁).bind fun _ => trivial

theorem within_strDefault (hmod : P (.triValue T.modules)) {l : List (Expr S C × Expr S C)}
    (h : ∀ p ∈ l, (∀ j ∈ exprItems p.1, Open P Q j) ∧ ∀ j ∈ exprItems p.2, Open P Q j) :
    (strDefault l : Attr T (Text × Bool)).Within P Q := by
  induction l with
  | nil => trivial
  | cons p l ih =>
    obtain ⟨h₁, h₂⟩ := h p List.mem_cons_self
    refine (within_exprValue hmod h₂).bind fun dep => ?_
    refine .ite (fun _ => ih fun q hq => h q (List.mem_cons_of_mem p hq)) fun _ => ?_
    refine Query.Within.bind ?_ fun _ => trivial
    unfold defaultStr
    split
    · next s hs => exact within_symStrValue ((h₁ (.sym s) (by rw [hs]; simp [exprItems])).1 _ rfl)
    · trivial

/-! ### The properties, within their scope -/

namespace Scope

variable {s : S} {c : C}

theorem exprValue (h : Scope T P Q i) {e : Expr S C} (he : e ∈ T.exprs i) :
    (Kconfiglib.exprValue e : Attr T Tristate).Within P Q :=
  within_exprValue h.modules (h.exprs e he)

/-- A symbol's scope has its choice. -/
theorem choiceOf (h : Scope T P Q (.sym s)) (c : C) (hc : (T.sym s).choice = some c) :
    Open P Q (.choice c) :=
  h.sym s rfl c hc

theorem symType (h : Scope T P Q (.sym s)) : (symType s : Attr T SymbolType).Within P Q :=
  within_symType h.modules h.choiceOf

/-- `_visibility`: the prompts, then the choice where it hides a symbol, and the type where `m` is
promoted. -/
theorem symVisibility (h : Scope T P Q (.sym s)) :
    (symVisibility s : Attr T Tristate).Within P Q := by
  have hprompts : ∀ e ∈ (T.sym s).prompts, e ∈ T.exprs (.sym s) := by
    intro e he
    simp [Tables.exprs, he]
  refine (within_promptVisibility h.modules (fun e he => h.exprs e (hprompts e he)) _).bind
    fun vis => Query.Within.bind ?_ fun hidden => ?_
  · unfold hiddenInChoice
    split
    · trivial
    · next c hc =>
      have hmode : (choiceTriValue c : Attr T Tristate).Within P Q :=
        within_choiceTriValue h.modules (h.choiceOf c hc)
      refine .ite (fun _ => hmode.bind fun _ => trivial) fun _ => ?_
      exact .ite (fun _ => hmode.bind fun _ => trivial) fun _ => trivial
  · refine .ite (fun _ => trivial) fun _ => .ite (fun _ => ?_) fun _ => trivial
    exact h.symType.bind fun _ => .ite (fun _ => trivial) fun _ => trivial

theorem choiceVisibility (h : Scope T P Q (.choice c)) :
    (choiceVisibility c : Attr T Tristate).Within P Q := by
  have hprompts : ∀ e ∈ (T.choice c).prompts, e ∈ T.exprs (.choice c) := by
    intro e he
    simp [Tables.exprs, he]
  refine (within_promptVisibility h.modules (fun e he => h.exprs e (hprompts e he)) _).bind
    fun vis => .ite (fun _ => ?_) fun _ => trivial
  exact (within_choiceType h.modules c).bind fun _ => .ite (fun _ => trivial) fun _ => trivial

/-- Default values and their conditions are in the scope. -/
theorem defaults (h : Scope T P Q (.sym s)) : ∀ p ∈ (T.sym s).defaults,
    (∀ j ∈ exprItems p.1, Open P Q j) ∧ ∀ j ∈ exprItems p.2, Open P Q j := by
  intro p hp
  constructor
  · refine h.exprs p.1 ?_
    simp only [Tables.exprs, List.mem_append, List.mem_flatMap]
    exact Or.inl (Or.inl (Or.inl (Or.inr ⟨p, hp, by simp⟩)))
  · refine h.exprs p.2 ?_
    simp only [Tables.exprs, List.mem_append, List.mem_flatMap]
    exact Or.inl (Or.inl (Or.inl (Or.inr ⟨p, hp, by simp⟩)))

/-- So are the dependencies of the symbol: selected, implied and direct ones. -/
theorem deps (h : Scope T P Q (.sym s)) {e : Expr S C}
    (he : e ∈ [(T.sym s).revDep, (T.sym s).weakRevDep, (T.sym s).directDep]) :
    (Kconfiglib.exprValue e : Attr T Tristate).Within P Q := by
  refine h.exprValue ?_
  simp only [List.mem_cons, List.not_mem_nil, or_false] at he
  simp only [Tables.exprs, List.mem_append, List.mem_cons, List.not_mem_nil, or_false]
  tauto

theorem defaultsAndImplies (h : Scope T P Q (.sym s)) (write : Bool) :
    (defaultsAndImplies s write : Attr T (Tristate × Bool)).Within P Q := by
  refine (within_defaultTri h.modules h.defaults).bind fun val => ?_
  refine (h.deps (by simp)).bind fun dep => .ite (fun _ => trivial) fun _ => ?_
  exact (h.deps (by simp)).bind fun direct => .ite (fun _ => trivial) fun _ => trivial

theorem promote (h : Scope T P Q (.sym s)) (val : Tristate) :
    (promote s val : Attr T Tristate).Within P Q := by
  refine .ite (fun _ => h.symType.bind fun _ => .ite (fun _ => trivial) fun _ => ?_) fun _ => trivial
  exact (h.deps (by simp)).bind fun _ => .ite (fun _ => trivial) fun _ => trivial

/-- `tri_value` outside choices: the defaults where the user's value does not count, then `select`, and
the promotion of `m`. -/
theorem plainTri (h : Scope T P Q (.sym s)) (vis : Tristate) (user : Option UserValue) :
    (plainTri s vis user : Attr T (Tristate × Bool)).Within P Q := by
  refine Query.Within.bind ?_ fun r => ?_
  · unfold userOrDefaults
    split
    · exact .ite (fun _ => h.defaultsAndImplies _) fun _ => trivial
    · exact h.defaultsAndImplies _
  · exact (h.deps (by simp)).bind fun rev => (h.promote _).bind fun _ => trivial

/-- The ranges, with the symbols that bound them. -/
theorem activeRange (h : Scope T P Q (.sym s)) (base : ℕ) :
    (activeRange base (T.sym s).ranges : Attr T (Option (ℤ × ℤ))).Within P Q := by
  have hmem : ∀ r ∈ (T.sym s).ranges, ∀ e ∈ [Expr.item (.sym r.1), .item (.sym r.2.1), r.2.2],
      e ∈ T.exprs (.sym s) := by
    intro r hr e he
    simp only [Tables.exprs, List.mem_append, List.mem_flatMap]
    exact Or.inl (Or.inr ⟨r, hr, he⟩)
  revert hmem
  generalize (T.sym s).ranges = ranges
  intro hmem
  induction ranges with
  | nil => trivial
  | cons r ranges ih =>
    have hr := hmem r List.mem_cons_self
    have hnum : ∀ t, Expr.item (.sym t) ∈ T.exprs (.sym s) →
        (symStrValue t : Attr T Text).Within P Q := fun t ht =>
      within_symStrValue ((h.exprs _ ht (.sym t) (by simp [exprItems])).1 _ rfl)
    refine (h.exprValue (hr _ (by simp))).bind fun v => .ite (fun _ => ?_) fun _ => ?_
    · exact ih fun r' hr' => hmem r' (List.mem_cons_of_mem r hr')
    · exact (hnum _ (hr _ (by simp))).bind fun _ => (hnum _ (hr _ (by simp))).bind fun _ => trivial

theorem typedStr (h : Scope T P Q (.sym s)) (vis : Tristate) (user : Option UserValue) :
    (typedStr s vis user : Attr T (Text × Bool)).Within P Q := by
  have hdefault := within_strDefault (T := T) h.modules h.defaults
  refine .ite (fun _ => ?_) fun _ => (h.activeRange _).bind fun range => ?_
  · unfold stringStr
    split
    · trivial
    · exact hdefault.bind fun _ => trivial
  · split
    · trivial
    · exact hdefault.bind fun _ => trivial

theorem strFrom (h : Scope T P Q (.sym s)) (hread : Q (.symValue s)) (vis : Tristate) :
    (strFrom s vis : Attr T (Text × Bool)).Within P Q := by
  refine Query.Within.bind (Query.within_input (Read.symValue s) |>.mpr hread) fun user => ?_
  exact (h.typedStr vis user).bind fun _ => trivial

theorem assignable (h : Scope T P Q (.sym s)) :
    (symAssignable s : Attr T (List Tristate)).Within P Q := by
  refine .ite (fun _ => ?_) fun _ => trivial
  refine (within_visibility h.own).bind fun vis => .ite (fun _ => trivial) fun _ => ?_
  refine (h.deps (by simp)).bind fun rev => .ite (fun _ => trivial) fun _ => ?_
  refine Query.Within.bind ?_ fun noM => trivial
  have himply := (h.deps (e := (T.sym s).weakRevDep) (by simp)).bind
    (f := fun v => (pure (decide (v = .y)) : Attr T Bool)) fun _ => trivial
  refine .ite (fun _ => h.symType.bind fun _ => ?_) fun _ => ?_
  · exact .ite (fun _ => trivial) fun _ => himply
  · exact .ite (fun _ => himply) fun _ => trivial

/-- The loop over the symbols of a choice. -/
theorem firstVisible {syms : List S} (h : ∀ s ∈ syms, Open P Q (.sym s)) :
    (firstVisible syms : Attr T (Option S)).Within P Q := by
  induction syms with
  | nil => trivial
  | cons s syms ih =>
    refine (within_visibility (h s List.mem_cons_self)).bind fun vis => ?_
    exact .ite (fun _ => ih fun t ht => h t (List.mem_cons_of_mem s ht)) fun _ => trivial

/-- `_selection_from_defaults` reads the symbols of the choice and those of its defaults. -/
theorem selectionFromDefaults (h : Scope T P Q (.choice c)) {defaults : List (S × Expr S C)}
    (hd : ∀ d ∈ defaults, d ∈ (T.choice c).defaults) :
    (selectionFromDefaults c defaults : Attr T (Option S)).Within P Q := by
  induction defaults with
  | nil => exact firstVisible fun s hs => h.choice c rfl s (Or.inl hs)
  | cons d defaults ih =>
    have hmem := hd d List.mem_cons_self
    have hrest := ih fun d' hd' => hd d' (List.mem_cons_of_mem d hd')
    have hcond : d.2 ∈ T.exprs (.choice c) :=
      List.mem_append_right _ (List.mem_map_of_mem hmem)
    refine (h.exprValue hcond).bind fun v => .ite (fun _ => hrest) fun _ => ?_
    refine (within_visibility (h.choice c rfl d.1 (Or.inr ⟨d, hmem, rfl⟩))).bind fun vis => ?_
    exact .ite (fun _ => hrest) fun _ => trivial

theorem selection (h : Scope T P Q (.choice c)) (hsel : Q (.userSelection c)) :
    (Kconfiglib.selection c : Attr T (Option S)).Within P Q := by
  have hdefaults := h.selectionFromDefaults fun d hd => hd
  refine (within_choiceTriValue h.modules h.own).bind fun mode => .ite (fun _ => trivial) fun _ => ?_
  refine Query.Within.bind (Query.within_input (Read.userSelection c) |>.mpr hsel) fun user => ?_
  cases user with
  | none => exact hdefaults
  | some s =>
    refine (within_visibility (h.choice c rfl s.1 (Or.inl s.2))).bind fun vis => ?_
    exact .ite (fun _ => hdefaults) fun _ => trivial

end Scope

section Body

variable [DecidableEq S]

/-- `tri_value` also reads what the user set, and the selection of the symbol's choice. -/
theorem Scope.triFrom {s : S} (h : Scope T P Q (.sym s)) (hread : Q (.symValue s))
    (vis : Tristate) : (triFrom s vis : Attr T (Tristate × Bool)).Within P Q := by
  have huser : (symUserValue s : Attr T (Option UserValue)).Within P Q :=
    Query.within_input (Read.symValue s) |>.mpr hread
  unfold Kconfiglib.triFrom
  split
  · exact huser.bind fun user => h.plainTri vis user
  · next c hc =>
    refine .ite (fun _ => ?_) fun _ => .ite (fun _ => trivial) fun _ => huser.bind fun _ => trivial
    exact (Query.within_get (Key.selection c) |>.mpr ((h.choiceOf c hc).1 _ rfl)).bind
      fun _ => trivial

theorem Scope.symTri {s : S} (h : Scope T P Q (.sym s)) (hread : Q (.symValue s)) :
    (symTri s : Attr T (Tristate × Bool)).Within P Q := by
  unfold Kconfiglib.symTri
  split
  · trivial
  · refine .ite (fun _ => ?_) fun _ => trivial
    exact (within_visibility h.own).bind fun vis => h.triFrom hread vis

/-- **Bodies stay in their scope.** A body looks at no more than its item's scope; the value of a
symbol also reads what the user set it to, and the selection of a choice the one of the user. -/
theorem within_body {k : Key S C} (h : Scope T P Q k.item)
    (hread : ∀ s, k = .triValue s ∨ k = .strValue s → Q (.symValue s))
    (hsel : ∀ c, k = .selection c → Q (.userSelection c)) :
    (body T k).Within P Q := by
  cases k with
  | visibility i =>
    cases i with
    | sym s => exact Scope.symVisibility h
    | choice c => exact Scope.choiceVisibility h
  | triValue s => exact Scope.symTri h (hread s (Or.inl rfl))
  | strValue s =>
    refine .ite (fun _ => ?_) fun _ => .ite (fun _ => trivial) fun _ => ?_
    · exact (Query.within_get (Key.triValue s) |>.mpr (h.own.1 _ rfl)).bind fun _ => trivial
    · exact (within_visibility h.own).bind fun vis => Scope.strFrom h (hread s (Or.inr rfl)) vis
  | selection c => exact Scope.selection h (hsel c rfl)
  | assignable i =>
    cases i with
    | sym s => exact Scope.assignable h
    | choice c =>
      refine (within_visibility h.own).bind fun vis => .ite (fun _ => trivial) fun _ => ?_
      refine .ite (fun _ => ?_) fun _ => trivial
      exact (within_choiceType h.modules c).bind fun _ => trivial

end Body

end Within

end MaixSpeech.Kconfiglib
