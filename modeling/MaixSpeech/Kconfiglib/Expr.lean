import MaixSpeech.Build.Genconfig
import MaixSpeech.Common.PyInt
import Mathlib.Order.Lattice

/-!
# Expressions over symbols and choices

Reference: `tools/kconfig/Kconfiglib/kconfiglib.py`.

An expression has one of the values `n`, `m` and `y`. `Expr.value` says which, from the values of the
symbols; `and` is the smaller value, `or` the larger one. The constructors `_make_and` and `_make_or`
drop operands, `split_expr` takes an expression apart, and `_expr_depends_on` finds out whether a
symbol switches it off; each keeps to that meaning.
-/

namespace MaixSpeech.Kconfiglib

open Common Build

/-! ## Tristate values -/

/-- `n`, `m` and `y`: the numbers 0, 1 and 2 of the source. -/
inductive Tristate where
  | n | m | y
deriving DecidableEq

namespace Tristate

def toNat : Tristate → ℕ
  | n => 0
  | m => 1
  | y => 2

theorem toNat_injective : Function.Injective toNat := by
  intro a b h
  cases a <;> cases b <;> first | rfl | cases h

instance : LinearOrder Tristate := LinearOrder.lift' toNat toNat_injective

/-- `2 - v`. -/
def compl : Tristate → Tristate
  | n => y
  | m => m
  | y => n

/-- `TRI_TO_STR`. -/
def toStr : Tristate → Text
  | n => ['n']
  | m => ['m']
  | y => ['y']

/-- `STR_TO_TRI.get(s)`. -/
def ofStr (s : Text) : Option Tristate :=
  if s = ['n'] then some n else if s = ['m'] then some m else if s = ['y'] then some y else none

theorem ofStr_toStr (v : Tristate) : ofStr v.toStr = some v := by
  cases v <;> rfl

theorem n_le (v : Tristate) : n ≤ v := by
  cases v <;> decide

theorem le_y (v : Tristate) : v ≤ y := by
  cases v <;> decide

end Tristate

/-! ## Expressions -/

/-- A symbol or a choice. -/
inductive Item (S C : Type) where
  | sym (s : S)
  | choice (c : C)
deriving DecidableEq

/-- `EQUAL`, `UNEQUAL`, ... -/
inductive Rel where
  | equal | unequal | less | lessEqual | greater | greaterEqual
deriving DecidableEq

/-- An expression; the operands of a relation are symbols. -/
inductive Expr (S C : Type) where
  | item (i : Item S C)
  | and (e₁ e₂ : Expr S C)
  | or (e₁ e₂ : Expr S C)
  | not (e : Expr S C)
  | rel (r : Rel) (v₁ v₂ : S)
deriving DecidableEq

variable {S C : Type}

/-- What an expression needs to know of symbols and choices. -/
structure Valuation (S C : Type) where
  origType : S → SymbolType
  triValue : Item S C → Tristate
  strValue : S → Text

/-! ## The value of an expression -/

/-- `_TYPE_TO_BASE`; a bool or tristate symbol has no base. -/
def typeToBase : SymbolType → ℕ
  | .hex => 16
  | .int => 10
  | _ => 0

/-- `orig_type in _BOOL_TRISTATE`. -/
def isBoolTristate : SymbolType → Bool
  | .bool | .tristate => true
  | _ => false

/-- `_strcmp`. -/
def strcmp (s₁ s₂ : Text) : ℤ := if s₂ < s₁ then 1 else if s₁ < s₂ then -1 else 0

/-- The test of a relation on the result of the comparison. -/
def Rel.test (r : Rel) (comp : ℤ) : Bool :=
  match r with
  | .equal => comp = 0
  | .unequal => comp ≠ 0
  | .less => comp < 0
  | .lessEqual => comp ≤ 0
  | .greater => comp > 0
  | .greaterEqual => comp ≥ 0

namespace Valuation

variable (v : Valuation S C)

/-- `_sym_to_num`, `none` for a `ValueError`. -/
def symToNum (s : S) : Option ℤ :=
  if isBoolTristate (v.origType s) then some (v.triValue (.sym s)).toNat
  else pyIntBase (typeToBase (v.origType s)) (v.strValue s)

/-- How the operands of a relation compare: as strings when both are, else as numbers if they can. -/
def comp (v₁ v₂ : S) : ℤ :=
  if v.origType v₁ = .string ∧ v.origType v₂ = .string then strcmp (v.strValue v₁) (v.strValue v₂)
  else
    match v.symToNum v₁, v.symToNum v₂ with
    | some n₁, some n₂ => n₁ - n₂
    | _, _ => strcmp (v.strValue v₁) (v.strValue v₂)

end Valuation

/-- The value of an expression. -/
def Expr.value (v : Valuation S C) : Expr S C → Tristate
  | item i => v.triValue i
  | and e₁ e₂ => min (e₁.value v) (e₂.value v)
  | or e₁ e₂ => max (e₁.value v) (e₂.value v)
  | not e => (e.value v).compl
  | rel r v₁ v₂ => if r.test (v.comp v₁ v₂) then .y else .n

/-- `expr_items`, with its repetitions. -/
def exprItems : Expr S C → List (Item S C)
  | .item i => [i]
  | .and e₁ e₂ => exprItems e₁ ++ exprItems e₂
  | .or e₁ e₂ => exprItems e₁ ++ exprItems e₂
  | .not e => exprItems e
  | .rel _ v₁ v₂ => [.sym v₁, .sym v₂]

/-! ## Building and splitting -/

/-- The constant symbols `n`, `m` and `y`. -/
structure Constants (S : Type) where
  n : S
  m : S
  y : S

/-- The constants have their values. -/
structure Constants.Holds (k : Constants S) (v : Valuation S C) : Prop where
  origType : ∀ s ∈ [k.n, k.m, k.y], v.origType s = .tristate
  n : v.triValue (.sym k.n) = .n
  m : v.triValue (.sym k.m) = .m
  y : v.triValue (.sym k.y) = .y

section Make

variable [DecidableEq S] [DecidableEq C] (k : Constants S)

/-- `_make_and`. -/
def makeAnd (e₁ e₂ : Expr S C) : Expr S C :=
  if e₁ = .item (.sym k.y) then e₂
  else if e₂ = .item (.sym k.y) then e₁
  else if e₁ = .item (.sym k.n) ∨ e₂ = .item (.sym k.n) then .item (.sym k.n)
  else .and e₁ e₂

/-- `_make_or`. -/
def makeOr (e₁ e₂ : Expr S C) : Expr S C :=
  if e₁ = .item (.sym k.n) then e₂
  else if e₂ = .item (.sym k.n) then e₁
  else if e₁ = .item (.sym k.y) ∨ e₂ = .item (.sym k.y) then .item (.sym k.y)
  else .or e₁ e₂

variable {k} {v : Valuation S C}

theorem value_makeAnd (h : k.Holds v) (e₁ e₂ : Expr S C) :
    (makeAnd k e₁ e₂).value v = min (e₁.value v) (e₂.value v) := by
  unfold makeAnd
  split
  · next h₁ => rw [h₁, Expr.value, h.y, min_eq_right (Tristate.le_y _)]
  split
  · next h₂ => rw [h₂, Expr.value, h.y, min_eq_left (Tristate.le_y _)]
  split
  · next hn =>
    rcases hn with rfl | rfl
    · rw [Expr.value, h.n, min_eq_left (Tristate.n_le _)]
    · rw [Expr.value, h.n, min_eq_right (Tristate.n_le _)]
  · rfl

theorem value_makeOr (h : k.Holds v) (e₁ e₂ : Expr S C) :
    (makeOr k e₁ e₂).value v = max (e₁.value v) (e₂.value v) := by
  unfold makeOr
  split
  · next h₁ => rw [h₁, Expr.value, h.n, max_eq_right (Tristate.n_le _)]
  split
  · next h₂ => rw [h₂, Expr.value, h.n, max_eq_left (Tristate.n_le _)]
  split
  · next hy =>
    rcases hy with rfl | rfl
    · rw [Expr.value, h.y, max_eq_left (Tristate.le_y _)]
    · rw [Expr.value, h.y, max_eq_right (Tristate.le_y _)]
  · rfl

end Make

/-- The operator `split_expr` splits at. -/
inductive Op where
  | and | or
deriving DecidableEq

/-- `split_expr`. -/
def splitExpr (op : Op) : Expr S C → List (Expr S C)
  | .and e₁ e₂ => if op = .and then splitExpr op e₁ ++ splitExpr op e₂ else [.and e₁ e₂]
  | .or e₁ e₂ => if op = .or then splitExpr op e₁ ++ splitExpr op e₂ else [.or e₁ e₂]
  | e => [e]

/-- An expression lies below each of its `and` operands. -/
theorem value_le_of_mem_splitExpr {v : Valuation S C} {e o : Expr S C}
    (ho : o ∈ splitExpr .and e) : e.value v ≤ o.value v := by
  induction e with
  | and e₁ e₂ ih₁ ih₂ =>
    rw [splitExpr, if_pos rfl, List.mem_append] at ho
    rcases ho with ho | ho
    · exact (min_le_left _ _).trans (ih₁ ho)
    · exact (min_le_right _ _).trans (ih₂ ho)
  | item i => rw [List.mem_singleton.mp ho]
  | or e₁ e₂ => rw [List.mem_singleton.mp ho]
  | not e => rw [List.mem_singleton.mp ho]
  | rel r v₁ v₂ => rw [List.mem_singleton.mp ho]

/-! ## Implicit menus -/

section Depends

variable (k : Constants S) (sym : S)

/-- `_expr_depends_on`. -/
def exprDependsOn [DecidableEq S] : Expr S C → Bool
  | .item i => match i with
    | .sym s => s = sym
    | .choice _ => false
  | .rel r left right =>
    if r = .equal ∨ r = .unequal then
      -- `A and B or C` lets the test against `y` pass for both relations.
      let test (right : S) : Bool :=
        ((r = .equal ∧ right = k.m) ∨ right = k.y) ∨ (r = .unequal ∧ right = k.n)
      if right = sym then test left
      else if left ≠ sym then false
      else test right
    else false
  | .and e₁ e₂ => exprDependsOn e₁ || exprDependsOn e₂
  | .or _ _ | .not _ => false

/-- What the comment of `_expr_depends_on` lists, and the symbol itself: operands that are `n` when
the symbol is. -/
def Switches (o : Expr S C) : Prop :=
  o = .item (.sym sym) ∨
    ∃ t, (o = .rel .equal sym t ∨ o = .rel .equal t sym) ∧ (t = k.m ∨ t = k.y) ∨
      (o = .rel .unequal sym t ∨ o = .rel .unequal t sym) ∧ t = k.n

/-- `sym != y` and `y != sym`. -/
def UnequalY (o : Expr S C) : Prop := o = .rel .unequal sym k.y ∨ o = .rel .unequal k.y sym

variable {k sym} {v : Valuation S C}

theorem comp_const (h : k.Holds v) (htype : isBoolTristate (v.origType sym) = true) {t : S}
    (ht : t ∈ [k.n, k.m, k.y]) :
    v.comp sym t = (v.triValue (.sym sym)).toNat - (v.triValue (.sym t)).toNat ∧
      v.comp t sym = (v.triValue (.sym t)).toNat - (v.triValue (.sym sym)).toNat := by
  have htri := h.origType t ht
  have hstring : v.origType sym ≠ .string := by
    intro hs
    rw [hs] at htype
    cases htype
  have hnum : isBoolTristate (v.origType t) = true := by rw [htri]; rfl
  have hnot : v.origType t ≠ .string := by rw [htri]; decide
  simp [Valuation.comp, Valuation.symToNum, hnum, htype, hstring]

/-- A switch is off when its symbol is. -/
theorem Switches.value_eq (h : k.Holds v) (htype : isBoolTristate (v.origType sym) = true)
    (hsym : v.triValue (.sym sym) = .n) {o : Expr S C} (ho : Switches k sym o) :
    o.value v = .n := by
  rcases ho with rfl | ⟨t, ⟨ho, ht⟩ | ⟨ho, rfl⟩⟩
  · exact hsym
  · have hmem : t ∈ [k.n, k.m, k.y] := by rcases ht with rfl | rfl <;> simp
    obtain ⟨hleft, hright⟩ := comp_const h htype hmem
    have hval : v.triValue (.sym t) = .m ∨ v.triValue (.sym t) = .y := by
      rcases ht with rfl | rfl
      · exact Or.inl h.m
      · exact Or.inr h.y
    rw [hsym] at hleft hright
    rcases ho with rfl | rfl <;> rcases hval with hval | hval <;>
      rw [hval] at hleft hright <;> simp [Expr.value, hleft, hright, Rel.test, Tristate.toNat]
  · obtain ⟨hleft, hright⟩ := comp_const (t := k.n) h htype (by simp)
    rw [hsym, h.n] at hleft hright
    rcases ho with rfl | rfl <;> simp [Expr.value, hleft, hright, Rel.test]

/-- `sym != y` is on when the symbol is off. -/
theorem UnequalY.value_eq (h : k.Holds v) (htype : isBoolTristate (v.origType sym) = true)
    (hsym : v.triValue (.sym sym) = .n) {o : Expr S C} (ho : UnequalY k sym o) :
    o.value v = .y := by
  obtain ⟨hleft, hright⟩ := comp_const (t := k.y) h htype (by simp)
  rw [hsym, h.y] at hleft hright
  rcases ho with rfl | rfl <;> simp [Expr.value, hleft, hright, Rel.test, Tristate.toNat]

/-- What the test finds among the operands. -/
theorem exprDependsOn_iff [DecidableEq S] (e : Expr S C) : exprDependsOn k sym e = true ↔
    ∃ o ∈ splitExpr .and e, Switches k sym o ∨ UnequalY k sym o := by
  induction e with
  | and e₁ e₂ ih₁ ih₂ =>
    rw [exprDependsOn, Bool.or_eq_true, ih₁, ih₂, splitExpr, if_pos rfl]
    simp only [List.mem_append, or_and_right, exists_or]
  | item i => cases i <;> simp [exprDependsOn, splitExpr, Switches, UnequalY]
  | or e₁ e₂ => simp [exprDependsOn, splitExpr, Switches, UnequalY]
  | not e => simp [exprDependsOn, splitExpr, Switches, UnequalY]
  | rel r left right =>
    simp only [exprDependsOn, splitExpr, List.mem_singleton, exists_eq_left, Switches, UnequalY,
      Expr.rel.injEq, reduceCtorEq, false_or]
    cases r <;> by_cases hright : right = sym <;> by_cases hleft : left = sym <;>
      simp [hright, hleft] <;> grind

/-- **Implicit menus.** What depends on a bool or tristate symbol is `n` while the symbol is, unless
the test took it for the sake of an operand `sym != y`, which is then `y`. -/
theorem exprDependsOn_sound [DecidableEq S] {e : Expr S C} (he : exprDependsOn k sym e = true)
    (h : k.Holds v) (htype : isBoolTristate (v.origType sym) = true)
    (hsym : v.triValue (.sym sym) = .n) :
    e.value v = .n ∨ ∃ o ∈ splitExpr .and e, UnequalY k sym o ∧ o.value v = .y := by
  obtain ⟨o, ho, hswitch | hy⟩ := exprDependsOn_iff e |>.mp he
  · left
    have hle := value_le_of_mem_splitExpr (v := v) ho
    rw [hswitch.value_eq h htype hsym] at hle
    exact le_antisymm hle (Tristate.n_le _)
  · exact Or.inr ⟨o, ho, hy, hy.value_eq h htype hsym⟩

end Depends

/-- The constants and one bool symbol, which is `n`. -/
def offValuation : Valuation (Option Tristate) Empty where
  origType
    | some _ => .tristate
    | none => .bool
  triValue
    | .sym (some t) => t
    | .sym none => .n
    | .choice c => nomatch c
  strValue
    | some t => t.toStr
    | none => ['n']

def offConstants : Constants (Option Tristate) := ⟨some .n, some .m, some .y⟩

/-- `m && sym != y`: not `n` although the symbol is. -/
def unequalOff : Expr (Option Tristate) Empty :=
  .and (.item (.sym (some .m))) (.rel .unequal none (some .y))

theorem exprDependsOn_sound_unequalOff :
    exprDependsOn offConstants none unequalOff = true ∧ unequalOff.value offValuation = .m ∧
      (unequalOff.value offValuation = .n ∨ ∃ o ∈ splitExpr .and unequalOff,
        UnequalY offConstants none o ∧ o.value offValuation = .y) := by
  have hdep : exprDependsOn offConstants none unequalOff = true := by decide
  exact ⟨hdep, by decide, exprDependsOn_sound hdep ⟨by decide, rfl, rfl, rfl⟩ rfl rfl⟩

end MaixSpeech.Kconfiglib
