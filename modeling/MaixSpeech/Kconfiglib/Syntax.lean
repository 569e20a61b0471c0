import MaixSpeech.Kconfiglib.Expr

/-!
# Reading and printing expressions

Reference: `tools/kconfig/Kconfiglib/kconfiglib.py`.

`_parse_expr` reads an expression from the tokens of a line, `expr_str` prints one with the parentheses
that it needs. `parseExpr_exprTokens`: what is printed is read again as an expression with the same
values. It need not be the same expression: the parser hangs `A && B && C` over to the right. Where an
`m` stands for `m && MODULES`, this is in the values too.
-/

namespace MaixSpeech.Kconfiglib

open Common

variable {S C : Type}

/-- A token of a line; the ones that have no place in an expression, and the end, are `other`. -/
inductive Token (S : Type) where
  | sym (s : S)
  | rel (r : Rel)
  | and | or | not | openParen | closeParen | other

/-- A parser: `none` when it runs out of fuel, and else the text of an error or a result. -/
abbrev Parser (α : Type) := ExceptT Text Option α

/-! ## The parser -/

section Parse

variable [DecidableEq S] (k : Constants S) (modules : S) (transformM : Bool)

mutual

/-- `_parse_expr`; the fuel bounds the depth of the calls. -/
def parseExpr (fuel : ℕ) (tokens : List (Token S)) : Parser (Expr S C × List (Token S)) :=
  match fuel with
  | 0 => ExceptT.mk none
  | fuel + 1 => do
    let (andExpr, rest) ← parseAndExpr fuel tokens
    match rest with
    | .or :: rest => do
      let (e, rest) ← parseExpr fuel rest
      pure (.or andExpr e, rest)
    | rest => pure (andExpr, rest)

/-- `_parse_and_expr`. -/
def parseAndExpr (fuel : ℕ) (tokens : List (Token S)) : Parser (Expr S C × List (Token S)) :=
  match fuel with
  | 0 => ExceptT.mk none
  | fuel + 1 => do
    let (factor, rest) ← parseFactor fuel tokens
    match rest with
    | .and :: rest => do
      let (e, rest) ← parseAndExpr fuel rest
      pure (.and factor e, rest)
    | rest => pure (factor, rest)

/-- `_parse_factor`. -/
def parseFactor (fuel : ℕ) (tokens : List (Token S)) : Parser (Expr S C × List (Token S)) :=
  match fuel with
  | 0 => ExceptT.mk none
  | fuel + 1 =>
    match tokens with
    | .sym s :: .rel r :: rest =>
      match rest with
      | .sym s' :: rest => pure (.rel r s s', rest)
      | _ => throw "expected symbol".toList
    | .sym s :: rest =>
      if transformM ∧ s = k.m then pure (.and (.item (.sym k.m)) (.item (.sym modules)), rest)
      else pure (.item (.sym s), rest)
    | .not :: rest => do
      let (e, rest) ← parseFactor fuel rest
      pure (.not e, rest)
    | .openParen :: rest => do
      let (e, rest) ← parseExpr fuel rest
      match rest with
      | .closeParen :: rest => pure (e, rest)
      | _ => throw "malformed expression".toList
    | _ => throw "malformed expression".toList

end

end Parse

/-! ## The printer -/

def Expr.isAnd : Expr S C → Bool
  | .and _ _ => true
  | _ => false

def Expr.isOr : Expr S C → Bool
  | .or _ _ => true
  | _ => false

/-- `expr.__class__ is tuple`. -/
def Expr.isTuple : Expr S C → Bool
  | .item _ => false
  | _ => true

/-- `_parenthesize`, for what is to have parentheses or not. -/
def parenthesize (p : Bool) (tokens : List (Token S)) : List (Token S) :=
  if p then .openParen :: (tokens ++ [.closeParen]) else tokens

/-- The tokens of `expr_str`; a choice has no token. -/
def exprTokens : Expr S C → List (Token S)
  | .item (.sym s) => [.sym s]
  | .item (.choice _) => [.other]
  | .and e₁ e₂ =>
    parenthesize e₁.isOr (exprTokens e₁) ++ .and :: parenthesize e₂.isOr (exprTokens e₂)
  | .or e₁ e₂ =>
    parenthesize e₁.isAnd (exprTokens e₁) ++ .or :: parenthesize e₂.isAnd (exprTokens e₂)
  | .not e => .not :: parenthesize e.isTuple (exprTokens e)
  | .rel r v₁ v₂ => [.sym v₁, .rel r, .sym v₂]

/-! ## Reading what is printed -/

/-- The value of an expression whose `m` stands for `m && MODULES` where `transformM` says so. -/
def Expr.conditionValue [DecidableEq S] (k : Constants S) (modules : S) (transformM : Bool)
    (v : Valuation S C) : Expr S C → Tristate
  | .item (.sym s) =>
    if transformM ∧ s = k.m then min (v.triValue (.sym k.m)) (v.triValue (.sym modules))
    else v.triValue (.sym s)
  | .item (.choice c) => v.triValue (.choice c)
  | .and e₁ e₂ =>
    min (e₁.conditionValue k modules transformM v) (e₂.conditionValue k modules transformM v)
  | .or e₁ e₂ =>
    max (e₁.conditionValue k modules transformM v) (e₂.conditionValue k modules transformM v)
  | .not e => (e.conditionValue k modules transformM v).compl
  | .rel r v₁ v₂ => if r.test (v.comp v₁ v₂) then .y else .n

/-- With enough fuel the parser reads an expression and leaves the rest. -/
def Yields (p : ℕ → List (Token S) → Parser (Expr S C × List (Token S))) (tokens : List (Token S))
    (e : Expr S C) (rest : List (Token S)) : Prop :=
  ∃ need, ∀ fuel, need ≤ fuel → p fuel tokens = pure (e, rest)

/-- No relation follows. -/
def NoRel (rest : List (Token S)) : Prop := ∀ r l, rest ≠ .rel r :: l

/-- No `&&` follows. -/
def NoAnd (rest : List (Token S)) : Prop := ∀ l, rest ≠ .and :: l

/-- No `||` follows. -/
def NoOr (rest : List (Token S)) : Prop := ∀ l, rest ≠ .or :: l

section Steps

variable [DecidableEq S] {k : Constants S} {modules : S} {transformM : Bool}
  {tokens rest rest' : List (Token S)} {e e' : Expr S C} {s : S}

theorem parseFactor_sym (h : NoRel rest) (fuel : ℕ) :
    (parseFactor k modules transformM (fuel + 1) (.sym s :: rest) :
        Parser (Expr S C × List (Token S))) =
      if transformM ∧ s = k.m then pure (.and (.item (.sym k.m)) (.item (.sym modules)), rest)
      else pure (.item (.sym s), rest) := by
  cases rest with
  | nil => rfl
  | cons t l =>
    cases t with
    | rel r => exact absurd rfl (h r l)
    | _ => rfl

theorem yields_sym (h : NoRel rest) : ∃ e : Expr S C,
    Yields (parseFactor k modules transformM) (.sym s :: rest) e rest ∧
      ∀ v, e.value v = (Expr.item (.sym s)).conditionValue k modules transformM v := by
  by_cases hm : transformM = true ∧ s = k.m
  · refine ⟨.and (.item (.sym k.m)) (.item (.sym modules)), ⟨1, fun fuel hfuel => ?_⟩, fun v => ?_⟩
    · obtain ⟨n, rfl⟩ := Nat.exists_eq_add_of_le' hfuel
      rw [parseFactor_sym h, if_pos hm]
    · rw [Expr.conditionValue, if_pos hm]
      rfl
  · refine ⟨.item (.sym s), ⟨1, fun fuel hfuel => ?_⟩, fun v => ?_⟩
    · obtain ⟨n, rfl⟩ := Nat.exists_eq_add_of_le' hfuel
      rw [parseFactor_sym h, if_neg hm]
    · rw [Expr.conditionValue, if_neg hm]
      rfl

theorem yields_rel (r : Rel) (v₁ v₂ : S) : Yields (parseFactor k modules transformM)
    (.sym v₁ :: .rel r :: .sym v₂ :: rest) (.rel r v₁ v₂ : Expr S C) rest := by
  refine ⟨1, fun fuel hfuel => ?_⟩
  obtain ⟨n, rfl⟩ := Nat.exists_eq_add_of_le' hfuel
  rfl

theorem Yields.not (h : Yields (parseFactor k modules transformM) tokens e rest) :
    Yields (parseFactor k modules transformM) (.not :: tokens) (.not e) rest := by
  obtain ⟨need, h⟩ := h
  refine ⟨need + 1, fun fuel hfuel => ?_⟩
  obtain ⟨n, rfl⟩ := Nat.exists_eq_add_of_le' hfuel
  rw [← Nat.add_assoc, parseFactor, h _ (Nat.le_add_left _ _), pure_bind]

theorem Yields.paren (h : Yields (parseExpr k modules transformM) tokens e (.closeParen :: rest)) :
    Yields (parseFactor k modules transformM) (.openParen :: tokens) e rest := by
  obtain ⟨need, h⟩ := h
  refine ⟨need + 1, fun fuel hfuel => ?_⟩
  obtain ⟨n, rfl⟩ := Nat.exists_eq_add_of_le' hfuel
  rw [← Nat.add_assoc, parseFactor, h _ (Nat.le_add_left _ _), pure_bind]

theorem Yields.factor (h : Yields (parseFactor k modules transformM) tokens e rest)
    (hrest : NoAnd rest) : Yields (parseAndExpr k modules transformM) tokens e rest := by
  obtain ⟨need, h⟩ := h
  refine ⟨need + 1, fun fuel hfuel => ?_⟩
  obtain ⟨n, rfl⟩ := Nat.exists_eq_add_of_le' hfuel
  rw [← Nat.add_assoc, parseAndExpr, h _ (Nat.le_add_left _ _), pure_bind]
  dsimp only
  split
  · next l => exact absurd rfl (hrest l)
  · rfl

theorem Yields.and (h : Yields (parseFactor k modules transformM) tokens e (.and :: rest))
    (h' : Yields (parseAndExpr k modules transformM) rest e' rest') :
    Yields (parseAndExpr k modules transformM) tokens (.and e e') rest' := by
  obtain ⟨need, h⟩ := h
  obtain ⟨need', h'⟩ := h'
  refine ⟨need + need' + 1, fun fuel hfuel => ?_⟩
  obtain ⟨n, rfl⟩ := Nat.exists_eq_add_of_le' hfuel
  rw [← Nat.add_assoc, parseAndExpr, h _ (by omega), pure_bind]
  simp only [h' (n + (need + need')) (by omega), pure_bind]

theorem Yields.andExpr (h : Yields (parseAndExpr k modules transformM) tokens e rest)
    (hrest : NoOr rest) : Yields (parseExpr k modules transformM) tokens e rest := by
  obtain ⟨need, h⟩ := h
  refine ⟨need + 1, fun fuel hfuel => ?_⟩
  obtain ⟨n, rfl⟩ := Nat.exists_eq_add_of_le' hfuel
  rw [← Nat.add_assoc, parseExpr, h _ (Nat.le_add_left _ _), pure_bind]
  dsimp only
  split
  · next l => exact absurd rfl (hrest l)
  · rfl

theorem Yields.or (h : Yields (parseAndExpr k modules transformM) tokens e (.or :: rest))
    (h' : Yields (parseExpr k modules transformM) rest e' rest') :
    Yields (parseExpr k modules transformM) tokens (.or e e') rest' := by
  obtain ⟨need, h⟩ := h
  obtain ⟨need', h'⟩ := h'
  refine ⟨need + need' + 1, fun fuel hfuel => ?_⟩
  obtain ⟨n, rfl⟩ := Nat.exists_eq_add_of_le' hfuel
  rw [← Nat.add_assoc, parseExpr, h _ (by omega), pure_bind]
  simp only [h' (n + (need + need')) (by omega), pure_bind]

end Steps

/-! ## Every expression -/

section Print

variable [DecidableEq S] (k : Constants S) (modules : S) (transformM : Bool)

/-- The parser `p` reads `tokens`, before what `stop` admits, with the values of `e`. -/
def ReadsBack (p : ℕ → List (Token S) → Parser (Expr S C × List (Token S)))
    (stop : List (Token S) → Prop) (tokens : List (Token S)) (e : Expr S C) : Prop :=
  ∀ rest, stop rest → ∃ e', Yields p (tokens ++ rest) e' rest ∧
    ∀ v, e'.value v = e.conditionValue k modules transformM v

/-- Before an operator and what `p` reads behind it, too. -/
def ReadsOn (p : ℕ → List (Token S) → Parser (Expr S C × List (Token S))) (op : Token S)
    (combine : Tristate → Tristate → Tristate) (tokens : List (Token S)) (e : Expr S C) : Prop :=
  ∀ next y rest, Yields p next y rest → ∃ e', Yields p (tokens ++ op :: next) e' rest ∧
    ∀ v, e'.value v = combine (e.conditionValue k modules transformM v) (y.value v)

/-- What the parsers make of a printed expression: of a factor, of an operand of `&&`, of an operand of
`||` and of a whole expression, each with the parentheses it has there. -/
structure Printed (e : Expr S C) : Prop where
  factor : ReadsBack k modules transformM (parseFactor k modules transformM) NoRel
    (parenthesize (e.isAnd || e.isOr) (exprTokens e)) e
  andExpr : ReadsBack k modules transformM (parseAndExpr k modules transformM)
    (fun rest => NoRel rest ∧ NoAnd rest) (parenthesize e.isOr (exprTokens e)) e
  andOn : ReadsOn k modules transformM (parseAndExpr k modules transformM) .and min
    (parenthesize e.isOr (exprTokens e)) e
  orExpr : ReadsBack k modules transformM (parseExpr k modules transformM)
    (fun rest => NoRel rest ∧ NoAnd rest ∧ NoOr rest) (parenthesize e.isAnd (exprTokens e)) e
  orOn : ReadsOn k modules transformM (parseExpr k modules transformM) .or max
    (parenthesize e.isAnd (exprTokens e)) e
  whole : ReadsBack k modules transformM (parseExpr k modules transformM)
    (fun rest => NoRel rest ∧ NoAnd rest ∧ NoOr rest) (exprTokens e) e

variable {k modules transformM} {e : Expr S C} {tokens : List (Token S)}

theorem ReadsBack.toAnd (h : ReadsBack k modules transformM (parseFactor k modules transformM) NoRel
    tokens e) : ReadsBack k modules transformM (parseAndExpr k modules transformM)
      (fun rest => NoRel rest ∧ NoAnd rest) tokens e := by
  intro rest hrest
  obtain ⟨e', he', hvalue⟩ := h rest hrest.1
  exact ⟨e', he'.factor hrest.2, hvalue⟩

theorem ReadsBack.toAndOn (h : ReadsBack k modules transformM (parseFactor k modules transformM)
    NoRel tokens e) :
    ReadsOn k modules transformM (parseAndExpr k modules transformM) .and min tokens e := by
  intro next y rest hy
  obtain ⟨e', he', hvalue⟩ := h (.and :: next) (by simp [NoRel])
  refine ⟨.and e' y, he'.and hy, fun v => ?_⟩
  rw [Expr.value, hvalue]

theorem ReadsBack.toOr (h : ReadsBack k modules transformM (parseAndExpr k modules transformM)
    (fun rest => NoRel rest ∧ NoAnd rest) tokens e) :
    ReadsBack k modules transformM (parseExpr k modules transformM)
      (fun rest => NoRel rest ∧ NoAnd rest ∧ NoOr rest) tokens e := by
  intro rest hrest
  obtain ⟨e', he', hvalue⟩ := h rest ⟨hrest.1, hrest.2.1⟩
  exact ⟨e', he'.andExpr hrest.2.2, hvalue⟩

theorem ReadsBack.toOrOn (h : ReadsBack k modules transformM (parseAndExpr k modules transformM)
    (fun rest => NoRel rest ∧ NoAnd rest) tokens e) :
    ReadsOn k modules transformM (parseExpr k modules transformM) .or max tokens e := by
  intro next y rest hy
  obtain ⟨e', he', hvalue⟩ := h (.or :: next) (by simp [NoRel, NoAnd])
  refine ⟨.or e' y, he'.or hy, fun v => ?_⟩
  rw [Expr.value, hvalue]

/-- A whole expression in parentheses is a factor. -/
theorem ReadsBack.toFactor (h : ReadsBack k modules transformM (parseExpr k modules transformM)
    (fun rest => NoRel rest ∧ NoAnd rest ∧ NoOr rest) tokens e) :
    ReadsBack k modules transformM (parseFactor k modules transformM) NoRel
      (parenthesize true tokens) e := by
  intro rest _
  obtain ⟨e', he', hvalue⟩ := h (.closeParen :: rest) (by simp [NoRel, NoAnd, NoOr])
  refine ⟨e', ?_, hvalue⟩
  simpa [parenthesize] using he'.paren

/-- Symbols, relations and negations are factors without parentheses. -/
theorem Printed.ofFactor (hand : e.isAnd = false) (hor : e.isOr = false)
    (h : ReadsBack k modules transformM (parseFactor k modules transformM) NoRel (exprTokens e) e) :
    Printed k modules transformM e := by
  have hparenAnd : parenthesize e.isAnd (exprTokens e) = exprTokens e := by rw [hand]; rfl
  have hparenOr : parenthesize e.isOr (exprTokens e) = exprTokens e := by rw [hor]; rfl
  refine ⟨?_, ?_, ?_, ?_, ?_, h.toAnd.toOr⟩
  · rw [hand, Bool.false_or, hparenOr]
    exact h
  · rw [hparenOr]
    exact h.toAnd
  · rw [hparenOr]
    exact h.toAndOn
  · rw [hparenAnd]
    exact h.toAnd.toOr
  · rw [hparenAnd]
    exact h.toAnd.toOrOn

/-- The operand on the left, the operator, and the operand on the right. -/
theorem Printed.and {e₁ e₂ : Expr S C} (h₁ : Printed k modules transformM e₁)
    (h₂ : Printed k modules transformM e₂) : Printed k modules transformM (.and e₁ e₂) := by
  have hback : ReadsBack k modules transformM (parseAndExpr k modules transformM)
      (fun rest => NoRel rest ∧ NoAnd rest) (exprTokens (.and e₁ e₂)) (.and e₁ e₂) := by
    intro rest hrest
    obtain ⟨y, hy, hvalue₂⟩ := h₂.andExpr rest hrest
    obtain ⟨e', he', hvalue₁⟩ := h₁.andOn _ y rest hy
    refine ⟨e', ?_, fun v => by rw [hvalue₁, hvalue₂, Expr.conditionValue]⟩
    simpa only [exprTokens, List.append_assoc, List.cons_append] using he'
  have hon : ReadsOn k modules transformM (parseAndExpr k modules transformM) .and min
      (exprTokens (.and e₁ e₂)) (.and e₁ e₂) := by
    intro next y rest hy
    obtain ⟨y₂, hy₂, hvalue₂⟩ := h₂.andOn next y rest hy
    obtain ⟨e', he', hvalue₁⟩ := h₁.andOn _ y₂ rest hy₂
    refine ⟨e', ?_, fun v => by rw [hvalue₁, hvalue₂, Expr.conditionValue, min_assoc]⟩
    simpa only [exprTokens, List.append_assoc, List.cons_append] using he'
  have hfactor := hback.toOr.toFactor
  exact ⟨hfactor, hback, hon, hfactor.toAnd.toOr, hfactor.toAnd.toOrOn, hback.toOr⟩

theorem Printed.or {e₁ e₂ : Expr S C} (h₁ : Printed k modules transformM e₁)
    (h₂ : Printed k modules transformM e₂) : Printed k modules transformM (.or e₁ e₂) := by
  have hback : ReadsBack k modules transformM (parseExpr k modules transformM)
      (fun rest => NoRel rest ∧ NoAnd rest ∧ NoOr rest) (exprTokens (.or e₁ e₂)) (.or e₁ e₂) := by
    intro rest hrest
    obtain ⟨y, hy, hvalue₂⟩ := h₂.orExpr rest hrest
    obtain ⟨e', he', hvalue₁⟩ := h₁.orOn _ y rest hy
    refine ⟨e', ?_, fun v => by rw [hvalue₁, hvalue₂, Expr.conditionValue]⟩
    simpa only [exprTokens, List.append_assoc, List.cons_append] using he'
  have hon : ReadsOn k modules transformM (parseExpr k modules transformM) .or max
      (exprTokens (.or e₁ e₂)) (.or e₁ e₂) := by
    intro next y rest hy
    obtain ⟨y₂, hy₂, hvalue₂⟩ := h₂.orOn next y rest hy
    obtain ⟨e', he', hvalue₁⟩ := h₁.orOn _ y₂ rest hy₂
    refine ⟨e', ?_, fun v => by rw [hvalue₁, hvalue₂, Expr.conditionValue, max_assoc]⟩
    simpa only [exprTokens, List.append_assoc, List.cons_append] using he'
  have hfactor := hback.toFactor
  exact ⟨hfactor, hfactor.toAnd, hfactor.toAndOn, hback, hon, hback⟩

theorem Printed.not (h : Printed k modules transformM e) :
    Printed k modules transformM (.not e) := by
  -- What is negated is a factor too: an item, or something in parentheses.
  have hfactor : ReadsBack k modules transformM (parseFactor k modules transformM) NoRel
      (parenthesize e.isTuple (exprTokens e)) e := by
    cases e with
    | item i => exact h.factor
    | and e₁ e₂ => exact h.factor
    | or e₁ e₂ => exact h.factor
    | not e => exact h.whole.toFactor
    | rel r v₁ v₂ => exact h.whole.toFactor
  refine .ofFactor rfl rfl fun rest hrest => ?_
  obtain ⟨e', he', hvalue⟩ := hfactor rest hrest
  exact ⟨.not e', he'.not, fun v => by rw [Expr.value, hvalue, Expr.conditionValue]⟩

theorem printed (h : ∀ c, .choice c ∉ exprItems e) : Printed k modules transformM e := by
  induction e with
  | item i =>
    cases i with
    | sym s => exact .ofFactor rfl rfl fun rest hrest => yields_sym hrest
    | choice c => exact absurd List.mem_cons_self (h c)
  | and e₁ e₂ ih₁ ih₂ =>
    exact (ih₁ fun c hc => h c (List.mem_append_left _ hc)).and
      (ih₂ fun c hc => h c (List.mem_append_right _ hc))
  | or e₁ e₂ ih₁ ih₂ =>
    exact (ih₁ fun c hc => h c (List.mem_append_left _ hc)).or
      (ih₂ fun c hc => h c (List.mem_append_right _ hc))
  | not e ih => exact (ih h).not
  | rel r v₁ v₂ =>
    exact .ofFactor rfl rfl fun rest _ => ⟨.rel r v₁ v₂, yields_rel r v₁ v₂, fun v => rfl⟩

/-- **Printing and reading.** The parser reads what `expr_str` prints, up to the first token that
cannot go on an expression, as an expression with the values of the one printed, where each `m` stands
for `m && MODULES` if the place asks for it. -/
theorem parseExpr_exprTokens (h : ∀ c, .choice c ∉ exprItems e) {rest : List (Token S)}
    (hrest : NoRel rest ∧ NoAnd rest ∧ NoOr rest) : ∃ e' : Expr S C,
      Yields (parseExpr k modules transformM) (exprTokens e ++ rest) e' rest ∧
        ∀ v, e'.value v = e.conditionValue k modules transformM v :=
  (printed h).whole rest hrest

end Print

/-- An expression of every kind, over the constants and one symbol. -/
def mixedExpr : Expr (Option Tristate) Empty :=
  .or (.and (.and (.item (.sym none)) (.item (.sym (some .m)))) (.not (.item (.sym none))))
    (.not (.rel .unequal none (some .y)))

theorem parseExpr_exprTokens_mixed : ∃ e' : Expr (Option Tristate) Empty,
    Yields (parseExpr offConstants none true) (exprTokens mixedExpr ++ [.other]) e' [.other] ∧
      ∀ v, e'.value v = mixedExpr.conditionValue offConstants none true v :=
  parseExpr_exprTokens (fun c => c.elim) (by simp [NoRel, NoAnd, NoOr])

end MaixSpeech.Kconfiglib
