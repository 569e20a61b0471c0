import MaixSpeech.Common.Chain
import MaixSpeech.Kconfiglib.Dotconfig

/-!
# Finalizing the menu tree

Reference: `tools/kconfig/Kconfiglib/kconfiglib.py`.

After parsing, `_finalize_node` passes dependencies down to the nodes below, collects the properties
of each symbol and choice from its nodes, makes implicit menus of what depends on the symbol above,
and takes the `if` nodes out. `exists_finalize` says that it ends and what is left: the nodes in their
old order, with the dependencies of all the nodes they were under, and the properties of these nodes.
-/

namespace MaixSpeech.Kconfiglib

open Common Build

variable {S C : Type}

/-! ## Menu nodes -/

/-- A parsed menu node, but for its links; the item of an `if` is `none`. -/
structure Entry (S C : Type) where
  item : Option (MenuItem S C)
  prompt : Option (Text × Expr S C)
  dep : Expr S C
  visibility : Expr S C
  defaults : List (Expr S C × Expr S C)
  ranges : List (S × S × Expr S C)
  selects : List (S × Expr S C)
  implies : List (S × Expr S C)

namespace Entry

variable (x : Entry S C)

/-- `item.__class__ in _SYMBOL_CHOICE`. -/
def isSymbolChoice : Bool :=
  match x.item with
  | some (.sym _) | some (.choice _) => true
  | _ => false

/-- `item.__class__ is Choice`. -/
def isChoice : Bool :=
  match x.item with
  | some (.choice _) => true
  | _ => false

/-- The nodes that `_flatten` lifts the children of. -/
def flattens : Bool := x.prompt.isNone && !x.isChoice

/-- The nodes that `_remove_ifs` leaves. -/
def stays : Bool := x.item.isSome

/-- The dependency that `_propagate_deps` passes on: of a choice it is the choice itself. -/
def basedep : Expr S C :=
  match x.item with
  | some (.choice c) => .item (.choice c)
  | _ => x.dep

end Entry

/-- What the parser makes: `if` nodes have no prompt, symbols and comments no children. -/
def Entry.Parsed (x : Entry S C) (list : Chain (Entry S C)) : Prop :=
  match x.item with
  | none => x.prompt = none
  | some (.sym _) | some .comment => list = .nil
  | _ => True

/-! ## What is collected -/

/-- The properties that a symbol gets from its nodes and from those that select or imply it. -/
structure SymProps (S C : Type) where
  directDep : Expr S C
  defaults : List (Expr S C × Expr S C)
  ranges : List (S × S × Expr S C)
  selects : List (S × Expr S C)
  implies : List (S × Expr S C)
  revDep : Expr S C
  weakRevDep : Expr S C

/-- What the choice nodes set. -/
structure ChoiceProps (S C : Type) where
  directDep : C → Expr S C
  defaults : C → List (Expr S C × Expr S C)
  syms : C → List S
  /-- `Choice.orig_type` -/
  type : C → SymbolType
  symChoice : S → Option C
  /-- `Symbol.orig_type` -/
  symType : S → SymbolType

/-- The symbols and choices while the nodes are finalized. -/
structure Collected (S C : Type) where
  syms : S → SymProps S C
  choices : ChoiceProps S C

section Finalize

variable [DecidableEq S] [DecidableEq C] (k : Constants S)

/-- The symbols and choices after parsing, with the types they have by then. -/
def Collected.start (symType : S → SymbolType) (choiceType : C → SymbolType) : Collected S C where
  syms := fun _ => ⟨.item (.sym k.n), [], [], [], [], .item (.sym k.n), .item (.sym k.n)⟩
  choices :=
    { directDep := fun _ => .item (.sym k.n)
      defaults := fun _ => []
      syms := fun _ => []
      type := choiceType
      symChoice := fun _ => none
      symType := symType }

/-- `target.rev_dep` for a `select` of `sym`. -/
def select (sym : S) (syms : S → SymProps S C) (p : S × Expr S C) : S → SymProps S C :=
  Function.update syms p.1
    { syms p.1 with revDep := makeOr k (syms p.1).revDep (makeAnd k (.item (.sym sym)) p.2) }

/-- `target.weak_rev_dep` for an `imply` of `sym`. -/
def imply (sym : S) (syms : S → SymProps S C) (p : S × Expr S C) : S → SymProps S C :=
  Function.update syms p.1
    { syms p.1 with weakRevDep := makeOr k (syms p.1).weakRevDep (makeAnd k (.item (.sym sym)) p.2) }

/-- `_add_props_to_sym`; other nodes have nothing to add. -/
def addPropsToSym (syms : S → SymProps S C) (node : Entry S C) : S → SymProps S C :=
  match node.item with
  | some (.sym s) =>
    let own : SymProps S C :=
      { syms s with
        directDep := makeOr k (syms s).directDep node.dep
        defaults := (syms s).defaults ++ node.defaults
        ranges := (syms s).ranges ++ node.ranges
        selects := (syms s).selects ++ node.selects
        implies := (syms s).implies ++ node.implies }
    node.implies.foldl (imply k s) (node.selects.foldl (select k s) (Function.update syms s own))
  | _ => syms

/-- The symbols among the children of a choice. -/
def symsOf (level : List (Entry S C)) : List S :=
  level.filterMap fun x =>
    match x.item with
    | some (.sym s) => some s
    | _ => none

/-- The type that a choice takes from its symbols. -/
def typeFrom (symType : S → SymbolType) (syms : List S) : SymbolType :=
  ((syms.map symType).find? (· ≠ .unknown)).getD .unknown

/-- The rest of `_finalize_node` for a choice node with its children, and `_finalize_choice`. -/
def finalizeChoice (choices : ChoiceProps S C) (family : Entry S C × List (Entry S C)) :
    ChoiceProps S C :=
  match family.1.item with
  | some (.choice c) =>
    let syms := choices.syms c ++ symsOf family.2
    let type := if choices.type c = .unknown then typeFrom choices.symType syms else choices.type c
    { directDep := Function.update choices.directDep c (makeOr k (choices.directDep c) family.1.dep)
      defaults := Function.update choices.defaults c (choices.defaults c ++ family.1.defaults)
      syms := Function.update choices.syms c syms
      type := Function.update choices.type c type
      symChoice := fun s => if s ∈ symsOf family.2 then some c else choices.symChoice s
      symType := fun s =>
        if s ∈ syms ∧ choices.symType s = .unknown then type else choices.symType s }
  | _ => choices

/-! ## The pass -/

/-- `_auto_menu_dep`. -/
def autoMenuDep (s : S) (node : Entry S C) : Bool :=
  exprDependsOn k s (match node.prompt with
    | some p => p.2
    | none => node.dep)

/-- `_propagate_deps`, for one of the children. -/
def propagateDeps (basedep visibleIf : Expr S C) (cur : Entry S C) : Entry S C :=
  let dep := makeAnd k cur.dep basedep
  if cur.isSymbolChoice then
    { cur with
      dep := dep
      prompt := cur.prompt.map fun p => (p.1, makeAnd k p.2 (makeAnd k visibleIf dep))
      defaults := cur.defaults.map fun d => (d.1, makeAnd k d.2 dep)
      ranges := cur.ranges.map fun r => (r.1, r.2.1, makeAnd k r.2.2 dep)
      selects := cur.selects.map fun p => (p.1, makeAnd k p.2 dep)
      implies := cur.implies.map fun p => (p.1, makeAnd k p.2 dep) }
  else { cur with dep := dep, prompt := cur.prompt.map fun p => (p.1, makeAnd k p.2 dep) }

/-- The `visible_if` for the children of a node. -/
def visibleIfBelow (visibleIf : Expr S C) (node : Entry S C) : Expr S C :=
  match node.item with
  | some .menu => makeAnd k visibleIf node.visibility
  | _ => visibleIf

/-- `_flatten` and `_remove_ifs`. -/
def finishLevel (list : Chain (Entry S C)) : Chain (Entry S C) :=
  (list.flatten Entry.flattens).filterLevel Entry.stays

mutual

/-- `_finalize_node`, for a node with its children and its next siblings; a symbol takes siblings as
children. The fuel bounds the depth of the calls. -/
def finalizeNode (fuel : ℕ) (visibleIf : Expr S C) (node : Entry S C)
    (list next : Chain (Entry S C)) (st : Collected S C) :
    Option (Chain (Entry S C) × Chain (Entry S C) × Collected S C) :=
  match fuel with
  | 0 => none
  | fuel + 1 =>
    match node.item with
    | some (.sym s) => do
      let st := { st with syms := addPropsToSym k st.syms node }
      let (taken, next, st) ← implicitMenu fuel visibleIf s next st
      let list := match taken with
        | .nil => list
        | taken => taken
      pure (finishLevel list, next, st)
    | _ => do
      let visibleIf := visibleIfBelow k visibleIf node
      let (list, st) ← finalizeList fuel visibleIf
        (list.mapLevel (propagateDeps k node.basedep visibleIf)) st
      let list := finishLevel list
      pure (list, next, { st with choices := finalizeChoice k st.choices (node, list.level) })

/-- The loop that takes what depends on a symbol into its implicit menu: what it took, and what it
left. -/
def implicitMenu (fuel : ℕ) (visibleIf : Expr S C) (s : S) (next : Chain (Entry S C))
    (st : Collected S C) : Option (Chain (Entry S C) × Chain (Entry S C) × Collected S C) :=
  match fuel with
  | 0 => none
  | fuel + 1 =>
    match next with
    | .nil => some (.nil, .nil, st)
    | .cons cur list next =>
      if autoMenuDep k s cur then do
        let (list, next, st) ← finalizeNode fuel visibleIf cur list next st
        let (taken, rest, st) ← implicitMenu fuel visibleIf s next st
        pure (.cons cur list taken, rest, st)
      else some (.nil, .cons cur list next, st)

/-- The loop over the children of a node. -/
def finalizeList (fuel : ℕ) (visibleIf : Expr S C) (list : Chain (Entry S C))
    (st : Collected S C) : Option (Chain (Entry S C) × Collected S C) :=
  match fuel with
  | 0 => none
  | fuel + 1 =>
    match list with
    | .nil => some (.nil, st)
    | .cons cur list next => do
      let (list, next, st) ← finalizeNode fuel visibleIf cur list next st
      let (rest, st) ← finalizeList fuel visibleIf next st
      pure (.cons cur list rest, st)

end

/-! ## What it leaves -/

/-- The nodes of a block in their order, each with what is passed down to it. -/
def spread (basedep visibleIf : Expr S C) : Chain (Entry S C) → List (Entry S C)
  | .nil => []
  | .cons x list next =>
    let y := propagateDeps k basedep visibleIf x
    y :: (spread y.basedep (visibleIfBelow k visibleIf y) list ++ spread basedep visibleIf next)

/-- The same, for siblings that have been passed it already. -/
def visits (visibleIf : Expr S C) : Chain (Entry S C) → List (Entry S C)
  | .nil => []
  | .cons x list next =>
    x :: (spread k x.basedep (visibleIfBelow k visibleIf x) list ++ visits visibleIf next)

/-- The dependencies of a node inside a choice name it, unless `_make_and` made them `n`. -/
def NamesChoice (c : C) (e : Expr S C) : Prop :=
  .item (.choice c) ∈ splitExpr .and e ∨ e = .item (.sym k.n)

/-- A child of a choice. -/
structure Member (c : C) (x : Entry S C) : Prop where
  dep : NamesChoice k c x.dep
  prompt : x.isSymbolChoice = true → ∀ p, x.prompt = some p → NamesChoice k c p.2

/-- Nodes that are lifted behind a parent with `Q` have `Q`. -/
def Inherits (Q : Entry S C → Prop) : Prop :=
  ∀ x, Q x → x.flattens = true → ∀ visibleIf y, Q (propagateDeps k x.basedep visibleIf y)

/-- What finalizing makes of siblings: `part` are the nodes it came to. -/
structure Result (input : Chain (Entry S C)) (part : List (Entry S C)) (c : Chain (Entry S C))
    (st st' : Collected S C) : Prop where
  preorder : c.preorder.filter Entry.stays = part.filter Entry.stays
  below : c.Below Entry.stays
  level : c.level ⊆ input.level
  lifted : ∀ Q, Inherits k Q → (∀ y ∈ input.level, Q y) → c.Liftable Entry.flattens Q
  syms : st'.syms = part.foldl (addPropsToSym k) st.syms
  choices : st'.choices =
    (c.families.filter fun f => f.1.isChoice).foldl (finalizeChoice k) st.choices
  members : ∀ f ∈ c.families, ∀ ch, f.1.item = some (.choice ch) → ∀ y ∈ f.2, Member k ch y

variable {k}

theorem visits_mapLevel (basedep visibleIf : Expr S C) (c : Chain (Entry S C)) :
    visits k visibleIf (c.mapLevel (propagateDeps k basedep visibleIf)) =
      spread k basedep visibleIf c := by
  induction c with
  | nil => rfl
  | cons x list next _ ih => rw [Chain.mapLevel, visits, ih, spread]

@[simp] theorem propagateDeps_item (basedep visibleIf : Expr S C) (x : Entry S C) :
    (propagateDeps k basedep visibleIf x).item = x.item := by
  unfold propagateDeps
  split <;> rfl

theorem Entry.Parsed.propagateDeps {x : Entry S C} {list : Chain (Entry S C)}
    (h : x.Parsed list) (basedep visibleIf : Expr S C) :
    (propagateDeps k basedep visibleIf x).Parsed list := by
  unfold Parsed at h ⊢
  rw [propagateDeps_item]
  split at h
  · next hx => simp [Kconfiglib.propagateDeps, isSymbolChoice, hx, h]
  · exact h
  · exact h
  · trivial

omit [DecidableEq S] [DecidableEq C] in
/-- All that `_remove_ifs` removes has been flattened. -/
theorem flattens_of_parsed {c : Chain (Entry S C)} (h : c.Everywhere Entry.Parsed) :
    ∀ x ∈ c.level, x.stays = false → x.flattens = true := by
  induction c with
  | nil => exact fun x hx => absurd hx List.not_mem_nil
  | cons y list next _ ih =>
    intro x hx hstays
    rcases List.mem_cons.mp hx with rfl | hx
    · have hitem : x.item = none := by simpa [Entry.stays] using hstays
      have hprompt : x.prompt = none := by simpa [Entry.Parsed, hitem] using h.1
      simp [Entry.flattens, Entry.isChoice, hitem, hprompt]
    · exact ih h.2.2 x hx hstays

omit [DecidableEq S] [DecidableEq C] in
theorem isChoice_of_flattens (x : Entry S C) (h : x.flattens = true) : x.isChoice = false := by
  unfold Entry.flattens at h
  simpa using (Bool.and_eq_true_iff.mp h).2

omit [DecidableEq S] [DecidableEq C] in
theorem isChoice_of_not_stays (x : Entry S C) (h : x.stays = false) : x.isChoice = false := by
  have hitem : x.item = none := by simpa [Entry.stays] using h
  simp [Entry.isChoice, hitem]

namespace Result

variable {input c c' : Chain (Entry S C)} {part part' : List (Entry S C)} {st st' st'' : Collected S C}

theorem nil (input : Chain (Entry S C)) (st : Collected S C) : Result k input [] .nil st st :=
  ⟨rfl, trivial, List.nil_subset _, fun _ _ _ => trivial, rfl, rfl,
    fun _ hf => absurd hf List.not_mem_nil⟩

/-- One node, and then its siblings. -/
theorem cons {x : Entry S C} {list next l rest : Chain (Entry S C)}
    (h : Result k (.cons x list next) part (.cons x l .nil) st st')
    (h' : Result k rest part' c' st' st'') (hrest : rest.level ⊆ next.level) :
    Result k (.cons x list next) (part ++ part') (.cons x l c') st st'' := by
  have hpre := h.preorder
  have hchoices := h.choices
  rw [Chain.preorder, Chain.preorder, List.append_nil] at hpre
  rw [Chain.families, Chain.families] at hchoices
  refine ⟨?_, ⟨h.below.1, h'.below⟩, ?_, fun Q hQ hlevel => ?_, ?_, ?_, fun f hf => ?_⟩
  · rw [Chain.preorder, ← List.cons_append, List.filter_append, hpre, h'.preorder,
      ← List.filter_append]
  · exact List.cons_subset_cons x (List.Subset.trans h'.level hrest)
  · have hx := h.lifted Q hQ hlevel
    exact ⟨hx.1, hx.2.1, h'.lifted Q hQ fun y hy => hlevel y (List.mem_cons_of_mem x (hrest hy))⟩
  · rw [h'.syms, h.syms, List.foldl_append]
  · rw [h'.choices, hchoices, Chain.families, ← List.foldl_append, ← List.filter_append,
      List.append_assoc, List.cons_append, List.nil_append]
  · rw [Chain.families] at hf
    rcases List.mem_append.mp hf with hf | hf
    · exact h.members f (List.mem_append_left _ hf)
    · rcases List.mem_cons.mp hf with rfl | hf
      · exact h.members (x, l.level) (List.mem_append_right _ List.mem_cons_self)
      · exact h'.members f hf

/-- The last step for a level. -/
theorem finish (h : Result k input part c st st') (hinput : input.Everywhere Entry.Parsed) :
    (finishLevel c).preorder = part.filter Entry.stays ∧
      (finishLevel c).families.filter (fun f => f.1.isChoice) =
        c.families.filter (fun f => f.1.isChoice) ∧
      ∀ Q, Inherits k Q → (∀ y ∈ input.level, Q y) →
        (finishLevel c).Liftable Entry.flattens Q := by
  have hsifted : (c.flatten Entry.flattens).Sifted Entry.stays :=
    h.below.flattenOnto (fun x hx => flattens_of_parsed hinput x (h.level hx)) trivial
  refine ⟨?_, ?_, fun Q hQ hlevel => ?_⟩
  · rw [finishLevel, hsifted.preorder_filterLevel, Chain.preorder_flatten, h.preorder]
  · rw [finishLevel, hsifted.families_filterLevel isChoice_of_not_stays, Chain.flatten,
      Chain.families_flattenOnto isChoice_of_flattens]
    exact List.append_nil _
  · have hlift : (c.flatten Entry.flattens).Liftable Entry.flattens Q :=
      (h.lifted Q hQ hlevel).flattenOnto trivial
    exact hlift.filterLevel Entry.stays

end Result

/-! ## It ends -/

theorem NamesChoice.makeAnd (hk : k.n ≠ k.y) {c : C} {e₂ : Expr S C} (h : NamesChoice k c e₂)
    (e₁ : Expr S C) : NamesChoice k c (makeAnd k e₁ e₂) := by
  unfold Kconfiglib.makeAnd
  split
  · exact h
  split
  · next hy =>
    rw [hy] at h
    rcases h with h | h
    · simp [splitExpr] at h
    · simp [hk.symm] at h
  split
  · exact Or.inr rfl
  · next hn =>
    left
    rw [splitExpr, if_pos rfl]
    exact List.mem_append_right _ (h.resolve_right fun h => hn (Or.inr h))

/-- What a node passes down names the choice when its own dependencies do. -/
theorem member_propagateDeps (hk : k.n ≠ k.y) {c : C} {basedep : Expr S C}
    (h : NamesChoice k c basedep) (visibleIf : Expr S C) (y : Entry S C) :
    Member k c (propagateDeps k basedep visibleIf y) := by
  have hdep := h.makeAnd hk y.dep
  unfold propagateDeps
  split
  · refine ⟨hdep, fun _ p hp => ?_⟩
    obtain ⟨q, _, rfl⟩ := Option.map_eq_some_iff.mp hp
    exact (hdep.makeAnd hk visibleIf).makeAnd hk q.2
  · next hnot => exact ⟨hdep, fun h => absurd h hnot⟩

theorem inherits_member (hk : k.n ≠ k.y) (c : C) : Inherits k (Member k c) := by
  intro x hx hflat visibleIf y
  have hbase : x.basedep = x.dep := by
    have hnot := isChoice_of_flattens x hflat
    unfold Entry.isChoice at hnot
    unfold Entry.basedep
    split
    · next c' hc =>
      rw [hc] at hnot
      cases hnot
    · rfl
  rw [hbase]
  exact member_propagateDeps hk hx.dep visibleIf y

theorem addPropsToSym_of_ne {x : Entry S C} (hx : ∀ s, x.item ≠ some (.sym s))
    (syms : S → SymProps S C) : addPropsToSym k syms x = syms := by
  unfold addPropsToSym
  split
  · next s hs => exact absurd hs (hx s)
  · rfl

theorem finalizeChoice_of_not {x : Entry S C} (hx : x.isChoice = false)
    (choices : ChoiceProps S C) (level : List (Entry S C)) :
    finalizeChoice k choices (x, level) = choices := by
  unfold finalizeChoice
  split
  · next c hc =>
    have hitem : x.item = some (.choice c) := hc
    simp [Entry.isChoice, hitem] at hx
  · rfl

/-- A node with what has been made of the nodes that come below it. -/
theorem Result.over {x : Entry S C} {list next below l : Chain (Entry S C)}
    {part : List (Entry S C)} {st st₁ st' : Collected S C} (hk : k.n ≠ k.y)
    (hbelow : below.Everywhere Entry.Parsed) (h : Result k below part l st₁ st')
    (hsyms : st₁.syms = addPropsToSym k st.syms x) (hchoices : st₁.choices = st.choices)
    (hinherit : ∀ Q, Inherits k Q → (∀ y ∈ (Chain.cons x list next).level, Q y) →
      x.flattens = true → ∀ y ∈ below.level, Q y)
    (hmember : ∀ c, x.item = some (.choice c) → ∀ y ∈ below.level, Member k c y) :
    Result k (.cons x list next) (x :: part) (.cons x (finishLevel l) .nil) st
      { st' with choices := finalizeChoice k st'.choices (x, (finishLevel l).level) } := by
  obtain ⟨hpre, hfam, hlift⟩ := h.finish hbelow
  refine ⟨?_, ⟨?_, trivial⟩, ?_, fun Q hQ hlevel => ⟨hlevel x List.mem_cons_self,
    fun hflat => hlift Q hQ (hinherit Q hQ hlevel hflat), trivial⟩, ?_, ?_, ?_⟩
  · rw [Chain.preorder, Chain.preorder, List.append_nil, hpre, List.filter_cons, List.filter_cons,
      List.filter_filter]
    simp
  · intro y hy
    rw [hpre] at hy
    exact (List.mem_filter.mp hy).2
  · exact List.cons_subset_cons x (List.nil_subset _)
  · rw [List.foldl_cons, ← hsyms]
    exact h.syms
  · rw [Chain.families, Chain.families, List.filter_append, hfam, List.foldl_append, ← hchoices,
      ← h.choices, List.filter_cons]
    split
    · rfl
    · next hnot => exact finalizeChoice_of_not (Bool.eq_false_iff.mpr hnot) _ _
  · intro f hf c hc y hy
    rw [Chain.families] at hf
    rcases List.mem_append.mp hf with hf | hf
    · have hf' : f ∈ (finishLevel l).families.filter fun f => f.1.isChoice :=
        List.mem_filter.mpr ⟨hf, by simp [Entry.isChoice, hc]⟩
      rw [hfam] at hf'
      exact h.members f (List.mem_filter.mp hf').1 c hc y hy
    · rw [List.mem_singleton.mp hf] at hc hy
      exact (hlift (Member k c) (inherits_member hk c) (hmember c hc)).level y hy

section Ends

variable (k C)

/-- What finalizing a node does to it and its siblings. -/
def FinalizesNode (fuel : ℕ) : Prop :=
  ∀ visibleIf (x : Entry S C) list next st, 2 * (list.size + next.size + 1) ≤ fuel →
    (Chain.cons x list next).Everywhere Entry.Parsed →
    ∃ l rest st' part, finalizeNode k fuel visibleIf x list next st = some (l, rest, st') ∧
      rest.IsRest next ∧ visits k visibleIf (.cons x list next) = part ++ visits k visibleIf rest ∧
      Result k (.cons x list next) part (.cons x l .nil) st st'

/-- What the loop for implicit menus takes, and what it leaves. -/
def FinalizesMenu (fuel : ℕ) : Prop :=
  ∀ visibleIf s (next : Chain (Entry S C)) st, 2 * next.size + 1 ≤ fuel →
    next.Everywhere Entry.Parsed →
    ∃ taken rest st' part, implicitMenu k fuel visibleIf s next st = some (taken, rest, st') ∧
      rest.IsRest next ∧ visits k visibleIf next = part ++ visits k visibleIf rest ∧
      Result k next part taken st st'

/-- What the loop over children does. -/
def FinalizesList (fuel : ℕ) : Prop :=
  ∀ visibleIf (list : Chain (Entry S C)) st, 2 * list.size + 1 ≤ fuel →
    list.Everywhere Entry.Parsed →
    ∃ c st', finalizeList k fuel visibleIf list st = some (c, st') ∧
      Result k list (visits k visibleIf list) c st st'

variable {k C} {fuel : ℕ}

theorem finalizesNode_succ (hk : k.n ≠ k.y) (hmenu : FinalizesMenu C k fuel)
    (hlist : FinalizesList C k fuel) : FinalizesNode C k (fuel + 1) := by
  intro visibleIf x list next st hfuel hparsed
  obtain ⟨hx, hkids, hnext⟩ := hparsed
  by_cases hsym : ∃ s, x.item = some (.sym s)
  · obtain ⟨s, hs⟩ := hsym
    have hnil : list = .nil := by simpa [Entry.Parsed, hs] using hx
    subst hnil
    obtain ⟨taken, rest, st', part, hrun, hrest, hvisits, hresult⟩ :=
      hmenu visibleIf s next { st with syms := addPropsToSym k st.syms x } (by omega) hnext
    have hchoice : x.isChoice = false := by simp [Entry.isChoice, hs]
    have hover : Result k (.cons x .nil next) (x :: part) (.cons x (finishLevel taken) .nil) st
        { st' with choices := finalizeChoice k st'.choices (x, (finishLevel taken).level) } :=
      hresult.over hk hnext rfl rfl
        (fun Q _ hlevel _ y hy => hlevel y (List.mem_cons_of_mem x hy))
        fun c hc => by rw [hs] at hc; cases hc
    rw [finalizeChoice_of_not hchoice] at hover
    refine ⟨finishLevel taken, rest, st', x :: part, ?_, hrest, ?_, hover⟩
    · simp only [finalizeNode, hs, hrun]
      cases taken <;> rfl
    · rw [visits, hvisits]
      rfl
  · have hne : ∀ s, x.item ≠ some (.sym s) := fun s hs => hsym ⟨s, hs⟩
    have hmapped : ∀ basedep visibleIf,
        (list.mapLevel (propagateDeps k basedep visibleIf)).Everywhere Entry.Parsed := fun _ _ =>
      Chain.everywhere_mapLevel (fun _ _ hy => hy.propagateDeps _ _) hkids
    have hsize := Chain.size_mapLevel
      (propagateDeps k x.basedep (visibleIfBelow k visibleIf x)) list
    obtain ⟨l, st', hrun, hresult⟩ := hlist (visibleIfBelow k visibleIf x)
      (list.mapLevel (propagateDeps k x.basedep (visibleIfBelow k visibleIf x))) st (by omega)
      (hmapped _ _)
    rw [visits_mapLevel] at hresult
    refine ⟨finishLevel l, next, _, _, ?_, .refl, rfl, hresult.over hk (hmapped _ _)
      (addPropsToSym_of_ne hne _).symm rfl (fun Q hQ hlevel hflat y hy => ?_) fun c hc y hy => ?_⟩
    · rw [finalizeNode]
      split
      · next s hs => exact absurd hs (hne s)
      · simp only [hrun]
        rfl
    · rw [Chain.level_mapLevel] at hy
      obtain ⟨z, _, rfl⟩ := List.mem_map.mp hy
      exact hQ x (hlevel x List.mem_cons_self) hflat _ z
    · rw [Chain.level_mapLevel] at hy
      obtain ⟨z, _, rfl⟩ := List.mem_map.mp hy
      refine member_propagateDeps hk ?_ _ z
      simp [Entry.basedep, hc, NamesChoice, splitExpr]

theorem finalizesMenu_succ (hnode : FinalizesNode C k fuel) (hmenu : FinalizesMenu C k fuel) :
    FinalizesMenu C k (fuel + 1) := by
  intro visibleIf s next st hfuel hparsed
  cases next with
  | nil => exact ⟨.nil, .nil, st, [], rfl, .refl, rfl, .nil _ st⟩
  | cons cur list next =>
    rw [Chain.size] at hfuel
    rw [implicitMenu]
    split
    · obtain ⟨l, rest, st₁, part, hrun, hrest, hvisits, hresult⟩ :=
        hnode visibleIf cur list next st (by omega) hparsed
      have hle := hrest.size_le
      obtain ⟨taken, rest', st₂, part', hrun', hrest', hvisits', hresult'⟩ :=
        hmenu visibleIf s rest st₁ (by omega) (hrest.everywhere hparsed.2.2)
      refine ⟨.cons cur l taken, rest', st₂, part ++ part', ?_, .next (hrest'.trans hrest), ?_,
        hresult.cons hresult' hrest.level_subset⟩
      · rw [hrun]
        simp only [Option.bind_eq_bind, Option.bind_some, hrun']
        rfl
      · rw [hvisits, hvisits', List.append_assoc]
    · exact ⟨.nil, .cons cur list next, st, [], rfl, .refl, rfl, .nil _ st⟩

theorem finalizesList_succ (hnode : FinalizesNode C k fuel) (hlist : FinalizesList C k fuel) :
    FinalizesList C k (fuel + 1) := by
  intro visibleIf list st hfuel hparsed
  cases list with
  | nil => exact ⟨.nil, st, rfl, .nil _ st⟩
  | cons cur list next =>
    rw [Chain.size] at hfuel
    obtain ⟨l, rest, st₁, part, hrun, hrest, hvisits, hresult⟩ :=
      hnode visibleIf cur list next st (by omega) hparsed
    have hle := hrest.size_le
    obtain ⟨c, st₂, hrun', hresult'⟩ :=
      hlist visibleIf rest st₁ (by omega) (hrest.everywhere hparsed.2.2)
    refine ⟨.cons cur l c, st₂, ?_, ?_⟩
    · rw [finalizeList, hrun]
      simp only [Option.bind_eq_bind, Option.bind_some, hrun']
      rfl
    · rw [hvisits]
      exact hresult.cons hresult' hrest.level_subset

/-- All the loops end when there is fuel for the nodes they come to. -/
theorem finalizes (hk : k.n ≠ k.y) (fuel : ℕ) :
    FinalizesNode C k fuel ∧ FinalizesMenu C k fuel ∧ FinalizesList C k fuel := by
  induction fuel with
  | zero =>
    refine ⟨fun _ _ _ _ _ h => ?_, fun _ _ _ _ h => ?_, fun _ _ _ h => ?_⟩ <;> omega
  | succ fuel ih =>
    obtain ⟨hnode, hmenu, hlist⟩ := ih
    exact ⟨finalizesNode_succ hk hmenu hlist, finalizesMenu_succ hnode hmenu,
      finalizesList_succ hnode hlist⟩

end Ends

/-! ## The whole tree -/

variable (k)

/-- `_finalize_node(self.top_node, self.y)`: what is below the top node, and what was collected. -/
def finalize (top : Entry S C) (list : Chain (Entry S C)) (st : Collected S C) :
    Option (Chain (Entry S C) × Collected S C) :=
  (finalizeNode k (2 * (list.size + 1)) (.item (.sym k.y)) top list .nil st).map fun r =>
    (r.1, r.2.2)

/-- The nodes below the top node, with what is passed down to them. -/
def spreadTree (top : Entry S C) (list : Chain (Entry S C)) : List (Entry S C) :=
  spread k top.basedep (visibleIfBelow k (.item (.sym k.y)) top) list

/-- A finalized menu: the nodes in their old order without the `if` nodes, the properties of the
symbols and choices in the order of their nodes, and the children of a choice. -/
structure Finalized (top : Entry S C) (list : Chain (Entry S C)) (st : Collected S C)
    (menu : Chain (Entry S C)) (st' : Collected S C) : Prop where
  preorder : menu.preorder = (spreadTree k top list).filter Entry.stays
  syms : st'.syms = menu.preorder.foldl (addPropsToSym k) st.syms
  choices : st'.choices = menu.families.foldl (finalizeChoice k) st.choices
  members : ∀ f ∈ menu.families, ∀ c, f.1.item = some (.choice c) → ∀ y ∈ f.2, Member k c y

variable {k}

theorem foldl_addPropsToSym_filter (l : List (Entry S C)) (syms : S → SymProps S C) :
    (l.filter Entry.stays).foldl (addPropsToSym k) syms = l.foldl (addPropsToSym k) syms := by
  rw [List.foldl_filter]
  congr 1
  funext syms x
  split
  · rfl
  · next hx =>
    have hitem : x.item = none := by simpa [Entry.stays] using hx
    exact (addPropsToSym_of_ne (fun s hs => by rw [hitem] at hs; cases hs) syms).symm

theorem foldl_finalizeChoice_filter (l : List (Entry S C × List (Entry S C)))
    (choices : ChoiceProps S C) :
    (l.filter fun f => f.1.isChoice).foldl (finalizeChoice k) choices =
      l.foldl (finalizeChoice k) choices := by
  rw [List.foldl_filter]
  congr 1
  funext choices f
  split
  · rfl
  · next hf => exact (finalizeChoice_of_not (Bool.eq_false_iff.mpr hf) choices f.2).symm

/-- The pass ends, with a finalized menu. -/
theorem exists_finalize (hk : k.n ≠ k.y) {top : Entry S C} (htop : top.item = some .menu)
    {list : Chain (Entry S C)} (hparsed : list.Everywhere Entry.Parsed) (st : Collected S C) :
    ∃ menu st', finalize k top list st = some (menu, st') ∧ Finalized k top list st menu st' := by
  have hparsed' : (Chain.cons top list .nil).Everywhere Entry.Parsed :=
    ⟨by rw [Entry.Parsed, htop]; trivial, hparsed, trivial⟩
  obtain ⟨menu, rest, st', part, hrun, hrest, hvisits, hresult⟩ := (finalizes hk _).1
    (.item (.sym k.y)) top list .nil st (le_refl (2 * (list.size + 0 + 1))) hparsed'
  cases hrest
  have hpart : part = top :: spreadTree k top list := by
    simp only [visits, List.append_nil] at hvisits
    exact hvisits.symm
  subst hpart
  have hstays : top.stays = true := by rw [Entry.stays, htop]; rfl
  have hpre : menu.preorder = (spreadTree k top list).filter Entry.stays := by
    have hall := hresult.preorder
    rw [Chain.preorder, Chain.preorder, List.append_nil, List.filter_cons_of_pos hstays,
      List.filter_cons_of_pos hstays, List.filter_eq_self.mpr hresult.below.1] at hall
    exact (List.cons.inj hall).2
  refine ⟨menu, st', ?_, hpre, ?_, ?_, fun f hf => ?_⟩
  · rw [finalize]
    simp only [Nat.add_zero] at hrun
    rw [hrun]
    rfl
  · rw [hpre, foldl_addPropsToSym_filter, hresult.syms, List.foldl_cons, addPropsToSym_of_ne]
    exact fun s hs => by rw [htop] at hs; cases hs
  · have hchoice : top.isChoice = false := by simp [Entry.isChoice, htop]
    rw [hresult.choices, foldl_finalizeChoice_filter, Chain.families, Chain.families,
      List.foldl_append]
    exact finalizeChoice_of_not hchoice _ _
  · exact hresult.members f (List.mem_append_left _ hf)

end Finalize

end MaixSpeech.Kconfiglib
