import MaixSpeech.Kconfiglib.Finalize
import MaixSpeech.Kconfiglib.Values

/-!
# What the collected properties mean

Reference: `tools/kconfig/Kconfiglib/kconfiglib.py`.

A node in the source counts as far as its own dependencies and those of the nodes around it allow;
inside a choice it is the mode of the choice that counts. `Finalized.means` reads the properties that
finalizing collects in these terms: it neither loses a condition of the source nor adds one.
-/

namespace MaixSpeech.Kconfiglib

open Common Build

variable {S C : Type}

/-! ## The strongest value -/

/-- The strongest of some values. -/
def strongest (l : List Tristate) : Tristate := l.foldr max .n

@[simp] theorem strongest_nil : strongest [] = .n := rfl

@[simp] theorem strongest_cons (x : Tristate) (l : List Tristate) :
    strongest (x :: l) = max x (strongest l) := rfl

theorem strongest_append (l l' : List Tristate) :
    strongest (l ++ l') = max (strongest l) (strongest l') := by
  induction l with
  | nil => exact (max_eq_right (Tristate.n_le _)).symm
  | cons x l ih => rw [List.cons_append, strongest_cons, strongest_cons, ih, max_assoc]

theorem promptsIn_eq (v : Valuation S C) (conds : List (Expr S C)) (vis : Tristate) :
    promptsIn v conds vis = max vis (strongest (conds.map fun e => e.value v)) := by
  induction conds generalizing vis with
  | nil => exact (max_eq_left (Tristate.n_le _)).symm
  | cons e conds ih => rw [promptsIn, List.foldl_cons, List.map_cons, strongest_cons, ← max_assoc,
      ← ih, promptsIn]

/-! ## Nodes in their place -/

section Place

variable (v : Valuation S C)

/-- What the nodes around pass down: their dependencies, up to a choice, which stands for its own. -/
def passedDown : List (Entry S C) → Tristate
  | [] => .y
  | parent :: up =>
    match parent.item with
    | some (.choice c) => v.triValue (.choice c)
    | _ => min (parent.dep.value v) (passedDown up)

/-- The `visible if` of the menus around. -/
def visibleUnder : List (Entry S C) → Tristate
  | [] => .y
  | parent :: up =>
    match parent.item with
    | some .menu => min (visibleUnder up) (parent.visibility.value v)
    | _ => visibleUnder up

/-- How far the dependencies of a node and of the nodes around it allow it. -/
def allowed (o : Entry S C × List (Entry S C)) : Tristate :=
  min (o.1.dep.value v) (passedDown v o.2)

/-- `y` has the conditions of `x` under `limit` and `vis`. -/
structure Limits (x : Entry S C) (limit vis : Tristate) (y : Entry S C) : Prop where
  item : y.item = x.item
  visibility : y.visibility = x.visibility
  dep : y.dep.value v = limit
  prompt : x.isSymbolChoice = true → y.prompt.map (fun p => p.2.value v) =
    x.prompt.map fun p => min (p.2.value v) (min vis limit)
  defaults : x.isSymbolChoice = true → y.defaults.map (fun d => (d.1, d.2.value v)) =
    x.defaults.map fun d => (d.1, min (d.2.value v) limit)
  ranges : x.isSymbolChoice = true → y.ranges.map (fun r => (r.1, r.2.1, r.2.2.value v)) =
    x.ranges.map fun r => (r.1, r.2.1, min (r.2.2.value v) limit)
  selects : x.isSymbolChoice = true → y.selects.map (fun p => (p.1, p.2.value v)) =
    x.selects.map fun p => (p.1, min (p.2.value v) limit)
  implies : x.isSymbolChoice = true → y.implies.map (fun p => (p.1, p.2.value v)) =
    x.implies.map fun p => (p.1, min (p.2.value v) limit)

end Place

section Spread

variable [DecidableEq S] [DecidableEq C] {k : Constants S} {v : Valuation S C}

theorem limits_propagateDeps (h : k.Holds v) (basedep visibleIf : Expr S C) (x : Entry S C) :
    Limits v x (min (x.dep.value v) (basedep.value v)) (visibleIf.value v)
      (propagateDeps k basedep visibleIf x) := by
  have hdep := value_makeAnd h x.dep basedep
  unfold propagateDeps
  split
  · refine ⟨rfl, rfl, hdep, fun _ => ?_, fun _ => ?_, fun _ => ?_, fun _ => ?_, fun _ => ?_⟩
    · cases x.prompt with
      | none => rfl
      | some p =>
        simp only [Option.map_some, value_makeAnd h]
    all_goals simp [value_makeAnd h]
  · next hnot =>
    exact ⟨rfl, rfl, hdep, fun hx => absurd hx hnot, fun hx => absurd hx hnot,
      fun hx => absurd hx hnot, fun hx => absurd hx hnot, fun hx => absurd hx hnot⟩

/-- **Passing down.** Each node gets the conditions of its place. -/
theorem limits_spread (h : k.Holds v) (c : Chain (Entry S C)) (up : List (Entry S C))
    {basedep visibleIf : Expr S C} (hbase : basedep.value v = passedDown v up)
    (hvis : visibleIf.value v = visibleUnder v up) :
    List.Forall₂ (fun o y => Limits v o.1 (allowed v o) (visibleUnder v o.2) y)
      (c.withParents up) (spread k basedep visibleIf c) := by
  induction c generalizing up basedep visibleIf with
  | nil => exact .nil
  | cons x list next ih₁ ih₂ =>
    have hx := limits_propagateDeps h basedep visibleIf x
    rw [hbase, hvis] at hx
    refine .cons hx (List.rel_append (ih₁ _ ?_ ?_) (ih₂ _ hbase hvis))
    · rcases hitem : x.item with _ | _ | _ | _ | _ <;>
        simp only [Entry.basedep, passedDown, hx.item, hitem, hx.dep, Expr.value]
    · rcases hitem : x.item with _ | _ | _ | _ | _ <;>
        simp only [visibleIfBelow, visibleUnder, hx.item, hitem, hx.visibility, value_makeAnd h, hvis]

end Spread

/-! ## Adding up -/

/-- The symbol or choice of a node. -/
def Entry.owner (x : Entry S C) : Option (Item S C) :=
  match x.item with
  | some (.sym s) => some (.sym s)
  | some (.choice c) => some (.choice c)
  | _ => none

theorem Entry.owner_eq_sym {x : Entry S C} {s : S} :
    x.owner = some (.sym s) ↔ x.item = some (.sym s) := by
  rcases hitem : x.item with _ | _ | _ | _ | _ <;> simp [Entry.owner, hitem]

section Sums

variable [DecidableEq S] [DecidableEq C] {k : Constants S} {v : Valuation S C}

/-- The nodes of a symbol or choice. -/
def nodesOf (i : Item S C) (l : List (Entry S C)) : List (Entry S C) :=
  l.filter fun x => x.owner = some i

variable (v) in
/-- How strongly a node wants `s`, by what it selects or implies. -/
def wanted (s : S) (x : Entry S C) (l : List (S × Expr S C)) : List Tristate :=
  match x.item with
  | some (.sym t) =>
    (l.filter fun p => p.1 = s).map fun p => min (v.triValue (.sym t)) (p.2.value v)
  | _ => []

variable (v) in
/-- The properties `p'` are `p` and those that the nodes `l` add for `s`. -/
structure Adds (s : S) (l : List (Entry S C)) (p p' : SymProps S C) : Prop where
  directDep : p'.directDep.value v =
    max (p.directDep.value v) (strongest ((nodesOf (.sym s) l).map fun x => x.dep.value v))
  defaults : p'.defaults = p.defaults ++ (nodesOf (.sym s) l).flatMap Entry.defaults
  ranges : p'.ranges = p.ranges ++ (nodesOf (.sym s) l).flatMap Entry.ranges
  revDep : p'.revDep.value v =
    max (p.revDep.value v) (strongest (l.flatMap fun x => wanted v s x x.selects))
  weakRevDep : p'.weakRevDep.value v =
    max (p.weakRevDep.value v) (strongest (l.flatMap fun x => wanted v s x x.implies))

theorem Adds.refl (s : S) (p : SymProps S C) : Adds v s [] p p := by
  constructor <;> simp [nodesOf, max_eq_left (Tristate.n_le _)]

theorem Adds.trans {s : S} {l l' : List (Entry S C)} {p p' p'' : SymProps S C}
    (h : Adds v s l p p') (h' : Adds v s l' p' p'') : Adds v s (l ++ l') p p'' := by
  have happend : nodesOf (.sym s) (l ++ l') = nodesOf (.sym s) l ++ nodesOf (.sym s) l' :=
    List.filter_append _ _
  constructor
  · rw [h'.directDep, h.directDep, happend, List.map_append, strongest_append, max_assoc]
  · rw [h'.defaults, h.defaults, happend, List.flatMap_append, List.append_assoc]
  · rw [h'.ranges, h.ranges, happend, List.flatMap_append, List.append_assoc]
  · rw [h'.revDep, h.revDep, List.flatMap_append, strongest_append, max_assoc]
  · rw [h'.weakRevDep, h.weakRevDep, List.flatMap_append, strongest_append, max_assoc]

/-- Selects and implies alike: a loop that strengthens one property of the symbols it names. -/
theorem foldl_strengthen (get : SymProps S C → Expr S C)
    (set : SymProps S C → Expr S C → SymProps S C) (hget : ∀ p e, get (set p e) = e)
    (hset : ∀ p e e', set (set p e) e' = set p e') (hself : ∀ p, set p (get p) = p) (t s : S)
    (l : List (S × Expr S C)) (syms : S → SymProps S C) :
    ∃ e, l.foldl (fun syms p => Function.update syms p.1
        (set (syms p.1) (makeOr k (get (syms p.1)) (makeAnd k (.item (.sym t)) p.2)))) syms s =
          set (syms s) e ∧
      ∀ v, k.Holds v → e.value v = max ((get (syms s)).value v)
        (strongest ((l.filter fun p => p.1 = s).map
          fun p => min (v.triValue (.sym t)) (p.2.value v))) := by
  induction l generalizing syms with
  | nil => exact ⟨get (syms s), (hself _).symm, fun v _ => (max_eq_left (Tristate.n_le _)).symm⟩
  | cons q l ih =>
    obtain ⟨e, he, hvalue⟩ := ih (Function.update syms q.1
      (set (syms q.1) (makeOr k (get (syms q.1)) (makeAnd k (.item (.sym t)) q.2))))
    rw [List.foldl_cons, he]
    by_cases hq : q.1 = s
    · subst hq
      rw [Function.update_self] at hvalue ⊢
      refine ⟨e, hset _ _ _, fun v h => ?_⟩
      rw [hvalue v h, hget, value_makeOr h, value_makeAnd h, List.filter_cons_of_pos (by simp),
        List.map_cons, strongest_cons, max_assoc]
      rfl
    · rw [Function.update_of_ne (Ne.symm hq)] at hvalue ⊢
      refine ⟨e, rfl, fun v h => ?_⟩
      rw [hvalue v h, List.filter_cons_of_neg (by simpa using hq)]

/-- The properties of a symbol with those of one of its nodes, without what others select or imply. -/
def ownProps (k : Constants S) (p : SymProps S C) (x : Entry S C) : SymProps S C :=
  { p with
    directDep := makeOr k p.directDep x.dep
    defaults := p.defaults ++ x.defaults
    ranges := p.ranges ++ x.ranges
    selects := p.selects ++ x.selects
    implies := p.implies ++ x.implies }

/-- A node of `t` adds its properties to `t`, and strengthens what it selects and implies. -/
theorem exists_addPropsToSym (h : k.Holds v) {x : Entry S C} {t : S} (ht : x.item = some (.sym t))
    (syms : S → SymProps S C) (s : S) : ∃ rev weak, addPropsToSym k syms x s =
        { Function.update syms t (ownProps k (syms t) x) s with revDep := rev, weakRevDep := weak } ∧
      rev.value v = max ((syms s).revDep.value v) (strongest (wanted v s x x.selects)) ∧
      weak.value v = max ((syms s).weakRevDep.value v) (strongest (wanted v s x x.implies)) := by
  have hadd : addPropsToSym k syms x = x.implies.foldl (imply k t) (x.selects.foldl (select k t)
      (Function.update syms t (ownProps k (syms t) x))) := by
    unfold addPropsToSym
    rw [ht]
    rfl
  have hsame : (Function.update syms t (ownProps k (syms t) x) s).revDep = (syms s).revDep ∧
      (Function.update syms t (ownProps k (syms t) x) s).weakRevDep = (syms s).weakRevDep := by
    by_cases hst : s = t
    · rw [hst, Function.update_self]
      exact ⟨rfl, rfl⟩
    · rw [Function.update_of_ne hst]
      exact ⟨rfl, rfl⟩
  revert hadd hsame
  generalize Function.update syms t (ownProps k (syms t) x) = own
  intro hadd hsame
  obtain ⟨rev, hrev, hrevValue⟩ : ∃ e, x.selects.foldl (select k t) own s =
      { own s with revDep := e } ∧ _ :=
    foldl_strengthen SymProps.revDep (fun p e => { p with revDep := e })
      (fun _ _ => rfl) (fun _ _ _ => rfl) (fun _ => rfl) t s x.selects own
  obtain ⟨weak, hweak, hweakValue⟩ : ∃ e,
      x.implies.foldl (imply k t) (x.selects.foldl (select k t) own) s =
        { x.selects.foldl (select k t) own s with weakRevDep := e } ∧ _ :=
    foldl_strengthen SymProps.weakRevDep (fun p e => { p with weakRevDep := e })
      (fun _ _ => rfl) (fun _ _ _ => rfl) (fun _ => rfl) t s x.implies _
  have hrevValue := hrevValue v h
  have hweakValue := hweakValue v h
  rw [hsame.1] at hrevValue
  rw [hrev] at hweakValue
  simp only [hsame.2] at hweakValue
  refine ⟨rev, weak, by rw [hadd, hweak, hrev], ?_, ?_⟩
  · rw [hrevValue, wanted, ht]
  · rw [hweakValue, wanted, ht]

theorem adds_of_ne {x : Entry S C} (hne : ∀ t, x.item ≠ some (.sym t)) (s : S)
    (p : SymProps S C) : Adds v s [x] p p := by
  have hnodes : nodesOf (.sym s) [x] = [] :=
    List.filter_cons_of_neg (by simp [Entry.owner_eq_sym, hne])
  have hwanted : ∀ l, wanted v s x l = [] := by
    intro l
    unfold wanted
    split
    · next t ht => exact absurd ht (hne t)
    · rfl
  constructor <;> simp [hnodes, hwanted, max_eq_left (Tristate.n_le _)]

theorem adds_addPropsToSym (h : k.Holds v) (syms : S → SymProps S C) (x : Entry S C) (s : S) :
    Adds v s [x] (syms s) (addPropsToSym k syms x s) := by
  by_cases hsym : ∃ t, x.item = some (.sym t)
  · obtain ⟨t, ht⟩ := hsym
    have howner : x.owner = some (.sym t) := Entry.owner_eq_sym.mpr ht
    obtain ⟨rev, weak, hadd, hrev, hweak⟩ := exists_addPropsToSym h ht syms s
    rw [hadd]
    by_cases hst : s = t
    · subst hst
      have hnodes : nodesOf (.sym s) [x] = [x] := List.filter_cons_of_pos (by simp [howner])
      rw [Function.update_self]
      constructor
      · simp [hnodes, ownProps, value_makeOr h, max_eq_left (Tristate.n_le _)]
      · simp [hnodes, ownProps]
      · simp [hnodes, ownProps]
      · simp [hrev]
      · simp [hweak]
    · have hnodes : nodesOf (.sym s) [x] = [] :=
        List.filter_cons_of_neg (by simp [howner, Ne.symm hst])
      rw [Function.update_of_ne hst]
      constructor
      · simp [hnodes, max_eq_left (Tristate.n_le _)]
      · simp [hnodes]
      · simp [hnodes]
      · simp [hrev]
      · simp [hweak]
  · have hne : ∀ t, x.item ≠ some (.sym t) := fun t ht => hsym ⟨t, ht⟩
    rw [addPropsToSym_of_ne hne]
    exact adds_of_ne hne s (syms s)

theorem adds_foldl (h : k.Holds v) (l : List (Entry S C)) (syms : S → SymProps S C) (s : S) :
    Adds v s l (syms s) (l.foldl (addPropsToSym k) syms s) := by
  induction l generalizing syms with
  | nil => exact .refl s _
  | cons x l ih => exact (adds_addPropsToSym h syms x s).trans (ih _)

end Sums

/-! ## The source -/

section Means

variable [DecidableEq S] [DecidableEq C] {k : Constants S} (v : Valuation S C)
  (top : Entry S C) (list : Chain (Entry S C))

/-- The nodes of the source below the top node, in their places. -/
def places : List (Entry S C × List (Entry S C)) := list.withParents [top]

/-- The places where a symbol or choice is defined. -/
def placesOf (i : Item S C) : List (Entry S C × List (Entry S C)) :=
  (places top list).filter fun o => o.1.owner = some i

/-- How far a node is shown: its prompt, as far as its place allows. -/
def shown (o : Entry S C × List (Entry S C)) : Option Tristate :=
  o.1.prompt.map fun p => min (p.2.value v) (min (visibleUnder v o.2) (allowed v o))

/-- How strongly a node wants `s`, as far as its place allows. -/
def wanting (s : S) (o : Entry S C × List (Entry S C)) (l : List (S × Expr S C)) : List Tristate :=
  match o.1.item with
  | some (.sym t) =>
    (l.filter fun p => p.1 = s).map fun p =>
      min (v.triValue (.sym t)) (min (p.2.value v) (allowed v o))
  | _ => []

/-- The conditions of the prompts of a symbol or choice in a finalized menu. -/
def promptsOf (i : Item S C) (menu : Chain (Entry S C)) : List (Expr S C) :=
  (nodesOf i menu.preorder).filterMap fun x => x.prompt.map (·.2)

/-- The properties of a finalized menu and its symbols are those of the source, each as far as its
place allows. -/
structure Means (menu : Chain (Entry S C)) (st : Collected S C) : Prop where
  prompts : ∀ i, promptsIn v (promptsOf i menu) .n =
    strongest ((placesOf top list i).filterMap (shown v))
  directDep : ∀ s, (st.syms s).directDep.value v =
    strongest ((placesOf top list (.sym s)).map (allowed v))
  defaults : ∀ s, (st.syms s).defaults.map (fun d => (d.1, d.2.value v)) =
    (placesOf top list (.sym s)).flatMap fun o =>
      o.1.defaults.map fun d => (d.1, min (d.2.value v) (allowed v o))
  ranges : ∀ s, (st.syms s).ranges.map (fun r => (r.1, r.2.1, r.2.2.value v)) =
    (placesOf top list (.sym s)).flatMap fun o =>
      o.1.ranges.map fun r => (r.1, r.2.1, min (r.2.2.value v) (allowed v o))
  revDep : ∀ s, (st.syms s).revDep.value v =
    strongest ((places top list).flatMap fun o => wanting v s o o.1.selects)
  weakRevDep : ∀ s, (st.syms s).weakRevDep.value v =
    strongest ((places top list).flatMap fun o => wanting v s o o.1.implies)

variable {v top list}

theorem map_eq_map_of_forall₂ {α β γ : Type*} {R : α → β → Prop} {f : α → γ} {g : β → γ}
    {l : List α} {l' : List β} (h : List.Forall₂ R l l') (hfg : ∀ a b, R a b → g b = f a) :
    l'.map g = l.map f := by
  induction h with
  | nil => rfl
  | cons hab _ ih => rw [List.map_cons, List.map_cons, hfg _ _ hab, ih]

theorem forall₂_filter {α β : Type*} {R : α → β → Prop} {p : α → Bool} {q : β → Bool} {l : List α}
    {l' : List β} (h : List.Forall₂ R l l') (hpq : ∀ a b, R a b → q b = p a) :
    List.Forall₂ (fun a b => R a b ∧ p a = true) (l.filter p) (l'.filter q) := by
  induction h with
  | nil => exact .nil
  | cons hab _ ih =>
    rw [List.filter_cons, List.filter_cons, hpq _ _ hab]
    split
    exacts [.cons ⟨hab, ‹_›⟩ ih, ih]

/-- A node of the source and what finalizing makes of it. -/
def Placed (v : Valuation S C) (o : Entry S C × List (Entry S C)) (y : Entry S C) : Prop :=
  Limits v o.1 (allowed v o) (visibleUnder v o.2) y

omit [DecidableEq S] [DecidableEq C] in
theorem Placed.owner {o : Entry S C × List (Entry S C)} {y : Entry S C} (h : Placed v o y) :
    y.owner = o.1.owner := by
  rw [Entry.owner, h.item, Entry.owner]

omit [DecidableEq S] [DecidableEq C] in
theorem Entry.isSymbolChoice_of_owner {x : Entry S C} {i : Item S C} (h : x.owner = some i) :
    x.isSymbolChoice = true := by
  rcases hitem : x.item with _ | _ | _ | _ | _ <;> simp [owner, isSymbolChoice, hitem] at h ⊢

omit [DecidableEq C] in
theorem Placed.wanted {o : Entry S C × List (Entry S C)} {y : Entry S C} (h : Placed v o y) (s : S)
    {l l' : List (S × Expr S C)} (hl : o.1.isSymbolChoice = true →
      l'.map (fun p => (p.1, p.2.value v)) = l.map fun p => (p.1, min (p.2.value v) (allowed v o))) :
    wanted v s y l' = wanting v s o l := by
  by_cases hsym : ∃ t, o.1.item = some (.sym t)
  · obtain ⟨t, ht⟩ := hsym
    have hy : y.item = some (.sym t) := h.item.trans ht
    have hmap := congrArg (fun m => (m.filter fun q => q.1 = s).map fun q =>
      min (v.triValue (.sym t)) q.2) (hl (by simp [Entry.isSymbolChoice, ht]))
    simp only [List.filter_map, List.map_map, Function.comp_def] at hmap
    simpa only [Kconfiglib.wanted, wanting, hy, ht] using hmap
  · have hne : ∀ t, o.1.item ≠ some (.sym t) := fun t ht => hsym ⟨t, ht⟩
    unfold Kconfiglib.wanted wanting
    rw [h.item]
    split
    · next t ht => exact absurd ht (hne t)
    · rfl

/-- What finalizing makes of the nodes, place by place. -/
theorem placed_spreadTree (h : k.Holds v) (htop : top.item = some .menu) :
    List.Forall₂ (Placed v) (places top list) (spreadTree k top list) := by
  refine limits_spread h list [top] ?_ ?_
  · simp only [Entry.basedep, passedDown, htop]
    exact (min_eq_left (Tristate.le_y _)).symm
  · simp only [visibleIfBelow, visibleUnder, htop, value_makeAnd h, Expr.value, h.y]

/-- The same for the nodes of a symbol or choice. -/
theorem placed_nodesOf (h : k.Holds v) (htop : top.item = some .menu) (i : Item S C) :
    List.Forall₂ (fun o y => Placed v o y ∧ o.1.isSymbolChoice = true) (placesOf top list i)
      (nodesOf i (spreadTree k top list)) := by
  refine (forall₂_filter (placed_spreadTree h htop) fun o y hoy => ?_).imp fun o y hoy =>
    ⟨hoy.1, Entry.isSymbolChoice_of_owner (of_decide_eq_true hoy.2)⟩
  rw [hoy.owner]

/-- What a finalized menu means. -/
theorem Finalized.means (h : k.Holds v) (htop : top.item = some .menu) {symType : S → SymbolType}
    {choiceType : C → SymbolType} {menu : Chain (Entry S C)} {st : Collected S C}
    (hfin : Finalized k top list (.start k symType choiceType) menu st) :
    Means v top list menu st := by
  have hn : ∀ x, max ((Expr.item (.sym k.n) : Expr S C).value v) x = x := fun x => by
    rw [Expr.value, h.n]
    exact max_eq_right (Tristate.n_le x)
  have hplaces : List.Forall₂ (Placed v) (places top list) (spreadTree k top list) :=
    placed_spreadTree h htop
  have hnodes : ∀ i, List.Forall₂ (fun o y => Placed v o y ∧ o.1.isSymbolChoice = true)
      (placesOf top list i) (nodesOf i (spreadTree k top list)) := placed_nodesOf h htop
  have hadds := fun s => adds_foldl h (spreadTree k top list)
    (Collected.start k symType choiceType : Collected S C).syms s
  rw [← foldl_addPropsToSym_filter, ← hfin.preorder, ← hfin.syms] at hadds
  have hmenu : ∀ i, nodesOf i menu.preorder = nodesOf i (spreadTree k top list) := by
    intro i
    rw [hfin.preorder, nodesOf, nodesOf, List.filter_filter]
    refine List.filter_congr fun x _ => ?_
    rcases hitem : x.item with _ | _ | _ | _ | _ <;> simp [Entry.owner, Entry.stays, hitem]
  constructor
  · intro i
    rw [promptsIn_eq, promptsOf, hmenu, List.map_filterMap, max_eq_right (Tristate.n_le _)]
    have hshown : (nodesOf i (spreadTree k top list)).map (fun y => y.prompt.map fun p => p.2.value v) =
        (placesOf top list i).map (shown v) :=
      map_eq_map_of_forall₂ (hnodes i) fun o y hoy => hoy.1.prompt hoy.2
    have hmap := congrArg (fun m => strongest (m.filterMap id)) hshown
    simpa only [List.filterMap_map, Function.comp_def, id, Option.map_map] using hmap
  · intro s
    rw [(hadds s).directDep]
    refine (hn _).trans (congrArg strongest ?_)
    exact map_eq_map_of_forall₂ (hnodes (.sym s)) fun o y hoy => hoy.1.dep
  · intro s
    rw [(hadds s).defaults, Collected.start, List.nil_append, List.map_flatMap, List.flatMap,
      List.flatMap]
    exact congrArg _ (map_eq_map_of_forall₂ (hnodes (.sym s)) fun o y hoy => hoy.1.defaults hoy.2)
  · intro s
    rw [(hadds s).ranges, Collected.start, List.nil_append, List.map_flatMap, List.flatMap,
      List.flatMap]
    exact congrArg _ (map_eq_map_of_forall₂ (hnodes (.sym s)) fun o y hoy => hoy.1.ranges hoy.2)
  · intro s
    rw [(hadds s).revDep]
    refine (hn _).trans (congrArg strongest ?_)
    rw [List.flatMap, List.flatMap]
    exact congrArg _ (map_eq_map_of_forall₂ hplaces fun o y hoy => hoy.wanted s hoy.selects)
  · intro s
    rw [(hadds s).weakRevDep]
    refine (hn _).trans (congrArg strongest ?_)
    rw [List.flatMap, List.flatMap]
    exact congrArg _ (map_eq_map_of_forall₂ hplaces fun o y hoy => hoy.wanted s hoy.implies)

/-- **Finalizing keeps the meaning.** The pass ends on every parsed tree; it leaves the nodes of the
source in their order, and each property of a symbol or choice counts as far as its place in the source
allows, whatever the symbols and choices have for values. -/
theorem exists_finalize_means (hk : k.n ≠ k.y) (htop : top.item = some .menu)
    (hparsed : list.Everywhere Entry.Parsed) (symType : S → SymbolType)
    (choiceType : C → SymbolType) :
    ∃ menu st, finalize k top list (.start k symType choiceType) = some (menu, st) ∧
      Finalized k top list (.start k symType choiceType) menu st ∧
      ∀ v, k.Holds v → Means v top list menu st := by
  obtain ⟨menu, st, hrun, hfin⟩ := exists_finalize hk htop hparsed (.start k symType choiceType)
  exact ⟨menu, st, hrun, hfin, fun v h => hfin.means h htop⟩

/-- The tables of a finalized menu; names, environment variables and the like are those of `T`. -/
def finalizedTables (T : Tables S C) (menu : Chain (Entry S C)) (st : Collected S C) :
    Tables S C where
  sym := fun s =>
    { T.sym s with
      origType := st.choices.symType s
      prompts := promptsOf (.sym s) menu
      defaults := (st.syms s).defaults
      revDep := (st.syms s).revDep
      weakRevDep := (st.syms s).weakRevDep
      directDep := (st.syms s).directDep
      ranges := (st.syms s).ranges
      choice := st.choices.symChoice s }
  choice := fun c =>
    { T.choice c with
      origType := st.choices.type c
      prompts := promptsOf (.choice c) menu
      -- `_check_choice_sanity` refuses defaults that are not symbols.
      defaults := (st.choices.defaults c).filterMap fun d =>
        match d.1 with
        | .item (.sym s) => some (s, d.2)
        | _ => none
      syms := st.choices.syms c }
  consts := T.consts
  modules := T.modules
  uniqueDefinedSyms := T.uniqueDefinedSyms
  uniqueChoices := T.uniqueChoices

end Means

end MaixSpeech.Kconfiglib
