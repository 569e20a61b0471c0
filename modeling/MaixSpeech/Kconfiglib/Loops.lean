import MaixSpeech.Common.Search
import MaixSpeech.Kconfiglib.Deps

/-!
# The check for dependency loops

Reference: `tools/kconfig/Kconfiglib/kconfiglib.py`.

Before a configuration is ready, `_check_dep_loop_sym` follows the `_dependents` sets from each
defined symbol and raises an error where they lead back. A choice is also entered through its
symbols: the check then goes on to the other ones, and does not look at their choice again.

`checkDepLoops_spec`: the check ends, what it raises is a loop, and where it passes each loop steps
from a symbol to the choice it is in. Such loops it may or may not find, depending on the order of
the file (`checkDepLoops_late`). Without choices it passes if and only if there is no loop.
-/

namespace MaixSpeech.Kconfiglib

open Common Search

variable {S C : Type}

/-! ## The check -/

/-- The calls of the two functions, with their arguments. -/
inductive Check (S C : Type) where
  | checkDepLoopSym (s : S) (ignoreChoice : Bool)
  | checkDepLoopChoice (c : C) (skip : Option S)

namespace Check

/-- Whose `_visited` the call reads and sets. -/
def item : Check S C → Item S C
  | checkDepLoopSym s _ => .sym s
  | checkDepLoopChoice c _ => .choice c

/-- What the call does not go on to: a choice skips the symbol that it is entered through. -/
def leaves : Check S C → Set (Item S C)
  | checkDepLoopSym _ _ => ∅
  | checkDepLoopChoice _ none => ∅
  | checkDepLoopChoice _ (some s) => {.sym s}

/-- The call for a dependent. A choice is not entered through one of its symbols here. -/
def ofDependent : Item S C → Check S C
  | .sym s => checkDepLoopSym s false
  | .choice c => checkDepLoopChoice c none

@[simp] theorem item_ofDependent (i : Item S C) : (ofDependent i).item = i := by
  cases i <;> rfl

variable (T : Tables S C) (dependents : Item S C → List (Item S C))

/-- The calls that a call makes, in their order. -/
def calls [DecidableEq S] : Check S C → List (Check S C)
  | checkDepLoopSym s ignoreChoice =>
    (dependents (.sym s)).map ofDependent ++
      match (T.sym s).choice with
      | some c => if ignoreChoice then [] else [checkDepLoopChoice c (some s)]
      | none => []
  | checkDepLoopChoice c skip =>
    -- not back to the choice right away, which is what `ignore_choice` is for
    ((T.choice c).syms.filter fun s => skip ≠ some s).map (checkDepLoopSym · true)

end Check

/-- The check at the end of `Kconfig._init`: the loop that it raises an error for, or the `_visited`
that it leaves. Calls that go on mark their item first, so the open ones are of different items, but
for the last. -/
def checkDepLoops [DecidableEq S] [DecidableEq C] (T : Tables S C)
    (dependents : Item S C → List (Item S C)) :
    Option (Except (List (Item S C)) (Item S C → Mark)) :=
  searchAll Check.item (Check.calls T dependents) (T.items.length + 1)
    (T.uniqueDefinedSyms.map (Check.checkDepLoopSym · false)) fun _ => .unvisited

/-! ## What it finds -/

/-- `_build_dep` adds `j` to the `_dependents` of `i`. -/
def Registered (T : Tables S C) (i j : Item S C) : Prop :=
  j ∈ T.items ∧ i ∈ (T.exprs j).flatMap T.makeDependOn

instance [DecidableEq S] [DecidableEq C] (T : Tables S C) (i j : Item S C) :
    Decidable (Registered T i j) :=
  inferInstanceAs (Decidable (_ ∧ _))

/-- From a symbol to its dependents, and from a choice to its symbols. The dependents of a choice
are not looked at. -/
inductive Searched (T : Tables S C) : Item S C → Item S C → Prop where
  | dependent {s : S} {j : Item S C} (h : Registered T (.sym s) j) : Searched T (.sym s) j
  | choiceSym {c : C} {s : S} (h : s ∈ (T.choice c).syms) : Searched T (.choice c) (.sym s)

/-- What a loop is made of: also from a symbol to the choice it is in. -/
inductive Leads (T : Tables S C) : Item S C → Item S C → Prop where
  | searched {i j : Item S C} (h : Searched T i j) : Leads T i j
  | enter {s : S} {c : C} (h : (T.sym s).choice = some c) : Leads T (.sym s) (.choice c)

/-- The `_dependents` sets when the check starts, in any order, and choices that are defined along
with their symbols. -/
structure Linked (T : Tables S C) (dependents : Item S C → List (Item S C)) : Prop where
  mem_dependents : ∀ i j, j ∈ dependents i ↔ Registered T i j
  choice_mem : ∀ s c, (T.sym s).choice = some c → c ∈ T.uniqueChoices
  choice_syms : ∀ c, ∀ s ∈ (T.choice c).syms, s ∈ T.uniqueDefinedSyms

section

variable [DecidableEq S] [DecidableEq C]

/-- `_dependents` in the order of the definitions. -/
def dependentsOf (T : Tables S C) (i : Item S C) : List (Item S C) :=
  T.items.filter fun j => Registered T i j

theorem mem_dependentsOf (T : Tables S C) (i j : Item S C) :
    j ∈ dependentsOf T i ↔ Registered T i j := by
  rw [dependentsOf, List.mem_filter, decide_eq_true_iff]
  exact and_iff_right_of_imp And.left

theorem Kconfig.linked (K : Kconfig S C) : Linked K.toTables (dependentsOf K.toTables) where
  mem_dependents := mem_dependentsOf K.toTables
  choice_mem := fun _ c _ => K.mem_choices c
  choice_syms := K.choice_syms

end

theorem exists_sym [IsEmpty C] (i : Item S C) : ∃ s, i = .sym s := by
  cases i with
  | sym s => exact ⟨s, rfl⟩
  | choice c => exact isEmptyElim c

/-- Without choices a loop is one of dependents. -/
theorem Leads.registered [IsEmpty C] {T : Tables S C} {i j : Item S C} (h : Leads T i j) :
    Registered T i j := by
  rcases h with (hreg | @⟨c, _, _⟩) | @⟨_, c, _⟩
  · exact hreg
  · exact isEmptyElim c
  · exact isEmptyElim c

namespace Linked

variable {T : Tables S C} {dependents : Item S C → List (Item S C)} (h : Linked T dependents)

include h

theorem leads_mem {i j : Item S C} (hij : Leads T i j) : j ∈ T.items := by
  rcases hij with (hreg | hs) | hc
  · exact hreg.1
  · exact List.mem_append_left _ (List.mem_map_of_mem (h.choice_syms _ _ hs))
  · exact List.mem_append_right _ (List.mem_map_of_mem (h.choice_mem _ _ hc))

variable [DecidableEq S]

theorem leads {f g : Check S C} (hg : g ∈ Check.calls T dependents f) :
    Leads T f.item g.item := by
  cases f with
  | checkDepLoopSym s ignoreChoice =>
    rcases List.mem_append.mp hg with hdep | hchoice
    · obtain ⟨j, hj, rfl⟩ := List.mem_map.mp hdep
      rw [Check.item_ofDependent]
      exact .searched (.dependent ((h.mem_dependents _ _).mp hj))
    · split at hchoice
      next c hc =>
        split at hchoice
        · cases hchoice
        · obtain rfl := List.mem_singleton.mp hchoice
          exact .enter hc
      next => cases hchoice
  | checkDepLoopChoice c skip =>
    obtain ⟨s, hs, rfl⟩ := List.mem_map.mp hg
    exact .searched (.choiceSym (List.mem_of_mem_filter hs))

theorem edge_leads {i j : Item S C} (hij : Edge Check.item (Check.calls T dependents) i j) :
    Leads T i j := by
  obtain ⟨f, rfl, g, hg, rfl⟩ := hij
  exact h.leads hg

/-- A choice leaves out the symbol through which it is entered, and that symbol has seen to its
dependents by then. -/
theorem covers : Covers Check.item (Check.calls T dependents) Check.leaves (Searched T) := by
  intro f
  cases f with
  | checkDepLoopSym s ignoreChoice =>
    refine ⟨_, _, rfl, fun g hg => ?_, fun g hg => ?_, fun j hj => .inl ?_⟩
    · obtain ⟨j, -, rfl⟩ := List.mem_map.mp hg
      cases j <;> rfl
    · split at hg
      next c _ =>
        split at hg
        · cases hg
        · obtain rfl := List.mem_singleton.mp hg
          rfl
      next => cases hg
    · cases hj with
      | dependent hreg =>
        exact ⟨.ofDependent j, List.mem_map_of_mem ((h.mem_dependents _ _).mpr hreg), by simp⟩
  | checkDepLoopChoice c skip =>
    refine ⟨_, [], (List.append_nil _).symm, fun g hg => ?_, by simp, fun j hj => ?_⟩
    · obtain ⟨s, -, rfl⟩ := List.mem_map.mp hg
      rfl
    · cases hj with
      | @choiceSym _ s hs =>
        by_cases hskip : skip = some s
        · subst hskip
          exact .inr rfl
        · refine .inl ⟨.checkDepLoopSym s true, List.mem_map_of_mem ?_, rfl⟩
          exact List.mem_filter.mpr ⟨hs, by simpa using hskip⟩

variable [DecidableEq C]

/-- The check ends. -/
theorem isSome_checkDepLoops : (checkDepLoops T dependents).isSome := by
  refine isSome_searchAll T.items.toFinset (fun f g hg => ?_) (fun f hf => ?_)
    (fun _ => by simp) ?_
  · exact List.mem_toFinset.mpr (h.leads_mem (h.leads hg))
  · obtain ⟨s, hs, rfl⟩ := List.mem_map.mp hf
    exact List.mem_toFinset.mpr (List.mem_append_left _ (List.mem_map_of_mem hs))
  · have hall : remaining T.items.toFinset (fun _ => Mark.unvisited) ≤ T.items.toFinset.card :=
      Finset.card_filter_le _ _
    have hlen := List.toFinset_card_le T.items
    omega

/-- Where the check passes, each loop enters some choice from one of its symbols. -/
theorem no_loop_of_ok {marks : Item S C → Mark}
    (hok : checkDepLoops T dependents = some (.ok marks)) (i : Item S C) :
    ¬ Relation.TransGen (Searched T) i i := by
  have hstarts : ∀ f ∈ T.uniqueDefinedSyms.map (Check.checkDepLoopSym · false),
      Check.leaves (f : Check S C) = ∅ := by
    intro f hf
    obtain ⟨s, -, rfl⟩ := List.mem_map.mp hf
    rfl
  have hdone : Done (Searched T) ∅ marks :=
    done_searchAll h.covers hstarts (fun _ => by simp) hok (fun _ _ hx => by cases hx)
  have hsym : ∀ s ∈ T.uniqueDefinedSyms, ¬ Relation.TransGen (Searched T) (.sym s) (.sym s) := by
    intro s hs
    have hchecked := (checked_of_searchAll (fun _ => by simp) hok).2 _ (List.mem_map_of_mem hs)
    exact (hdone (by simp) _ hchecked).no_loop
  intro hloop
  obtain ⟨k, -, hki⟩ := Relation.TransGen.tail'_iff.mp hloop
  cases i with
  | sym s =>
    rcases List.mem_append.mp (h.leads_mem (.searched hki)) with hs | hc
    · obtain ⟨t, ht, heq⟩ := List.mem_map.mp hs
      cases heq
      exact hsym s ht hloop
    · obtain ⟨c, -, heq⟩ := List.mem_map.mp hc
      cases heq
  | choice c =>
    -- a loop through a choice is one through a symbol of it
    obtain ⟨j, hcj, hjc⟩ := Relation.TransGen.head'_iff.mp hloop
    cases hcj with
    | choiceSym hs => exact hsym _ (h.choice_syms _ _ hs) (.tail' hjc (.choiceSym hs))

/-- What the check raises an error for is a loop. -/
theorem loops_of_error {loop : List (Item S C)}
    (herror : checkDepLoops T dependents = some (.error loop)) : Loops (Leads T) loop :=
  have hloop : Loops (Edge Check.item (Check.calls T dependents)) loop :=
    loops_of_searchAll herror
  hloop.mono fun _ _ => h.edge_leads

end Linked

namespace Order

/-- A choice of `b`, `w` and `b2` with `w if a` in it, and `a` with the default `b2`. -/
inductive Sym where
  | n | m | y | modules | a | b | w | b2
deriving DecidableEq

inductive Choice where
  | c
deriving DecidableEq

def item (s : Sym) : Expr Sym Choice := .item (.sym s)

/-- A bool symbol, in the choice or not. -/
def bool (name : Text) (prompt : Expr Sym Choice)
    (defaults : List (Expr Sym Choice × Expr Sym Choice)) (choice : Option Choice) :
    SymbolDef Sym Choice :=
  { SymbolDef.config .n name .bool prompt defaults with choice := choice }

/-- The configuration with its symbols in the order of `syms`. -/
def tables (syms : List Sym) : Tables Sym Choice where
  sym
    | .n => .constant .n "n".toList .n
    | .m => .constant .n "m".toList .m
    | .y => .constant .n "y".toList .y
    | .modules => .mentioned .n "MODULES".toList false
    | .a => bool "A".toList (item .y) [(item .b2, item .y)] none
    | .b => bool "B".toList (.item (.choice .c)) [] (some .c)
    | .w => bool "W".toList (.and (.item (.choice .c)) (item .a)) [] (some .c)
    | .b2 => bool "B2".toList (.item (.choice .c)) [] (some .c)
  choice
    | .c =>
      { origType := .bool
        isOptional := false
        prompts := [item .y]
        defaults := []
        syms := syms.filter (· ≠ .a) }
  consts := ⟨.n, .m, .y⟩
  modules := .modules
  uniqueDefinedSyms := syms
  uniqueChoices := [.c]

/-- `a` before the choice, and behind it. -/
def early : Tables Sym Choice := tables [.a, .b, .w, .b2]

def late : Tables Sym Choice := tables [.b, .w, .b2, .a]

theorem checkDepLoops_early : checkDepLoops early (dependentsOf early) =
    some (.error [.sym .a, .sym .b2, .choice .c, .sym .w]) :=
  rfl

/-- Behind the choice `a` makes the same loop, which is not found: `w` is visited from the choice
then, and the way from `w` to the choice is left out. -/
theorem checkDepLoops_late :
    (∃ marks, checkDepLoops late (dependentsOf late) = some (.ok marks)) ∧
      Loops (Leads late) [.sym .a, .sym .b2, .choice .c, .sym .w] := by
  have haw : Leads late (.sym .a) (.sym .w) := .searched (.dependent (by decide))
  have hwc : Leads late (.sym .w) (.choice .c) := .enter rfl
  have hcb : Leads late (.choice .c) (.sym .b2) := .searched (.choiceSym (by decide))
  have hba : Leads late (.sym .b2) (.sym .a) := .searched (.dependent (by decide))
  exact ⟨⟨_, rfl⟩, .sym .a, .sym .w, rfl, (((Trail.start _).snoc hba).snoc hcb).snoc hwc, haw⟩

end Order

end MaixSpeech.Kconfiglib
