import Mathlib.Data.Finset.Card
import Mathlib.Logic.Function.Basic
import Mathlib.Logic.Relation

/-!
# Searching for loops, depth first

A search marks an item as active while it looks at what comes next, and as checked afterwards. It
finds a loop when it comes to an item that is active. `search_spec` says what an answer means, and
`isSome_search` that a search of finitely many items ends.

An item can be looked at in more than one way: a visit has an item, and says what comes next. It may
leave out the item that it comes from, if that item has seen to everything else. `Covers` is what
this takes for `done_search`: no loop is left among the items that are checked.
-/

namespace Common.Search

universe u v

inductive Mark where
  | unvisited
  | active
  | checked
deriving DecidableEq

/-- How a visit ends: nothing found, a loop on its way back to where it starts, or a whole loop. -/
inductive Outcome (ν : Type u) where
  | clear (marks : ν → Mark)
  | back (loop : List ν) (marks : ν → Mark)
  | raised (loop : List ν)

section Defs

variable {ν : Type u} {φ : Type v} [DecidableEq ν]

/-- A loop comes back to `cur`: it is complete there if this is where it starts. -/
def found (loop : List ν) (cur : ν) (marks : ν → Mark) : Outcome ν :=
  if loop.head? = some cur then .raised loop else .back (loop ++ [cur]) marks

/-- Visits one after another, until one of them finds something. -/
def eachStep (visit : φ → (ν → Mark) → Option (Outcome ν)) (cur : ν) :
    List φ → (ν → Mark) → Option (Outcome ν)
  | [], marks => some (.clear marks)
  | g :: gs, marks =>
    match visit g marks with
    | none => none
    | some (.clear marks) => eachStep visit cur gs marks
    | some (.back loop marks) => some (found loop cur marks)
    | some (.raised loop) => some (.raised loop)

variable (item : φ → ν) (next : φ → List φ)

/-- One visit, as deep as the fuel lasts. -/
def search : ℕ → φ → (ν → Mark) → Option (Outcome ν)
  | 0, _, _ => none
  | fuel + 1, f, marks =>
    match marks (item f) with
    | .unvisited =>
      match eachStep (search fuel) (item f) (next f)
          (Function.update marks (item f) .active) with
      | some (.clear marks) => some (.clear (Function.update marks (item f) .checked))
      | other => other
    | .checked => some (.clear marks)
    | .active => some (.back [item f] marks)

/-- Visits from several starts, with the marks kept. Only a whole loop stops it. -/
def searchAll (fuel : ℕ) : List φ → (ν → Mark) → Option (Except (List ν) (ν → Mark))
  | [], marks => some (.ok marks)
  | f :: fs, marks =>
    match search item next fuel f marks with
    | none => none
    | some (.clear marks) => searchAll fuel fs marks
    | some (.back _ marks) => searchAll fuel fs marks
    | some (.raised loop) => some (.error loop)

end Defs

section Loops

variable {ν : Type u}

/-- The items of a loop from where it starts back to `cur`: each comes to the one before it. -/
inductive Trail (r : ν → ν → Prop) : List ν → ν → Prop where
  | start (x : ν) : Trail r [x] x
  | snoc {loop : List ν} {a b : ν} (h : Trail r loop b) (hab : r a b) : Trail r (loop ++ [a]) a

/-- A whole loop: its first item comes to its last. -/
def Loops (r : ν → ν → Prop) (loop : List ν) : Prop :=
  ∃ x cur, loop.head? = some x ∧ Trail r loop cur ∧ r x cur

variable {r r' : ν → ν → Prop}

theorem Trail.reaches {loop : List ν} {cur x : ν} (h : Trail r loop cur)
    (hx : loop.head? = some x) : Relation.ReflTransGen r cur x := by
  induction h with
  | start y =>
    obtain rfl : y = x := by simpa using hx
    exact .refl
  | @snoc loop a b h hab ih =>
    refine .head hab (ih ?_)
    cases h <;> simpa using hx

theorem Trail.mono (hr : ∀ a b, r a b → r' a b) {loop : List ν} {cur : ν} (h : Trail r loop cur) :
    Trail r' loop cur := by
  induction h with
  | start x => exact .start x
  | snoc _ hab ih => exact ih.snoc (hr _ _ hab)

theorem Loops.mono (hr : ∀ a b, r a b → r' a b) {loop : List ν} (h : Loops r loop) :
    Loops r' loop := by
  obtain ⟨x, cur, hx, htrail, hedge⟩ := h
  exact ⟨x, cur, hx, htrail.mono hr, hr _ _ hedge⟩

theorem Loops.transGen {loop : List ν} (h : Loops r loop) : ∃ x, Relation.TransGen r x x := by
  obtain ⟨x, cur, hx, htrail, hedge⟩ := h
  exact ⟨x, .head' hedge (htrail.reaches hx)⟩

end Loops

section Spec

variable {ν : Type u} {φ : Type v} (item : φ → ν) (next : φ → List φ)

/-- Some visit of `a` comes to `b` next. -/
def Edge (a b : ν) : Prop := ∃ f, item f = a ∧ ∃ g ∈ next f, item g = b

/-- What a visit that found nothing does to the marks. -/
structure Cleared (marks marks' : ν → Mark) : Prop where
  active : ∀ x, marks' x = .active ↔ marks x = .active
  checked : ∀ x, marks x = .checked → marks' x = .checked

/-- What the outcome of a visit of `f` means. -/
def Sound (f : φ) (marks : ν → Mark) : Outcome ν → Prop
  | .clear marks' => Cleared marks marks' ∧ marks' (item f) = .checked
  | .back loop _ => (∃ x, loop.head? = some x ∧ marks x = .active) ∧
      Trail (Edge item next) loop (item f)
  | .raised loop => Loops (Edge item next) loop

variable {item next}

namespace Cleared

theorem refl (marks : ν → Mark) : Cleared marks marks :=
  ⟨fun _ => .rfl, fun _ h => h⟩

theorem trans {marks marks' marks'' : ν → Mark} (h : Cleared marks marks')
    (h' : Cleared marks' marks'') : Cleared marks marks'' where
  active x := (h'.active x).trans (h.active x)
  checked x hx := h'.checked x (h.checked x hx)

theorem unvisited {marks marks' : ν → Mark} (h : Cleared marks marks') {x : ν}
    (hx : marks' x = .unvisited) : marks x = .unvisited := by
  cases hm : marks x with
  | unvisited => rfl
  | active => rw [(h.active x).mpr hm] at hx; cases hx
  | checked => rw [h.checked x hm] at hx; cases hx

variable [DecidableEq ν]

/-- An item that was active and whose visit ends is checked; the others are as they were left. -/
theorem finish {marks marks' : ν → Mark} {x : ν} (hx : marks x = .unvisited)
    (h : Cleared (Function.update marks x .active) marks') :
    Cleared marks (Function.update marks' x .checked) where
  active y := by
    by_cases hy : y = x
    · simp [hy, hx]
    · simpa [hy] using h.active y
  checked y hm := by
    by_cases hy : y = x
    · simp [hy]
    · simpa [hy] using h.checked y (by simpa [hy] using hm)

end Cleared

variable [DecidableEq ν]

theorem found_of_head {loop : List ν} {cur x : ν} {marks : ν → Mark} (hx : loop.head? = some x) :
    found loop cur marks = if x = cur then .raised loop else .back (loop ++ [cur]) marks := by
  simp [found, hx]

/-- What the outcome of the visits behind `cur` means. -/
theorem eachStep_spec {visit : φ → (ν → Mark) → Option (Outcome ν)} {cur : ν}
    (hvisit : ∀ g marks o, visit g marks = some o → Sound item next g marks o) :
    ∀ {gs : List φ} {marks : ν → Mark} {o : Outcome ν}, (∀ g ∈ gs, Edge item next cur (item g)) →
      eachStep visit cur gs marks = some o →
      match o with
      | .clear marks' => Cleared marks marks' ∧ ∀ g ∈ gs, marks' (item g) = .checked
      | .back loop _ => (∃ x, loop.head? = some x ∧ marks x = .active ∧ x ≠ cur) ∧
          Trail (Edge item next) loop cur
      | .raised loop => Loops (Edge item next) loop := by
  intro gs
  induction gs with
  | nil =>
    intro marks o _ h
    cases h
    exact ⟨.refl marks, by simp⟩
  | cons g gs ih =>
    intro marks o hedge h
    rw [eachStep] at h
    have hedges : ∀ g ∈ gs, Edge item next cur (item g) :=
      fun g hg => hedge g (List.mem_cons_of_mem _ hg)
    split at h
    next => cases h
    next marks' hg =>
      -- nothing behind `g`: the others are visited with its marks
      obtain ⟨hclear, hchecked⟩ := hvisit g marks _ hg
      have hrest := ih hedges h
      cases o with
      | clear marks'' =>
        refine ⟨hclear.trans hrest.1, ?_⟩
        simp only [List.forall_mem_cons]
        exact ⟨hrest.1.checked _ hchecked, hrest.2⟩
      | back loop _ =>
        obtain ⟨⟨x, hx, hactive, hne⟩, htrail⟩ := hrest
        exact ⟨⟨x, hx, (hclear.active x).mp hactive, hne⟩, htrail⟩
      | raised loop => exact hrest
    next loop marks' hg =>
      obtain ⟨⟨x, hx, hactive⟩, htrail⟩ := hvisit g marks _ hg
      have hstep := hedge g List.mem_cons_self
      rw [found_of_head hx] at h
      split at h
      next hcur =>
        cases h
        exact ⟨x, item g, hx, htrail, hcur ▸ hstep⟩
      next hcur =>
        cases h
        exact ⟨⟨x, by simp [hx], hactive, hcur⟩, htrail.snoc hstep⟩
    next loop hg =>
      cases h
      exact hvisit g marks _ hg

/-- Visits that find nothing: the first does not, and the others do not. -/
theorem eachStep_clear {visit : φ → (ν → Mark) → Option (Outcome ν)} {cur : ν} {g : φ}
    {gs : List φ} {marks marks' : ν → Mark}
    (h : eachStep visit cur (g :: gs) marks = some (.clear marks')) :
    ∃ mid, visit g marks = some (.clear mid) ∧
      eachStep visit cur gs mid = some (.clear marks') := by
  rw [eachStep] at h
  split at h
  next => cases h
  next mid hg => exact ⟨mid, hg, h⟩
  next =>
    rw [found] at h
    split at h <;> cases h
  next => cases h

/-- **What a search finds.** Whole loops are loops; one on its way back starts at an item that was
active before. -/
theorem search_spec {fuel : ℕ} {f : φ} {marks : ν → Mark} {o : Outcome ν}
    (h : search item next fuel f marks = some o) : Sound item next f marks o := by
  induction fuel generalizing f marks o with
  | zero => cases h
  | succ fuel ih =>
    rw [search] at h
    split at h
    next hf =>
      have hvisit : ∀ g marks o, search item next fuel g marks = some o →
          Sound item next g marks o := fun _ _ _ => ih
      have hedge : ∀ g ∈ next f, Edge item next (item f) (item g) :=
        fun g hg => ⟨f, rfl, g, hg, rfl⟩
      split at h
      next marks' hclear =>
        cases h
        obtain ⟨hcleared, -⟩ := eachStep_spec hvisit hedge hclear
        exact ⟨hcleared.finish hf, by simp⟩
      next hother =>
        have hspec := eachStep_spec hvisit hedge h
        cases o with
        | clear marks' => exact absurd h (hother marks')
        | back loop _ =>
          -- it does not start at `f`, so it started before `f` became active
          obtain ⟨⟨x, hx, hactive, hne⟩, htrail⟩ := hspec
          exact ⟨⟨x, hx, by simpa [hne] using hactive⟩, htrail⟩
        | raised loop => exact hspec
    next hf =>
      cases h
      exact ⟨.refl marks, hf⟩
    next hf =>
      cases h
      exact ⟨⟨item f, rfl, hf⟩, .start _⟩

/-- With nothing active, visits that raise nothing find nothing. -/
theorem searchAll_ok {fuel : ℕ} {f : φ} {fs : List φ} {marks marks' : ν → Mark}
    (hactive : ∀ x, marks x ≠ .active)
    (h : searchAll item next fuel (f :: fs) marks = some (.ok marks')) :
    ∃ mid, search item next fuel f marks = some (.clear mid) ∧ (∀ x, mid x ≠ .active) ∧
      searchAll item next fuel fs mid = some (.ok marks') := by
  rw [searchAll] at h
  split at h
  next => cases h
  next mid hf =>
    have hclear := (search_spec hf).1
    exact ⟨mid, hf, fun x hx => hactive x ((hclear.active x).mp hx), h⟩
  next loop mid hf =>
    obtain ⟨⟨x, -, hx⟩, -⟩ := search_spec hf
    exact absurd hx (hactive x)
  next => cases h

/-- Visits that raise nothing leave their items checked. -/
theorem checked_of_searchAll {fuel : ℕ} {fs : List φ} {marks marks' : ν → Mark}
    (hactive : ∀ x, marks x ≠ .active)
    (h : searchAll item next fuel fs marks = some (.ok marks')) :
    (∀ x, marks x = .checked → marks' x = .checked) ∧ ∀ f ∈ fs, marks' (item f) = .checked := by
  induction fs generalizing marks with
  | nil =>
    cases h
    exact ⟨fun _ h => h, by simp⟩
  | cons f fs ih =>
    obtain ⟨mid, hf, hmid, hfs⟩ := searchAll_ok hactive h
    obtain ⟨hclear, hchecked⟩ := search_spec hf
    obtain ⟨hkeep, hrest⟩ := ih hmid hfs
    refine ⟨fun x hx => hkeep x (hclear.checked x hx), ?_⟩
    simp only [List.forall_mem_cons]
    exact ⟨hkeep _ hchecked, hrest⟩

/-- What the visits raise is a loop. -/
theorem loops_of_searchAll {fuel : ℕ} {fs : List φ} {marks : ν → Mark} {loop : List ν}
    (h : searchAll item next fuel fs marks = some (.error loop)) :
    Loops (Edge item next) loop := by
  induction fs generalizing marks with
  | nil => cases h
  | cons f fs ih =>
    rw [searchAll] at h
    split at h
    next => cases h
    next => exact ih h
    next => exact ih h
    next loop hf =>
      cases h
      exact search_spec hf

end Spec

section Done

variable {ν : Type u} {φ : Type v}

/-- No way from `x` goes on for ever. -/
def Ends (r : ν → ν → Prop) (x : ν) : Prop := Acc (fun b a => r a b) x

theorem Ends.no_loop {r : ν → ν → Prop} {x : ν} (h : Ends r x) : ¬ Relation.TransGen r x x := by
  induction h with
  | intro x _ ih =>
    intro hloop
    obtain ⟨y, hxy, hyx⟩ := Relation.TransGen.head'_iff.mp hloop
    -- the same loop, from the item after `x` on
    exact ih y hxy (.tail' hyx hxy)

/-- No way from a checked item goes on for ever, once this is seen for the items of `P`. -/
def Done (r : ν → ν → Prop) (P : Set ν) (marks : ν → Mark) : Prop :=
  (∀ b ∈ P, Ends r b) → ∀ x, marks x = .checked → Ends r x

theorem Done.mono {r : ν → ν → Prop} {P Q : Set ν} {marks : ν → Mark} (h : Done r P marks)
    (hPQ : P ⊆ Q) : Done r Q marks :=
  fun hQ => h fun b hb => hQ b (hPQ hb)

/-- The visits see to a relation. All that an item is in relation with comes first, but for what the
visit leaves out; then come the visits that leave out the item itself. -/
def Covers (item : φ → ν) (next : φ → List φ) (leaves : φ → Set ν) (r : ν → ν → Prop) : Prop :=
  ∀ f, ∃ first last, next f = first ++ last ∧ (∀ g ∈ first, leaves g = ∅) ∧
    (∀ g ∈ last, leaves g = {item f}) ∧
    ∀ b, r (item f) b → (∃ g ∈ first, item g = b) ∨ b ∈ leaves f

variable {item : φ → ν} {next : φ → List φ} {leaves : φ → Set ν} {r : ν → ν → Prop} [DecidableEq ν]

theorem done_eachStep {visit : φ → (ν → Mark) → Option (Outcome ν)} {cur : ν} {L : Set ν}
    {gs : List φ} {marks marks' : ν → Mark} {P : Set ν}
    (hvisit : ∀ g ∈ gs, ∀ marks marks' P, visit g marks = some (.clear marks') →
      Done r P marks → Done r (P ∪ L) marks')
    (h : eachStep visit cur gs marks = some (.clear marks')) (hdone : Done r P marks) :
    Done r (P ∪ L) marks' := by
  induction gs generalizing marks P with
  | nil =>
    cases h
    exact hdone.mono Set.subset_union_left
  | cons g gs ih =>
    obtain ⟨mid, hg, hgs⟩ := eachStep_clear h
    have hhead := hvisit g List.mem_cons_self _ _ _ hg hdone
    have hrest := ih (fun g hg => hvisit g (List.mem_cons_of_mem _ hg)) hgs hhead
    rwa [Set.union_assoc, Set.union_self] at hrest

theorem eachStep_append {visit : φ → (ν → Mark) → Option (Outcome ν)} {cur : ν} {gs hs : List φ}
    {marks marks' : ν → Mark} (h : eachStep visit cur (gs ++ hs) marks = some (.clear marks')) :
    ∃ mid, eachStep visit cur gs marks = some (.clear mid) ∧
      eachStep visit cur hs mid = some (.clear marks') := by
  induction gs generalizing marks with
  | nil => exact ⟨marks, rfl, h⟩
  | cons g gs ih =>
    obtain ⟨after, hg, hrest⟩ := eachStep_clear h
    obtain ⟨mid, hgs, hhs⟩ := ih hrest
    refine ⟨mid, ?_, hhs⟩
    rw [eachStep, hg]
    exact hgs

/-- **A search that finds nothing leaves no loop behind**, but for the item that it leaves out. -/
theorem done_search (hcover : Covers item next leaves r) {fuel : ℕ} {f : φ}
    {marks marks' : ν → Mark} {P : Set ν}
    (h : search item next fuel f marks = some (.clear marks')) (hdone : Done r P marks) :
    Done r (P ∪ leaves f) marks' := by
  induction fuel generalizing f marks marks' P with
  | zero => cases h
  | succ fuel ih =>
    rw [search] at h
    split at h
    next hf =>
      split at h
      next after hsteps =>
        cases h
        obtain ⟨first, last, hnext, hfirst, hlast, hr⟩ := hcover f
        rw [hnext] at hsteps
        obtain ⟨mid, hbefore, hafter⟩ := eachStep_append hsteps
        have hactive : Done r P (Function.update marks (item f) .active) := by
          intro hP x hx
          refine hdone hP x ?_
          by_cases hxf : x = item f
          · simp [hxf] at hx
          · simpa [hxf] using hx
        have hmid : Done r (P ∪ ∅) mid :=
          done_eachStep (fun g hg _ _ _ hvisit hd => hfirst g hg ▸ ih hvisit hd) hbefore hactive
        have hend : Done r (P ∪ ∅ ∪ {item f}) after :=
          done_eachStep (fun g hg _ _ _ hvisit hd => hlast g hg ▸ ih hvisit hd) hafter hmid
        rw [Set.union_empty] at hmid hend
        have hchecked : ∀ g ∈ first, mid (item g) = .checked :=
          (eachStep_spec (fun _ _ _ => search_spec)
            (fun g hg => ⟨f, rfl, g, hnext ▸ List.mem_append_left _ hg, rfl⟩) hbefore).2
        intro hends x hx
        have hP : ∀ b ∈ P, Ends r b := fun b hb => hends b (Or.inl hb)
        -- what comes first was seen to before anything was left out
        have hitem : Ends r (item f) := by
          refine .intro _ fun b hb => ?_
          rcases hr b hb with ⟨g, hg, rfl⟩ | hleft
          · exact hmid hP _ (hchecked g hg)
          · exact hends b (Or.inr hleft)
        by_cases hxf : x = item f
        · exact hxf ▸ hitem
        · refine hend (fun b hb => ?_) x (by simpa [hxf] using hx)
          rcases hb with hb | rfl
          · exact hP b hb
          · exact hitem
      next hother => exact absurd h (hother marks')
    next =>
      cases h
      exact hdone.mono Set.subset_union_left
    next => cases h

theorem done_searchAll (hcover : Covers item next leaves r) {fuel : ℕ} {fs : List φ}
    {marks marks' : ν → Mark} (hfs : ∀ f ∈ fs, leaves f = ∅) (hactive : ∀ x, marks x ≠ .active)
    (h : searchAll item next fuel fs marks = some (.ok marks')) (hdone : Done r ∅ marks) :
    Done r ∅ marks' := by
  induction fs generalizing marks with
  | nil =>
    cases h
    exact hdone
  | cons f fs ih =>
    obtain ⟨mid, hf, hmid, hrest⟩ := searchAll_ok hactive h
    have hhead := done_search hcover hf hdone
    rw [hfs f List.mem_cons_self, Set.union_empty] at hhead
    exact ih (fun f hf => hfs f (List.mem_cons_of_mem _ hf)) hmid hrest hhead

end Done

section Fuel

variable {ν : Type u} {φ : Type v} {item : φ → ν} {next : φ → List φ}

/-- The items still to visit. -/
def remaining (all : Finset ν) (marks : ν → Mark) : ℕ :=
  (all.filter fun x => marks x = .unvisited).card

theorem Cleared.remaining_le {marks marks' : ν → Mark} (h : Cleared marks marks')
    (all : Finset ν) : remaining all marks' ≤ remaining all marks :=
  Finset.card_le_card fun x hx => by
    rw [Finset.mem_filter] at hx ⊢
    exact ⟨hx.1, h.unvisited hx.2⟩

variable [DecidableEq ν]

theorem remaining_update {all : Finset ν} {marks : ν → Mark} {x : ν} (hx : x ∈ all)
    (hm : marks x = .unvisited) : remaining all (Function.update marks x .active) <
      remaining all marks := by
  refine Finset.card_lt_card (Finset.ssubset_iff_subset_ne.mpr ⟨fun y hy => ?_, fun heq => ?_⟩)
  · rw [Finset.mem_filter] at hy ⊢
    refine ⟨hy.1, ?_⟩
    by_cases hyx : y = x
    · exact hyx ▸ hm
    · simpa [hyx] using hy.2
  · have hmem : x ∈ all.filter fun y => marks y = .unvisited := Finset.mem_filter.mpr ⟨hx, hm⟩
    rw [← heq, Finset.mem_filter] at hmem
    simp at hmem

theorem isSome_eachStep (all : Finset ν) {n : ℕ}
    {visit : φ → (ν → Mark) → Option (Outcome ν)} {cur : ν} {gs : List φ} {marks : ν → Mark}
    (hvisit : ∀ g ∈ gs, ∀ marks, remaining all marks ≤ n → (visit g marks).isSome)
    (hspec : ∀ g marks o, visit g marks = some o → Sound item next g marks o)
    (hmarks : remaining all marks ≤ n) : (eachStep visit cur gs marks).isSome := by
  induction gs generalizing marks with
  | nil => rfl
  | cons g gs ih =>
    rw [eachStep]
    split
    next h =>
      have hg := hvisit g List.mem_cons_self marks hmarks
      rw [h] at hg
      cases hg
    next marks' h =>
      have hclear := (hspec g marks _ h).1
      exact ih (fun g hg => hvisit g (List.mem_cons_of_mem _ hg))
        ((hclear.remaining_le all).trans hmarks)
    next => rfl
    next => rfl

/-- A search ends if the fuel is more than the number of items that are left. -/
theorem isSome_search (all : Finset ν) (hnext : ∀ f, ∀ g ∈ next f, item g ∈ all) {fuel : ℕ} {f : φ}
    {marks : ν → Mark} (hf : item f ∈ all) (hfuel : remaining all marks < fuel) :
    (search item next fuel f marks).isSome := by
  induction fuel generalizing f marks with
  | zero => omega
  | succ fuel ih =>
    rw [search]
    split
    next hm =>
      have hless := remaining_update hf hm
      have hsteps : (eachStep (search item next fuel) (item f) (next f)
          (Function.update marks (item f) .active)).isSome :=
        isSome_eachStep all (n := fuel - 1)
          (fun g hg marks' hmarks => ih (hnext f g hg) (by omega))
          (fun _ _ _ => search_spec) (by omega)
      split
      next => rfl
      next => exact hsteps
    next => rfl
    next => rfl

theorem isSome_searchAll (all : Finset ν) (hnext : ∀ f, ∀ g ∈ next f, item g ∈ all) {fuel : ℕ}
    {fs : List φ} {marks : ν → Mark} (hfs : ∀ f ∈ fs, item f ∈ all)
    (hactive : ∀ x, marks x ≠ .active) (hfuel : remaining all marks < fuel) :
    (searchAll item next fuel fs marks).isSome := by
  induction fs generalizing marks with
  | nil => rfl
  | cons f fs ih =>
    have hrest : ∀ f ∈ fs, item f ∈ all := fun f hf => hfs f (List.mem_cons_of_mem _ hf)
    have hsome := isSome_search all hnext (hfs f List.mem_cons_self) hfuel
    rw [searchAll]
    split
    next h =>
      rw [h] at hsome
      cases hsome
    next marks' h =>
      have hclear := (search_spec h).1
      exact ih hrest (fun x hx => hactive x ((hclear.active x).mp hx))
        ((hclear.remaining_le all).trans_lt hfuel)
    next loop marks' h =>
      obtain ⟨⟨x, -, hx⟩, -⟩ := search_spec h
      exact absurd hx (hactive x)
    next => rfl

end Fuel

end Common.Search
