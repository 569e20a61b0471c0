import Mathlib.Data.List.Forall2

/-!
# First children and next siblings

A menu tree is kept as nodes that point to their first child and to their next sibling. What moves a
node up or down in such a tree only redirects these two; the preorder says in what order a reader
comes to the nodes, and `preorder_flatten` that lifting children behind their parent keeps it.
-/

namespace Common

universe u

/-- Nodes, each with its first child and its next sibling. -/
inductive Chain (α : Type u) where
  | nil
  | cons (a : α) (list next : Chain α)
deriving DecidableEq

namespace Chain

variable {α : Type u}

def size : Chain α → ℕ
  | nil => 0
  | cons _ list next => list.size + next.size + 1

/-- A node, its children, its siblings. -/
def preorder : Chain α → List α
  | nil => []
  | cons a list next => a :: (list.preorder ++ next.preorder)

/-- The preorder, each node with its parents, the nearest first. -/
def withParents (up : List α) : Chain α → List (α × List α)
  | nil => []
  | cons a list next => (a, up) :: (list.withParents (a :: up) ++ next.withParents up)

/-- The nodes of the first level. -/
def level : Chain α → List α
  | nil => []
  | cons a _ next => a :: next.level

/-- Changes the nodes of the first level. -/
def mapLevel (f : α → α) : Chain α → Chain α
  | nil => nil
  | cons a list next => cons (f a) list (next.mapLevel f)

/-- Takes nodes of the first level away, with what they hold. -/
def filterLevel (p : α → Bool) : Chain α → Chain α
  | nil => nil
  | cons a list next => if p a then cons a list (next.filterLevel p) else next.filterLevel p

/-- Lifts the children of the nodes with `p` behind their parent, and goes on with `rest`. -/
def flattenOnto (p : α → Bool) : Chain α → Chain α → Chain α
  | nil, rest => rest
  | cons a list next, rest =>
    if p a then cons a nil (list.flattenOnto p (next.flattenOnto p rest))
    else cons a list (next.flattenOnto p rest)

/-- Lifts the children of the nodes with `p` behind their parent. -/
def flatten (p : α → Bool) (c : Chain α) : Chain α := c.flattenOnto p nil

/-- The siblings from some node on. -/
inductive IsRest (c : Chain α) : Chain α → Prop where
  | refl : IsRest c c
  | next {a : α} {list next : Chain α} (h : IsRest c next) : IsRest c (cons a list next)

/-- A property of each node and its children, at every depth. -/
def Everywhere (P : α → Chain α → Prop) : Chain α → Prop
  | nil => True
  | cons a list next => P a list ∧ list.Everywhere P ∧ next.Everywhere P

instance decidableEverywhere (P : α → Chain α → Prop) [∀ a list, Decidable (P a list)] :
    ∀ c : Chain α, Decidable (c.Everywhere P)
  | nil => inferInstanceAs (Decidable True)
  | cons a list next =>
    have := decidableEverywhere P list
    have := decidableEverywhere P next
    inferInstanceAs (Decidable (P a list ∧ list.Everywhere P ∧ next.Everywhere P))

variable {c rest next : Chain α} {p : α → Bool}

theorem IsRest.trans {c' : Chain α} (h : IsRest rest c') (h' : IsRest c' c) : IsRest rest c := by
  induction h' with
  | refl => exact h
  | next _ ih => exact .next ih

theorem IsRest.size_le (h : IsRest rest c) : rest.size ≤ c.size := by
  induction h with
  | refl => exact Nat.le_refl _
  | next _ ih =>
    rw [size]
    omega

theorem IsRest.everywhere {P : α → Chain α → Prop} (h : IsRest rest c) (hc : c.Everywhere P) :
    rest.Everywhere P := by
  induction h with
  | refl => exact hc
  | next _ ih => exact ih hc.2.2

theorem IsRest.level_subset (h : IsRest rest c) : rest.level ⊆ c.level := by
  induction h with
  | refl => exact List.Subset.refl _
  | next _ ih => exact List.subset_cons_of_subset _ ih

/-! ## Changing the first level -/

theorem size_mapLevel (f : α → α) (c : Chain α) : (c.mapLevel f).size = c.size := by
  induction c with
  | nil => rfl
  | cons a list next _ ih => rw [mapLevel, size, size, ih]

theorem level_mapLevel (f : α → α) (c : Chain α) : (c.mapLevel f).level = c.level.map f := by
  induction c with
  | nil => rfl
  | cons a list next _ ih => rw [mapLevel, level, level, ih, List.map_cons]

theorem everywhere_mapLevel {P : α → Chain α → Prop} {f : α → α}
    (hf : ∀ a list, P a list → P (f a) list) (hc : c.Everywhere P) :
    (c.mapLevel f).Everywhere P := by
  induction c with
  | nil => trivial
  | cons a list next _ ih => exact ⟨hf a list hc.1, hc.2.1, ih hc.2.2⟩

/-! ## Lifting children -/

theorem preorder_flattenOnto (p : α → Bool) (c rest : Chain α) :
    (c.flattenOnto p rest).preorder = c.preorder ++ rest.preorder := by
  induction c generalizing rest with
  | nil => rfl
  | cons a list next ih₁ ih₂ =>
    rw [flattenOnto]
    split
    · rw [preorder, ih₁, ih₂, preorder, preorder, List.nil_append, List.cons_append,
        List.append_assoc]
    · rw [preorder, ih₂, preorder, List.cons_append, List.append_assoc]

/-- Lifting children keeps the order of the nodes. -/
theorem preorder_flatten (p : α → Bool) (c : Chain α) : (c.flatten p).preorder = c.preorder := by
  rw [flatten, preorder_flattenOnto, preorder, List.append_nil]

/-- The nodes of the first level have `Q`, and so have those that would be lifted to it. -/
def Liftable (p : α → Bool) (Q : α → Prop) : Chain α → Prop
  | nil => True
  | cons a list next => Q a ∧ (p a = true → list.Liftable p Q) ∧ next.Liftable p Q

theorem Liftable.flattenOnto {Q : α → Prop} (hc : c.Liftable p Q) (hrest : rest.Liftable p Q) :
    (c.flattenOnto p rest).Liftable p Q := by
  induction c generalizing rest with
  | nil => exact hrest
  | cons a list next ih₁ ih₂ =>
    obtain ⟨ha, hlist, hnext⟩ := hc
    rw [Chain.flattenOnto]
    split
    · next hp => exact ⟨ha, fun _ => trivial, ih₁ (hlist hp) (ih₂ hnext hrest)⟩
    · exact ⟨ha, hlist, ih₂ hnext hrest⟩

theorem Liftable.filterLevel {Q : α → Prop} (hc : c.Liftable p Q) (q : α → Bool) :
    (c.filterLevel q).Liftable p Q := by
  induction c with
  | nil => trivial
  | cons a list next _ ih =>
    rw [Chain.filterLevel]
    split
    exacts [⟨hc.1, hc.2.1, ih hc.2.2⟩, ih hc.2.2]

theorem Liftable.level {Q : α → Prop} (hc : c.Liftable p Q) : ∀ a ∈ c.level, Q a := by
  induction c with
  | nil => exact fun a ha => absurd ha List.not_mem_nil
  | cons b list next _ ih =>
    intro a ha
    rcases List.mem_cons.mp ha with rfl | ha
    exacts [hc.1, ih hc.2.2 a ha]

/-- A property of the nodes of the first level with their children. -/
def OnLevel (P : α → Chain α → Prop) : Chain α → Prop
  | nil => True
  | cons a list next => P a list ∧ next.OnLevel P

variable {q : α → Bool}

/-- Below the first level all nodes have `q`. -/
def Below (q : α → Bool) (c : Chain α) : Prop :=
  c.OnLevel fun _ list => ∀ x ∈ list.preorder, q x = true

theorem below_of_preorder (h : ∀ x ∈ c.preorder, q x = true) : c.Below q := by
  induction c with
  | nil => trivial
  | cons a list next _ ih =>
    rw [preorder] at h
    constructor
    · exact fun x hx => h x (List.mem_cons_of_mem a (List.mem_append_left _ hx))
    · exact ih fun x hx => h x (List.mem_cons_of_mem a (List.mem_append_right _ hx))

theorem mem_preorder_of_mem_level {a : α} (ha : a ∈ c.level) : a ∈ c.preorder := by
  induction c with
  | nil => exact ha
  | cons b list next _ ih =>
    rcases List.mem_cons.mp ha with rfl | ha
    · exact List.mem_cons_self
    · exact List.mem_cons_of_mem b (List.mem_append_right _ (ih ha))

/-- All nodes without `q` have come to the first level, and have no children there. -/
def Sifted (q : α → Bool) (c : Chain α) : Prop :=
  c.OnLevel fun a list => (∀ x ∈ list.preorder, q x = true) ∧ (q a = false → list = nil)

theorem Below.flattenOnto (hc : c.Below q) (hp : ∀ a ∈ c.level, q a = false → p a = true)
    (hrest : rest.Sifted q) : (c.flattenOnto p rest).Sifted q := by
  induction c generalizing rest with
  | nil => exact hrest
  | cons a list next ih₁ ih₂ =>
    have hnext := ih₂ hc.2 (fun b hb => hp b (List.mem_cons_of_mem a hb)) hrest
    rw [Chain.flattenOnto]
    split
    · refine ⟨⟨fun x hx => absurd hx List.not_mem_nil, fun _ => rfl⟩, ?_⟩
      refine ih₁ (below_of_preorder hc.1) (fun b hb hq => ?_) hnext
      rw [hc.1 b (mem_preorder_of_mem_level hb)] at hq
      cases hq
    · next hnot =>
      exact ⟨⟨hc.1, fun hq => absurd (hp a List.mem_cons_self hq) hnot⟩, hnext⟩

/-- What is taken away then is the nodes without `q`, and nothing else. -/
theorem Sifted.preorder_filterLevel (h : c.Sifted q) :
    (c.filterLevel q).preorder = c.preorder.filter q := by
  induction c with
  | nil => rfl
  | cons a list next _ ih =>
    have hlist : list.preorder.filter q = list.preorder := List.filter_eq_self.mpr h.1.1
    rw [filterLevel, preorder, List.filter_cons, List.filter_append, hlist, ← ih h.2]
    split
    · rfl
    · next hq =>
      rw [h.1.2 (Bool.eq_false_iff.mpr hq), preorder, List.nil_append]

/-! ## Families -/

/-- Each node behind its children, with the nodes of the level below it. -/
def families : Chain α → List (α × List α)
  | nil => []
  | cons a list next => list.families ++ (a, list.level) :: next.families

/-- The nodes with `r`, which are not lifted over, keep their families. -/
theorem families_flattenOnto {r : α → Bool} (hr : ∀ a, p a = true → r a = false)
    (c rest : Chain α) : (c.flattenOnto p rest).families.filter (fun f => r f.1) =
      c.families.filter (fun f => r f.1) ++ rest.families.filter fun f => r f.1 := by
  induction c generalizing rest with
  | nil => rfl
  | cons a list next ih₁ ih₂ =>
    rw [flattenOnto]
    split
    · next hp =>
      simp only [families, List.nil_append, List.filter_append, List.filter_cons, hr a hp,
        Bool.false_eq_true, if_false, ih₁, ih₂, List.append_assoc]
    · rw [families, families, List.filter_append, List.filter_append, List.filter_cons,
        List.filter_cons, ih₂]
      split <;> simp

theorem Sifted.families_filterLevel {r : α → Bool} (hr : ∀ a, q a = false → r a = false)
    (h : c.Sifted q) :
    (c.filterLevel q).families.filter (fun f => r f.1) = c.families.filter fun f => r f.1 := by
  induction c with
  | nil => rfl
  | cons a list next _ ih =>
    rw [filterLevel]
    split
    · rw [families, families, List.filter_append, List.filter_append, List.filter_cons,
        List.filter_cons, ih h.2]
    · next hq =>
      have ha := Bool.eq_false_iff.mpr hq
      simp only [h.1.2 ha, families, List.nil_append, List.filter_cons, hr a ha, Bool.false_eq_true,
        if_false, ih h.2]

end Chain

end Common
