import Mathlib.Data.List.Basic
import Mathlib.Data.List.Infix

/-!
# Runs of a state machine

A machine is a step function `σ → ι → σ`; a run feeds it a list of inputs. `Along` says that every
step of a run meets a condition on the state before it and its input, `Always` that every state the
run reaches has a property. `always_iff_along` is the induction principle for invariants, in its exact
form for a property that a step outside the condition breaks at once.
-/

namespace Common

variable {σ ι : Type*}

/-- The state after the inputs `is`, from `s`. -/
def run (step : σ → ι → σ) (s : σ) (is : List ι) : σ := is.foldl step s

/-- Every step of the run meets `P`, a condition on the state before the step and its input. -/
def Along (step : σ → ι → σ) (P : σ → ι → Prop) : σ → List ι → Prop
  | _, [] => True
  | s, i :: is => P s i ∧ Along step P (step s i) is

/-- Every state the run reaches, the first one included, has `Q`. -/
def Always (step : σ → ι → σ) (Q : σ → Prop) (s : σ) (is : List ι) : Prop :=
  ∀ pre, pre <+: is → Q (run step s pre)

variable {step : σ → ι → σ} {P P' : σ → ι → Prop} {Q : σ → Prop} {s : σ}

@[simp] theorem run_nil : run step s [] = s := rfl

@[simp] theorem run_cons (i : ι) (is : List ι) : run step s (i :: is) = run step (step s i) is := rfl

/-- A run over two lists is one after the other. -/
theorem run_append (is js : List ι) : run step s (is ++ js) = run step (run step s is) js :=
  List.foldl_append

@[simp] theorem along_nil : Along step P s [] := trivial

@[simp] theorem along_cons (i : ι) (is : List ι) :
    Along step P s (i :: is) ↔ P s i ∧ Along step P (step s i) is := Iff.rfl

/-- A weaker condition holds along the same runs. -/
theorem Along.mono (h : ∀ s i, P s i → P' s i) {is : List ι} (hP : Along step P s is) :
    Along step P' s is := by
  induction is generalizing s with
  | nil => trivial
  | cons i is ih => exact ⟨h _ _ hP.1, ih hP.2⟩

/-- Two conditions along a run are one. -/
theorem Along.and {is : List ι} (hP : Along step P s is) (hP' : Along step P' s is) :
    Along step (fun s i => P s i ∧ P' s i) s is := by
  induction is generalizing s with
  | nil => trivial
  | cons i is ih => exact ⟨⟨hP.1, hP'.1⟩, ih hP.2 hP'.2⟩

/-- A condition holds along a run if it does along its two parts. -/
theorem along_append (is js : List ι) :
    Along step P s (is ++ js) ↔ Along step P s is ∧ Along step P (run step s is) js := by
  induction is generalizing s with
  | nil => simp
  | cons i is ih => simp [ih, and_assoc]

/-- A condition on the inputs alone holds along a run exactly when every input meets it. -/
theorem along_input {p : ι → Prop} (is : List ι) :
    Along step (fun _ i => p i) s is ↔ ∀ i ∈ is, p i := by
  induction is generalizing s with
  | nil => simp
  | cons i is ih => simp [ih]

theorem always_nil : Always step Q s [] ↔ Q s := by
  constructor
  · exact fun h => h [] (List.prefix_refl _)
  · intro h pre hpre
    rw [List.prefix_nil.mp hpre]
    exact h

/-- What always holds does at the start, and always after the first step. -/
theorem always_cons (i : ι) (is : List ι) :
    Always step Q s (i :: is) ↔ Q s ∧ Always step Q (step s i) is := by
  constructor
  · intro h
    exact ⟨h [] List.nil_prefix, fun pre hpre => h (i :: pre) (List.cons_prefix_cons.mpr ⟨rfl, hpre⟩)⟩
  · rintro ⟨h0, h⟩ pre hpre
    cases pre with
    | nil => exact h0
    | cons j pre =>
      obtain ⟨rfl, htail⟩ := List.cons_prefix_cons.mp hpre
      exact h pre htail

/-- The state at the end is one of those reached. -/
theorem Always.last {is : List ι} (h : Always step Q s is) : Q (run step s is) :=
  h is (List.prefix_refl _)

/-- A weaker property always holds as well. -/
theorem Always.mono {Q' : σ → Prop} (h : ∀ s, Q s → Q' s) {is : List ι}
    (hQ : Always step Q s is) : Always step Q' s is :=
  fun pre hpre => h _ (hQ pre hpre)

/-- Let `Inv` imply `Q` and, under the environment `P`, survive the steps that meet `P'`. If a step
from inside `Inv` that keeps `Q` must meet `P'`, then a run stays inside `Q` exactly when all its
steps meet `P'`. -/
theorem always_iff_along (Inv : σ → Prop) (hQ : ∀ s, Inv s → Q s)
    (hkeep : ∀ s i, Inv s → P s i → P' s i → Inv (step s i))
    (hbreak : ∀ s i, Inv s → P s i → Q (step s i) → P' s i) {is : List ι}
    (h0 : Inv s) (hP : Along step P s is) : Always step Q s is ↔ Along step P' s is := by
  induction is generalizing s with
  | nil => exact ⟨fun _ => trivial, fun _ => always_nil.mpr (hQ s h0)⟩
  | cons i is ih =>
    rw [always_cons, along_cons]
    constructor
    · rintro ⟨-, h⟩
      have hi : P' s i := hbreak s i h0 hP.1 (h [] List.nil_prefix)
      exact ⟨hi, (ih (hkeep s i h0 hP.1 hi) hP.2).mp h⟩
    · rintro ⟨hi, h⟩
      exact ⟨hQ s h0, (ih (hkeep s i h0 hP.1 hi) hP.2).mpr h⟩

end Common
