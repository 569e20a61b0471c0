import Mathlib.Data.List.Basic
import Mathlib.Logic.Function.Basic

/-!
# The last value of a key

In a list of assignments the last one to a key wins. `lastSet` reads it off the list; `lastSet_cons`
is its recursion, which makes a fold of updates and the list agree key by key.
-/

namespace Common

variable {κ α : Type*} [DecidableEq κ]

/-- The value the last pair with key `k` has. -/
def lastSet (es : List (κ × α)) (k : κ) : Option α :=
  ((es.filter fun e => e.1 = k).getLast?).map (·.2)

/-- Defaults of a mapped `or`: the later value wins, then the earlier, then the default. -/
theorem getD_map_or {β : Type*} (a b : Option α) (f : α → β) (d : β) :
    ((a.or b).map f).getD d = (a.map f).getD ((b.map f).getD d) := by
  cases a <;> rfl

/-- An update as a case distinction on the key. -/
theorem update_eq_ite (g : κ → α) (k : κ) (x : α) :
    Function.update g k x = fun j => if k = j then x else g j := by
  funext j
  by_cases h : k = j
  · subst h
    simp
  · rw [Function.update_of_ne (Ne.symm h), if_neg h]

@[simp] theorem lastSet_nil (k : κ) : lastSet ([] : List (κ × α)) k = none := rfl

theorem lastSet_append (es fs : List (κ × α)) (k : κ) :
    lastSet (es ++ fs) k = (lastSet fs k).or (lastSet es k) := by
  simp only [lastSet, List.filter_append, List.getLast?_append]
  cases (fs.filter fun e => e.1 = k).getLast? <;> simp

theorem lastSet_cons (e : κ × α) (es : List (κ × α)) (k : κ) :
    lastSet (e :: es) k = (lastSet es k).or (if e.1 = k then some e.2 else none) := by
  rw [← List.singleton_append, lastSet_append]
  by_cases h : e.1 = k <;> simp [lastSet, h]

/-- The last value of a key is one of its values. -/
theorem mem_of_lastSet {es : List (κ × α)} {k : κ} {v : α} (h : lastSet es k = some v) :
    (k, v) ∈ es := by
  obtain ⟨e, he, rfl⟩ := Option.map_eq_some_iff.mp h
  obtain ⟨hmem, hk⟩ := List.mem_filter.mp (List.mem_of_getLast? he)
  rw [← of_decide_eq_true hk]
  exact hmem

end Common
