import Mathlib.Data.List.Induction
import Mathlib.Data.List.Sort

/-!
# Insertion behind equal keys

Elements are inserted one after the other, each in front of the first element with a larger key. The
result is sorted by the key, and elements with one key stand in the order in which they came.
-/

namespace Common

variable {α κ : Type*} [LinearOrder κ] {key : α → κ} {a : α} {l : List α}

/-- The list with `a` in front of the first element with a larger key. -/
def insertBehind (key : α → κ) (a : α) (l : List α) : List α :=
  l.orderedInsert (fun a b => key a < key b) a

/-- The elements inserted one after the other. -/
def insertAll (key : α → κ) (l : List α) : List α :=
  l.foldl (fun sorted a => insertBehind key a sorted) []

theorem perm_insertBehind (key : α → κ) (a : α) (l : List α) : (insertBehind key a l).Perm (a :: l) :=
  List.perm_orderedInsert _ a l

theorem pairwise_insertBehind (h : l.Pairwise fun a b => key a ≤ key b) :
    (insertBehind key a l).Pairwise fun a b => key a ≤ key b := by
  induction l with
  | nil => exact List.pairwise_singleton _ _
  | cons b l ih =>
    obtain ⟨hb, hl⟩ := List.pairwise_cons.mp h
    rw [insertBehind, List.orderedInsert_cons]
    split
    · rename_i hlt
      refine List.pairwise_cons.mpr ⟨fun c hc => ?_, h⟩
      rcases List.mem_cons.mp hc with rfl | hc
      · exact hlt.le
      · exact hlt.le.trans (hb c hc)
    · rename_i hle
      refine List.pairwise_cons.mpr ⟨fun c hc => ?_, ih hl⟩
      rcases List.mem_cons.mp ((perm_insertBehind key a l).mem_iff.mp hc) with rfl | hc
      · exact not_lt.mp hle
      · exact hb c hc

/-- Among the elements with one key the new one is the last. -/
theorem filter_insertBehind (h : l.Pairwise fun a b => key a ≤ key b) (k : κ) :
    (insertBehind key a l).filter (fun b => key b = k) =
      l.filter (fun b => key b = k) ++ [a].filter fun b => key b = k := by
  induction l with
  | nil => rfl
  | cons b l ih =>
    obtain ⟨hb, hl⟩ := List.pairwise_cons.mp h
    rw [insertBehind, List.orderedInsert_cons]
    split
    · rename_i hlt
      by_cases ha : key a = k
      · -- all elements behind have larger keys
        have hnone : (b :: l).filter (fun b => key b = k) = [] := by
          rw [List.filter_eq_nil_iff]
          intro c hc
          have hac : key a < key c := by
            rcases List.mem_cons.mp hc with rfl | hc
            · exact hlt
            · exact hlt.trans_le (hb c hc)
          simp only [decide_eq_true_eq]
          exact fun hck => absurd (ha.trans hck.symm) hac.ne
        rw [List.filter_cons_of_pos (by simpa using ha), hnone, List.nil_append,
          List.filter_cons_of_pos (by simpa using ha)]
        rfl
      · rw [List.filter_cons_of_neg (by simpa using ha), List.filter_cons_of_neg (l := [])
          (by simpa using ha), List.filter_nil, List.append_nil]
    · have hrest := ih hl
      by_cases hbk : key b = k
      · rw [List.filter_cons_of_pos (by simpa using hbk), List.filter_cons_of_pos (by simpa using hbk),
          List.cons_append, ← hrest]
        rfl
      · rw [List.filter_cons_of_neg (by simpa using hbk), List.filter_cons_of_neg (by simpa using hbk),
          ← hrest]
        rfl

/-- The list without its last element is inserted first. -/
theorem insertAll_concat (key : α → κ) (l : List α) (a : α) :
    insertAll key (l ++ [a]) = insertBehind key a (insertAll key l) := by
  rw [insertAll, List.foldl_append]
  rfl

theorem perm_insertAll (key : α → κ) (l : List α) : (insertAll key l).Perm l := by
  induction l using List.reverseRecOn with
  | nil => exact List.Perm.refl _
  | append_singleton l a ih =>
    rw [insertAll_concat]
    exact ((perm_insertBehind key a _).trans (ih.cons a)).trans (List.perm_append_singleton a l).symm

theorem pairwise_insertAll (key : α → κ) (l : List α) :
    (insertAll key l).Pairwise fun a b => key a ≤ key b := by
  induction l using List.reverseRecOn with
  | nil => exact List.Pairwise.nil
  | append_singleton l a ih =>
    rw [insertAll_concat]
    exact pairwise_insertBehind ih

/-- Elements with one key keep their order. -/
theorem filter_insertAll (key : α → κ) (l : List α) (k : κ) :
    (insertAll key l).filter (fun b => key b = k) = l.filter fun b => key b = k := by
  induction l using List.reverseRecOn with
  | nil => rfl
  | append_singleton l a ih =>
    rw [insertAll_concat, filter_insertBehind (pairwise_insertAll key l), ih, List.filter_append]

end Common
