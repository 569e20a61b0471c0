import MaixSpeech.Common.PyStr
import Mathlib.Data.List.DropRight

/-!
# The lines of a text file

A file opened as text gives its lines one after the other, with all line ends read as newlines.
`fileLines_flatMap` says that lines without line ends inside come back as they were written.
-/

namespace Common

/-- `s.rstrip()`. -/
def pyRstrip (s : Text) : Text := s.rdropWhile isPySpace

/-- The line ends that text mode reads as newlines. -/
def universalNewlines : Text → Text
  | '\r' :: '\n' :: s => '\n' :: universalNewlines s
  | '\r' :: s => '\n' :: universalNewlines s
  | c :: s => c :: universalNewlines s
  | [] => []

/-- The lines of a file in text mode, without their newlines; the last one may lack its own. -/
def fileLines (s : Text) : List Text :=
  let pieces := (universalNewlines s).splitOn '\n'
  if pieces.getLast? = some [] then pieces.dropLast else pieces

example : fileLines "a\r\nb\r\rc".toList = ["a", "b", "", "c"].map String.toList ∧
    pyRstrip " a b \t".toList = " a b".toList := by
  decide +kernel

theorem universalNewlines_of_not_mem {s : Text} (hs : '\r' ∉ s) : universalNewlines s = s := by
  fun_induction universalNewlines s with
  | case1 s => exact absurd List.mem_cons_self hs
  | case2 s => exact absurd List.mem_cons_self hs
  | case3 c s _ _ ih => rw [ih fun h => hs (List.mem_cons_of_mem c h)]
  | case4 => rfl

theorem splitOn_flatMap_newline {lines : List Text} (h : ∀ l ∈ lines, '\n' ∉ l) :
    (lines.flatMap (· ++ ['\n'])).splitOn '\n' = lines ++ [[]] := by
  induction lines with
  | nil => rfl
  | cons l lines ih =>
    rw [List.flatMap_cons, List.append_assoc, List.singleton_append, List.splitOn_append_cons_self,
      List.splitOn_eq_singleton (h l List.mem_cons_self),
      ih fun l' hl' => h l' (List.mem_cons_of_mem l hl')]
    rfl

/-- Lines without line ends inside come back as they were written. -/
theorem fileLines_flatMap {lines : List Text} (h : ∀ l ∈ lines, '\n' ∉ l ∧ '\r' ∉ l) :
    fileLines (lines.flatMap (· ++ ['\n'])) = lines := by
  have hcr : '\r' ∉ lines.flatMap (· ++ ['\n']) := by
    rw [List.mem_flatMap]
    rintro ⟨l, hl, hmem⟩
    rcases List.mem_append.mp hmem with hmem | hmem
    · exact (h l hl).2 hmem
    · exact absurd (List.mem_singleton.mp hmem) (by decide)
  rw [fileLines, universalNewlines_of_not_mem hcr, splitOn_flatMap_newline fun l hl => (h l hl).1]
  simp

theorem pyRstrip_concat {s : Text} {c : Char} (hc : isPySpace c = false) :
    pyRstrip (s ++ [c]) = s ++ [c] :=
  List.rdropWhile_concat_neg _ _ _ (by simp [hc])

/-- A text that does not end in a space keeps its end. -/
theorem pyRstrip_of_getLast {s : Text} (h : ∀ c ∈ s.getLast?, isPySpace c = false) :
    pyRstrip s = s := by
  rcases List.eq_nil_or_concat' s with rfl | ⟨t, c, rfl⟩
  · rfl
  · exact pyRstrip_concat (h c (by simp))

/-- Replacing one character goes through the text once. -/
theorem pyReplace_singleton (c : Char) (new s : Text) :
    pyReplace [c] new s = s.flatMap fun d => if d = c then new else [d] := by
  induction s with
  | nil => rfl
  | cons d s ih =>
    rw [List.flatMap_cons, ← ih]
    by_cases h : d = c
    · subst h
      rw [if_pos rfl]
      exact pyReplace_self_append (List.cons_ne_nil _ _) new s
    · rw [if_neg h, pyReplace_cons (List.cons_ne_nil _ _)]
      · rfl
      · exact fun hp => h (List.cons_prefix_cons.mp hp).1.symm

end Common
