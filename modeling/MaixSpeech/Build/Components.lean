import MaixSpeech.Common.LastValue
import MaixSpeech.Common.PyStr
import MaixSpeech.Common.StableInsert
import Mathlib.Data.List.DropRight

/-!
# `sort_components.py`

Reference: `tools/cmake/sort_components.py`.

The components of a project are registered in the order of `priority.conf`. The script inserts them
one after the other into a list that it keeps sorted, each in front of the first one that comes later
in the file; what the file does not name is collected apart. `finalComponents_sorted` says that the
result is a stable sort.
-/

namespace MaixSpeech.Build

open Common

/-! ## The script -/

/-- `s.split()`. -/
def pyWords (s : Text) : List Text := (s.splitOnP isPySpace).filter (· ≠ [])

/-- `os.path.basename`. -/
def basename (path : Text) : Text := path.rtakeWhile (· ≠ '/')

/-- `line.startswith("#") or line == ""`. -/
def isComment (line : Text) : Bool := line.head? = some '#' || line = []

/-- `components_ordered`: the lines that `readline` returns are stripped and joined. -/
def componentsOrdered (conf : Text) : List Text :=
  pyWords (((pySplit ['\n'] conf).map pyStrip).flatMap fun line =>
    if isComment line then [] else line ++ [' '])

/-- `dict_order`; a later assignment to a key wins. -/
def dictOrder (ordered : List Text) (name : Text) : Option ℕ := lastSet ordered.zipIdx name

/-- `dict_order[os.path.basename(component)]`, for a component that is in the dictionary. -/
def orderOf (ordered : List Text) (component : Text) : ℕ :=
  (dictOrder ordered (basename component)).getD 0

/-- The insertion of a component that has a priority. -/
def insertComponent (ordered : List Text) (component : Text) (final : List Text) : List Text :=
  if final.length = 0 then [component]
  else
    match final.findIdx? fun tmp => orderOf ordered component < orderOf ordered tmp with
    | some j => final.insertIdx j component
    | none => final ++ [component]

/-- One turn of the loop over the components, on `final_components` and
`components_not_ordered`. -/
def sortStep (ordered : List Text) (st : List Text × List Text) (component : Text) :
    List Text × List Text :=
  if (dictOrder ordered (basename component)).isSome then
    (insertComponent ordered component st.1, st.2)
  else (st.1, st.2 ++ [component])

/-- `final_components`. -/
def finalComponents (conf : Text) (components : List Text) : List Text :=
  let st := components.foldl (sortStep (componentsOrdered conf)) ([], [])
  st.1 ++ st.2

/-- What is printed. -/
def sortComponents (conf : Text) (components : List Text) : Text :=
  (finalComponents conf components).flatMap (· ++ [';'])

example : sortComponents "# first\nb a\n  #c\n a\n".toList
    ["/x/a".toList, "c".toList, "/y/b".toList, "/z/a".toList] = "/y/b;/x/a;/z/a;c;".toList := by
  decide +kernel

/-! ## What it is for -/

/-- The words of the lines that are no comments. -/
def confWords (conf : Text) : List Text :=
  ((conf.splitOn '\n').filter fun line => (pyStrip line).head? ≠ some '#').flatMap pyWords

/-- Among the words the name stands at `i` for the last time. -/
def LastAt (words : List Text) (name : Text) (i : ℕ) : Prop :=
  words[i]? = some name ∧ ∀ j, i < j → words[j]? ≠ some name

/-- The components in the order of these words: first those that are named, sorted by the last place
of their names and with one name in the order of the input, then the others in that order. -/
structure SortedBy (words components final : List Text) : Prop where
  perm : final.Perm components
  parts : ∃ named, final = named ++ components.filter (fun c => basename c ∉ words) ∧
    (∀ c ∈ named, basename c ∈ words) ∧
    named.Pairwise (fun a b => ∀ i j, LastAt words (basename a) i → LastAt words (basename b) j →
      i ≤ j) ∧
    ∀ name ∈ words, named.filter (fun c => basename c = name) =
      components.filter fun c => basename c = name

/-! ## The words -/

section Words

variable {s t : Text} {c : Char}

theorem pyWords_append (hc : isPySpace c = true) (s t : Text) :
    pyWords (s ++ c :: t) = pyWords s ++ pyWords t := by
  rw [pyWords, List.splitOnP_append_cons _ _ hc, List.filter_append]
  rfl

theorem pyWords_cons (hc : isPySpace c = true) (t : Text) : pyWords (c :: t) = pyWords t :=
  pyWords_append hc [] t

theorem pyWords_concat (hc : isPySpace c = true) (s : Text) : pyWords (s ++ [c]) = pyWords s := by
  rw [pyWords_append hc]
  exact List.append_nil _

theorem pyWords_dropWhile (s : Text) : pyWords (s.dropWhile isPySpace) = pyWords s := by
  induction s with
  | nil => rfl
  | cons c s ih =>
    rw [List.dropWhile_cons]
    split
    · rename_i hc
      rw [ih, pyWords_cons hc]
    · rfl

/-- A text has the words of what is left when it is stripped. -/
theorem pyWords_pyStrip (s : Text) : pyWords (pyStrip s) = pyWords s := by
  have hright : ∀ t : Text, pyWords (t.reverse.dropWhile isPySpace).reverse = pyWords t := by
    intro t
    induction t using List.reverseRecOn with
    | nil => rfl
    | append_singleton t c ih =>
      rw [List.reverse_append, List.reverse_singleton, List.singleton_append, List.dropWhile_cons]
      split
      · rename_i hc
        rw [ih, pyWords_concat hc]
      · rw [List.reverse_cons, List.reverse_reverse]
  rw [pyStrip, hright, pyWords_dropWhile]

/-- The script finds the words of the lines that are no comments. -/
theorem componentsOrdered_eq (conf : Text) : componentsOrdered conf = confWords conf := by
  rw [componentsOrdered, confWords, pySplit_singleton]
  induction conf.splitOn '\n' with
  | nil => rfl
  | cons line lines ih =>
    rw [List.map_cons, List.flatMap_cons, List.filter_cons]
    by_cases hcomment : (pyStrip line).head? = some '#'
    · rw [if_pos (by simp [isComment, hcomment]), if_neg (by simp [hcomment]), List.nil_append, ih]
    · have hkeep : decide ((pyStrip line).head? ≠ some '#') = true := by simpa using hcomment
      rw [if_pos hkeep, List.flatMap_cons, ← ih, ← pyWords_pyStrip line]
      by_cases hempty : pyStrip line = []
      · rw [if_pos (by simp [isComment, hempty]), hempty, List.nil_append]
        rfl
      · rw [if_neg (by simp [isComment, hcomment, hempty]), List.append_assoc, List.singleton_append,
          pyWords_append (by decide)]

end Words

/-! ## The dictionary -/

section Dict

variable {words : List Text} {name : Text} {i j : ℕ}

/-- The dictionary has the last place of a name. -/
theorem dictOrder_eq_some_iff : dictOrder words name = some i ↔ LastAt words name i := by
  unfold dictOrder
  induction words using List.reverseRecOn with
  | nil => simp [LastAt]
  | append_singleton words w ih =>
    rw [List.zipIdx_append, lastSet_append]
    by_cases hw : w = name
    · subst hw
      have hlast : lastSet ([w].zipIdx (0 + words.length)) w = some words.length := by
        simp [lastSet]
      rw [hlast, Option.some_or, Option.some.injEq]
      constructor
      · rintro rfl
        refine ⟨List.getElem?_concat_length, fun j hj => ?_⟩
        have hout : (words ++ [w]).length ≤ j := by
          rw [List.length_append, List.length_singleton]
          exact hj
        rw [List.getElem?_eq_none hout]
        exact (Option.some_ne_none w).symm
      · rintro ⟨hi, hlater⟩
        obtain ⟨hlt, -⟩ := List.getElem?_eq_some_iff.mp hi
        rw [List.length_append, List.length_singleton] at hlt
        by_contra hne
        exact hlater words.length (by omega) List.getElem?_concat_length
    · have hnone : lastSet ([w].zipIdx (0 + words.length)) name = none := by
        simp [lastSet, hw]
      rw [hnone, Option.none_or, ih]
      have hget : ∀ j : ℕ, (words ++ [w])[j]? = some name ↔ words[j]? = some name := by
        intro j
        rcases Nat.lt_trichotomy j words.length with hj | rfl | hj
        · rw [List.getElem?_append_left hj]
        · simp [hw]
        · have hout : (words ++ [w]).length ≤ j := by
            rw [List.length_append, List.length_singleton]
            exact hj
          rw [List.getElem?_eq_none hout, List.getElem?_eq_none hj.le]
      simp only [LastAt, ne_eq, hget]

theorem dictOrder_isSome_iff : (dictOrder words name).isSome = true ↔ name ∈ words := by
  constructor
  · intro h
    obtain ⟨i, hi⟩ := Option.isSome_iff_exists.mp h
    exact List.mem_of_getElem? (dictOrder_eq_some_iff.mp hi).1
  · intro h
    unfold dictOrder
    induction words using List.reverseRecOn with
    | nil => exact absurd h List.not_mem_nil
    | append_singleton words w ih =>
      rw [List.zipIdx_append, lastSet_append, Option.isSome_or, Bool.or_eq_true]
      rcases List.mem_append.mp h with hmem | hmem
      · exact .inr (ih hmem)
      · rw [List.mem_singleton.mp hmem]
        exact .inl (by simp [lastSet])

theorem LastAt.dictOrder (h : LastAt words name i) : dictOrder words name = some i :=
  dictOrder_eq_some_iff.mpr h

end Dict

/-! ## The loop -/

section Loop

variable {words components : List Text}

/-- The insertion is in front of the first component that comes later. -/
theorem insertComponent_eq (words : List Text) (component : Text) (final : List Text) :
    insertComponent words component final = insertBehind (orderOf words) component final := by
  have hloop : (match final.findIdx? fun tmp => orderOf words component < orderOf words tmp with
      | some j => final.insertIdx j component
      | none => final ++ [component]) = insertBehind (orderOf words) component final := by
    induction final with
    | nil => rfl
    | cons tmp final ih =>
      rw [insertBehind, List.orderedInsert_cons, List.findIdx?_cons]
      by_cases hlt : orderOf words component < orderOf words tmp
      · simp [hlt]
      · rw [if_neg hlt, if_neg (by simpa using hlt), ← insertBehind, ← ih]
        cases final.findIdx? fun tmp => orderOf words component < orderOf words tmp with
        | none => rfl
        | some j => rfl
  rw [insertComponent, hloop]
  split
  · rename_i hempty
    rw [List.length_eq_zero_iff.mp hempty]
    rfl
  · rfl

/-- The loop inserts the components that are named, and collects the others. -/
theorem foldl_sortStep (words components : List Text) :
    components.foldl (sortStep words) ([], []) =
      (insertAll (orderOf words) (components.filter fun c => basename c ∈ words),
        components.filter fun c => basename c ∉ words) := by
  induction components using List.reverseRecOn with
  | nil => rfl
  | append_singleton components c ih =>
    rw [List.foldl_append, ih, List.foldl_cons, List.foldl_nil, sortStep, List.filter_append,
      List.filter_append]
    by_cases hc : basename c ∈ words
    · rw [if_pos (dictOrder_isSome_iff.mpr hc), insertComponent_eq]
      simp [hc, insertAll_concat]
    · rw [if_neg fun h => hc (dictOrder_isSome_iff.mp h)]
      simp [hc]

/-- A filter sees nothing of another one that lets everything through that it lets through. -/
theorem filter_filter_of_imp {α : Type*} {p q : α → Bool} (h : ∀ a, q a = true → p a = true)
    (l : List α) : (l.filter p).filter q = l.filter q := by
  rw [List.filter_filter]
  refine List.filter_congr fun a _ => ?_
  cases hq : q a with
  | false => rfl
  | true => rw [h a hq, Bool.and_self]

/-- **The components are sorted by the file, and stably.** For every text of `priority.conf` and all
components, what is printed has the components that the file names in front, by the last place of
their names and otherwise in the order of the input, and the others behind in that order. -/
theorem finalComponents_sorted (conf : Text) (components : List Text) :
    SortedBy (confWords conf) components (finalComponents conf components) := by
  rw [finalComponents, componentsOrdered_eq, foldl_sortStep]
  obtain ⟨words, hwords⟩ : ∃ words, words = confWords conf := ⟨_, rfl⟩
  rw [← hwords]
  have hperm := perm_insertAll (orderOf words) (components.filter fun c => basename c ∈ words)
  constructor
  · have hparts := List.filter_append_perm (fun c => decide (basename c ∈ words)) components
    refine (hperm.append_right _).trans ?_
    simpa using hparts
  · refine ⟨_, rfl, fun c hc => ?_, ?_, fun name hname => ?_⟩
    · have hmem := hperm.mem_iff.mp hc
      simpa using (List.mem_filter.mp hmem).2
    · apply (pairwise_insertAll (orderOf words) _).imp
      intro a b hab i j hi hj
      rwa [orderOf, orderOf, hi.dictOrder, hj.dictOrder] at hab
    · -- the components of one name have one key
      have hkey := congrArg (List.filter fun c => basename c = name)
        (filter_insertAll (orderOf words) (components.filter fun c => basename c ∈ words)
          ((dictOrder words name).getD 0))
      have himp : ∀ c, decide (basename c = name) = true →
          decide (orderOf words c = (dictOrder words name).getD 0) = true := by
        intro c hc
        rw [decide_eq_true_iff] at hc
        rw [decide_eq_true_iff, orderOf, hc]
      have hin : ∀ c, decide (basename c = name) = true → decide (basename c ∈ words) = true := by
        intro c hc
        rw [decide_eq_true_iff] at hc ⊢
        rwa [hc]
      rwa [filter_filter_of_imp himp, filter_filter_of_imp himp, filter_filter_of_imp hin] at hkey

end Loop

end MaixSpeech.Build
