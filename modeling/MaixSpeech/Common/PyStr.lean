import Mathlib.Data.List.Infix
import Mathlib.Data.List.TakeWhile

/-!
# Python's string methods

A text is the list of its characters. What `split`, `replace` and a search do is decided by where a
pattern stands first: `FirstAt x pre` says that in `pre ++ x`, whatever follows, `x` does not stand
before the end of `pre`. One rule for each method then cuts a text at that place.
-/

namespace Common

/-- The characters of a Python string. -/
abbrev Text := List Char

/-- A literal that ends with a newline, line by line. -/
def textLines (lines : List String) : Text := lines.flatMap fun l => l.toList ++ ['\n']

/-- What stands in a joined text is the separator or stands in a piece. -/
theorem mem_intercalate {α : Type*} {c sep : α} {pieces : List (List α)}
    (h : c ∈ [sep].intercalate pieces) : c = sep ∨ ∃ w ∈ pieces, c ∈ w := by
  induction pieces with
  | nil => exact absurd h List.not_mem_nil
  | cons w ws ih =>
    cases ws with
    | nil =>
      rw [List.intercalate_singleton] at h
      exact Or.inr ⟨w, List.mem_cons_self, h⟩
    | cons u ws =>
      rw [List.intercalate_cons_cons, List.mem_append, List.mem_append, List.mem_singleton] at h
      rcases h with (hw | hc) | hrest
      · exact Or.inr ⟨w, List.mem_cons_self, hw⟩
      · exact Or.inl hc
      · exact (ih hrest).imp_right fun ⟨v, hv, hc⟩ => ⟨v, List.mem_cons_of_mem w hv, hc⟩

/-- What stands in a piece of a text stands in the text. -/
theorem mem_of_mem_splitOn {α : Type*} [DecidableEq α] {c sep : α} {w s : List α}
    (hw : w ∈ s.splitOn sep) (hc : c ∈ w) : c ∈ s := by
  induction s generalizing w with
  | nil =>
    rw [List.splitOn_nil, List.mem_singleton] at hw
    exact absurd hc (by rw [hw]; exact List.not_mem_nil)
  | cons d s ih =>
    obtain ⟨v, vs, hvs⟩ := List.exists_cons_of_ne_nil (List.splitOn_ne_nil sep s)
    rw [List.splitOn_cons_eq_if_modifyHead, hvs] at hw
    rw [hvs] at ih
    split at hw
    · rcases List.mem_cons.mp hw with rfl | hw
      · exact absurd hc List.not_mem_nil
      · exact List.mem_cons_of_mem _ (ih hw hc)
    · rw [List.modifyHead_cons, List.mem_cons] at hw
      rcases hw with rfl | hw
      · rcases List.mem_cons.mp hc with rfl | hc
        · exact List.mem_cons_self
        · exact List.mem_cons_of_mem _ (ih List.mem_cons_self hc)
      · exact List.mem_cons_of_mem _ (ih (List.mem_cons_of_mem _ hw) hc)

/-! ## The first place of a pattern -/

section First

variable {α : Type*} {x pre : List α} {c : α}

/-- Behind `pre` the pattern `x` stands for the first time, whatever follows. -/
def FirstAt (x pre : List α) : Prop := ¬ x <:+: pre ++ x.dropLast

instance [DecidableEq α] (x pre : List α) : Decidable (FirstAt x pre) :=
  inferInstanceAs (Decidable (¬ _))

theorem FirstAt.tail (h : FirstAt x (c :: pre)) : FirstAt x pre :=
  fun hx => h (hx.trans (List.suffix_cons c _).isInfix)

/-- Further in front the pattern does not stand. -/
theorem FirstAt.not_prefix (h : FirstAt x (c :: pre)) (t : List α) :
    ¬ x <+: c :: (pre ++ (x ++ t)) := by
  intro hx
  have hlen : x.length ≤ (c :: (pre ++ x.dropLast)).length := by
    simp only [List.length_cons, List.length_append, List.length_dropLast]
    omega
  obtain ⟨r, hr⟩ := List.dropLast_prefix x
  have hpre : c :: (pre ++ x.dropLast) <+: c :: (pre ++ (x ++ t)) := by
    refine ⟨r ++ t, ?_⟩
    rw [List.cons_append, List.append_assoc, ← List.append_assoc x.dropLast, hr]
  exact h (List.prefix_of_prefix_length_le hx hpre hlen).isInfix

/-- Behind a text `s` without it, and `y`, a pattern stands first when no cut of it into an end of
`s` and a beginning of what follows is possible. -/
theorem firstAt_append {s y : List α} (hs : ¬ x <:+: s) (hy : FirstAt x y)
    (hcut : ∀ n < x.length, 0 < n → x.drop n <+: y ++ x.dropLast → ¬ x.take n <:+ s) :
    FirstAt x (s ++ y) := by
  intro hx
  rw [List.append_assoc] at hx
  rcases List.infix_append_iff_ne_nil.mp hx with h | h | ⟨l, r, hl, hr, rfl, hsuf, hpre⟩
  · exact hs h
  · exact hy h
  · have hl' := List.length_pos_iff.mpr hl
    have hr' := List.length_pos_iff.mpr hr
    refine hcut l.length ?_ hl' ?_ ?_
    · rw [List.length_append]
      omega
    · rwa [List.drop_left]
    · rwa [List.take_left]

/-- The pattern stands first when all its cuts leave only its last letter behind, and the text in
front does not end with the rest of it. -/
theorem firstAt_append_of_cut {s y : List α} (hs : ¬ x <:+: s) (hend : ¬ x.dropLast <:+ s)
    (hy : FirstAt x y)
    (hcut : ∀ n < x.length, 0 < n → x.drop n <+: y ++ x.dropLast → x.take n = x.dropLast) :
    FirstAt x (s ++ y) := by
  refine firstAt_append hs hy fun n hn hpos hpre hsuf => hend ?_
  rwa [hcut n hn hpos hpre] at hsuf

theorem firstAt_nil (hx : x ≠ []) : FirstAt x [] := by
  intro h
  have hlen := h.length_le
  have hpos := List.length_pos_iff.mpr hx
  rw [List.nil_append, List.length_dropLast] at hlen
  omega

theorem not_infix_tail (hx : x ≠ []) : ¬ x <:+: x.tail := by
  intro h
  have hlen := h.length_le
  have hpos := List.length_pos_iff.mpr hx
  rw [List.length_tail] at hlen
  omega

/-- A pattern in a text stands there for a first time. -/
theorem exists_firstAt {s : List α} (hx : x ≠ []) (h : x <:+: s) :
    ∃ pre t, s = pre ++ (x ++ t) ∧ FirstAt x pre := by
  induction s with
  | nil => exact absurd (List.infix_nil.mp h) hx
  | cons c s ih =>
    by_cases hp : x <+: c :: s
    · obtain ⟨t, ht⟩ := hp
      exact ⟨[], t, ht.symm, firstAt_nil hx⟩
    · obtain ⟨pre, t, hs, hfirst⟩ := ih ((List.infix_cons_iff.mp h).resolve_left hp)
      refine ⟨c :: pre, t, by rw [hs, List.cons_append], fun hin => ?_⟩
      rw [List.cons_append, List.infix_cons_iff] at hin
      refine hin.elim (fun hpre => hp (hpre.trans ?_)) hfirst
      rw [hs]
      exact List.cons_prefix_cons.mpr ⟨rfl,
        (List.prefix_append_right_inj pre).mpr ((List.dropLast_prefix x).trans
          (List.prefix_append x t))⟩

/-- Induction along the places where a pattern is found from the left. -/
@[elab_as_elim]
theorem firstAt_induction {motive : List α → Prop} (hx : x ≠ [])
    (rest : ∀ s, ¬ x <:+: s → motive s)
    (first : ∀ pre t, FirstAt x pre → motive t → motive (pre ++ (x ++ t))) (s : List α) :
    motive s := by
  by_cases h : x <:+: s
  · obtain ⟨pre, t, hs, hfirst⟩ := exists_firstAt hx h
    have hlen : t.length < s.length := by
      have hpos := List.length_pos_iff.mpr hx
      rw [hs, List.length_append, List.length_append]
      omega
    rw [hs]
    exact first pre t hfirst (firstAt_induction hx rest first t)
  · exact rest s h
termination_by s.length

end First

/-! ## `split`, `replace` and the search for a group -/

section Find

variable {α : Type*} [DecidableEq α]

/-- The pieces between the separators; `k` elements of a separator are still to be skipped. -/
def splitSkip (sep : List α) : ℕ → List α → List (List α)
  | _, [] => [[]]
  | k + 1, _ :: s => splitSkip sep k s
  | 0, c :: s =>
    if sep <+: c :: s then [] :: splitSkip sep (sep.length - 1) s
    else (splitSkip sep 0 s).modifyHead (c :: ·)

/-- `s.split(sep)`. -/
def pySplit (sep s : List α) : List (List α) := splitSkip sep 0 s

/-- `s.replace(old, new)`. -/
def pyReplace (old new s : List α) : List α :=
  if old = [] then s.flatMap (fun c => new ++ [c]) ++ new else new.intercalate (pySplit old s)

/-- The text in front of the last `stop`: what a greedy `(.*)` with `DOTALL` takes of `s`. -/
def beforeLast (stop : List α) : List α → Option (List α)
  | [] => if stop = [] then some [] else none
  | c :: s =>
    ((beforeLast stop s).map (c :: ·)).or (if stop <+: c :: s then some [] else none)

/-- The group of `start(.*)stop` when it matches at the head of `s`. -/
def matchGroup (start stop s : List α) : Option (List α) :=
  if start <+: s then beforeLast stop (s.drop start.length) else none

/-- The group of the first match of `start(.*)stop` in `s`, for a `start` and a `stop` of plain
characters. -/
def searchGroup (start stop : List α) : List α → Option (List α)
  | [] => matchGroup start stop []
  | c :: s => (matchGroup start stop (c :: s)).or (searchGroup start stop s)

example : pySplit "ab".toList "ababxabab".toList = ["", "", "x", "", ""].map String.toList ∧
    searchGroup "<".toList ">".toList "a<b<c>d>e".toList = some "b<c>d".toList := by
  decide +kernel

variable {x sep start stop pre s : List α} {c : α}

/-! ### `split` and `replace` -/

theorem splitSkip_eq (sep : List α) (k : ℕ) (s : List α) :
    splitSkip sep k s = pySplit sep (s.drop k) := by
  induction s generalizing k with
  | nil => rw [List.drop_nil, pySplit, splitSkip, splitSkip]
  | cons c s ih =>
    cases k with
    | zero => rfl
    | succ k => rw [splitSkip, ih, List.drop_succ_cons]

theorem pySplit_sep (hsep : sep ≠ []) (t : List α) :
    pySplit sep (sep ++ t) = [] :: pySplit sep t := by
  obtain ⟨a, r, rfl⟩ := List.exists_cons_of_ne_nil hsep
  rw [List.cons_append, pySplit, splitSkip, if_pos ⟨t, rfl⟩, splitSkip_eq, List.length_cons,
    Nat.add_sub_cancel, List.drop_left]

theorem pySplit_cons (h : ¬ sep <+: c :: s) :
    pySplit sep (c :: s) = (pySplit sep s).modifyHead (c :: ·) := by
  rw [pySplit, splitSkip, if_neg h, pySplit]

/-- The first piece ends where the separator stands first. -/
theorem pySplit_firstAt (hsep : sep ≠ []) (h : FirstAt sep pre) (t : List α) :
    pySplit sep (pre ++ (sep ++ t)) = pre :: pySplit sep t := by
  induction pre with
  | nil => exact pySplit_sep hsep t
  | cons c pre ih =>
    rw [List.cons_append, pySplit_cons (h.not_prefix t), ih h.tail, List.modifyHead_cons]

theorem pySplit_of_not_infix (h : ¬ sep <:+: s) : pySplit sep s = [s] := by
  induction s with
  | nil => rfl
  | cons c s ih =>
    have htail : ¬ sep <:+: s := fun hs => h (hs.trans (List.suffix_cons c s).isInfix)
    rw [pySplit_cons fun hp => h hp.isInfix, ih htail, List.modifyHead_cons]

theorem pySplit_ne_nil (sep s : List α) : pySplit sep s ≠ [] := by
  induction s with
  | nil => exact List.cons_ne_nil _ _
  | cons c s ih =>
    by_cases h : sep <+: c :: s
    · rw [pySplit, splitSkip, if_pos h]
      exact List.cons_ne_nil _ _
    · rw [pySplit_cons h, ne_eq, List.modifyHead_eq_nil_iff]
      exact ih

theorem pyReplace_of_not_infix (hx : x ≠ []) (h : ¬ x <:+: s) (y : List α) :
    pyReplace x y s = s := by
  rw [pyReplace, if_neg hx, pySplit_of_not_infix h, List.intercalate_singleton]

/-- The pattern is replaced where it stands first, and the rest on its own. -/
theorem pyReplace_firstAt (hx : x ≠ []) (h : FirstAt x pre) (y t : List α) :
    pyReplace x y (pre ++ (x ++ t)) = pre ++ (y ++ pyReplace x y t) := by
  rw [pyReplace, if_neg hx, pySplit_firstAt hx h,
    List.intercalate_cons_of_ne_nil (pySplit_ne_nil x t), pyReplace, if_neg hx, List.append_assoc]

/-- The first place of a pattern is one place. -/
theorem FirstAt.unique {pre' t t' : List α} (hx : x ≠ []) (h : FirstAt x pre)
    (h' : FirstAt x pre') (heq : pre ++ (x ++ t) = pre' ++ (x ++ t')) : pre = pre' ∧ t = t' := by
  have hsplit := congrArg (pySplit x) heq
  rw [pySplit_firstAt hx h, pySplit_firstAt hx h'] at hsplit
  obtain rfl := (List.cons.inj hsplit).1
  exact ⟨rfl, List.append_cancel_left (List.append_cancel_left heq)⟩

theorem pyReplace_self_append (hx : x ≠ []) (y t : List α) :
    pyReplace x y (x ++ t) = y ++ pyReplace x y t :=
  pyReplace_firstAt hx (firstAt_nil hx) y t

theorem pyReplace_cons (hx : x ≠ []) (h : ¬ x <+: c :: s) (y : List α) :
    pyReplace x y (c :: s) = c :: pyReplace x y s := by
  obtain ⟨p, ps, hps⟩ := List.exists_cons_of_ne_nil (pySplit_ne_nil x s)
  rw [pyReplace, if_neg hx, pyReplace, if_neg hx, pySplit_cons h, hps, List.modifyHead_cons]
  cases ps with
  | nil => rw [List.intercalate_singleton, List.intercalate_singleton]
  | cons q ps => rw [List.intercalate_cons_cons, List.intercalate_cons_cons]; rfl

/-- With a separator of one character it is the library's `splitOn`. -/
theorem pySplit_singleton (c : α) (s : List α) : pySplit [c] s = s.splitOn c := by
  induction s with
  | nil => rfl
  | cons d s ih =>
    by_cases h : d = c
    · subst h
      have hsep : pySplit [d] ([d] ++ s) = [] :: pySplit [d] s := pySplit_sep (List.cons_ne_nil _ _) s
      rw [List.splitOn_cons_eq_if_modifyHead, if_pos (beq_self_eq_true d), ← ih]
      exact hsep
    · have hpre : ¬ [c] <+: d :: s := fun hp => h (List.cons_prefix_cons.mp hp).1.symm
      rw [pySplit_cons hpre, ih, List.splitOn_cons_eq_if_modifyHead, if_neg (by simpa using h)]

/-! ### The search for a group -/

theorem beforeLast_eq_none_iff (hstop : stop ≠ []) :
    beforeLast stop s = none ↔ ¬ stop <:+: s := by
  induction s with
  | nil => simp [beforeLast, hstop]
  | cons c s ih =>
    rw [beforeLast, Option.or_eq_none_iff, Option.map_eq_none_iff, ih, List.infix_cons_iff, not_or,
      and_comm]
    simp

/-- The text in front of the last `stop`. -/
theorem beforeLast_append (hstop : stop ≠ []) {v : List α} (hv : ¬ stop <:+: stop.tail ++ v)
    (g : List α) : beforeLast stop (g ++ (stop ++ v)) = some g := by
  induction g with
  | nil =>
    obtain ⟨a, r, rfl⟩ := List.exists_cons_of_ne_nil hstop
    rw [List.tail_cons, ← beforeLast_eq_none_iff hstop] at hv
    rw [List.nil_append, List.cons_append, beforeLast, hv,
      if_pos (List.cons_prefix_cons.mpr ⟨rfl, List.prefix_append r v⟩)]
    rfl
  | cons c g ih => rw [List.cons_append, beforeLast, ih, Option.map_some, Option.some_or]

/-- A pattern that is found has a last place. -/
theorem beforeLast_eq_some {g : List α} (hstop : stop ≠ []) (h : beforeLast stop s = some g) :
    ∃ v, s = g ++ (stop ++ v) ∧ ¬ stop <:+: stop.tail ++ v := by
  induction s generalizing g with
  | nil => simp [beforeLast, hstop] at h
  | cons c s ih =>
    rw [beforeLast] at h
    cases hlast : beforeLast stop s with
    | some g' =>
      rw [hlast, Option.map_some, Option.some_or, Option.some.injEq] at h
      obtain ⟨v, hs, hv⟩ := ih hlast
      exact ⟨v, by rw [← h, hs, List.cons_append], hv⟩
    | none =>
      rw [hlast, Option.map_none, Option.none_or] at h
      by_cases hp : stop <+: c :: s
      · rw [if_pos hp] at h
        obtain ⟨v, hv⟩ := hp
        refine ⟨v, by rw [← Option.some.inj h, hv, List.nil_append], ?_⟩
        have htail := congrArg List.tail hv
        rw [List.tail_append_of_ne_nil hstop, List.tail_cons] at htail
        rwa [htail, ← beforeLast_eq_none_iff hstop]
      · rw [if_neg hp] at h
        exact absurd h (by simp)

theorem searchGroup_eq_none (h : ∀ t, start ++ t <:+ s → beforeLast stop t = none) :
    searchGroup start stop s = none := by
  have hgroup : ∀ s : List α, (∀ t, start ++ t <:+ s → beforeLast stop t = none) →
      matchGroup start stop s = none := by
    intro s h
    rw [matchGroup]
    split
    · rename_i hp
      obtain ⟨t, rfl⟩ := hp
      rw [List.drop_left]
      exact h t List.suffix_rfl
    · rfl
  induction s with
  | nil => exact hgroup [] h
  | cons c s ih =>
    rw [searchGroup, hgroup _ h, Option.none_or]
    exact ih fun t ht => h t (ht.trans (List.suffix_cons c s))

theorem searchGroup_of_not_infix (hstop : stop ≠ []) (h : ¬ stop <:+: s) :
    searchGroup start stop s = none :=
  searchGroup_eq_none fun _ ht => (beforeLast_eq_none_iff hstop).mpr fun hs =>
    h (hs.trans ((List.suffix_append start _).trans ht).isInfix)

/-- The group lies between the first `start` and the last `stop`. -/
theorem searchGroup_firstAt (hstop : stop ≠ []) (h : FirstAt start pre) {v : List α}
    (hv : ¬ stop <:+: stop.tail ++ v) (g : List α) :
    searchGroup start stop (pre ++ (start ++ (g ++ (stop ++ v)))) = some g := by
  induction pre with
  | nil =>
    have hgroup : matchGroup start stop (start ++ (g ++ (stop ++ v))) = some g := by
      rw [matchGroup, if_pos (List.prefix_append _ _), List.drop_left, beforeLast_append hstop hv]
    rw [List.nil_append]
    cases hs : start ++ (g ++ (stop ++ v)) with
    | nil => rw [searchGroup, ← hs, hgroup]
    | cons c s => rw [searchGroup, ← hs, hgroup, Option.some_or]
  | cons c pre ih =>
    rw [List.cons_append, searchGroup, matchGroup, if_neg (h.not_prefix _), Option.none_or]
    exact ih h.tail

/-- A group that is found lies between the first `start` and the last `stop`. -/
theorem searchGroup_eq_some {g : List α} (hstart : start ≠ []) (hstop : stop ≠ [])
    (h : searchGroup start stop s = some g) :
    ∃ pre v, s = pre ++ (start ++ (g ++ (stop ++ v))) ∧ FirstAt start pre ∧
      ¬ stop <:+: stop.tail ++ v := by
  have hin : start <:+: s := by
    by_contra hno
    rw [searchGroup_eq_none fun t ht => absurd ((List.prefix_append start t).isInfix.trans ht.isInfix)
      hno] at h
    exact absurd h (by simp)
  obtain ⟨pre, t, rfl, hfirst⟩ := exists_firstAt hstart hin
  by_cases ht : stop <:+: t
  · obtain ⟨g', hg'⟩ := Option.ne_none_iff_exists'.mp
      (mt (beforeLast_eq_none_iff hstop).mp (not_not.mpr ht))
    obtain ⟨v, rfl, hv⟩ := beforeLast_eq_some hstop hg'
    rw [searchGroup_firstAt hstop hfirst hv, Option.some.injEq] at h
    exact ⟨pre, v, by rw [h], hfirst, hv⟩
  · have hnone : searchGroup start stop (pre ++ (start ++ t)) = none := by
      clear h hin
      induction pre with
      | nil =>
        refine searchGroup_eq_none fun t' ht' => (beforeLast_eq_none_iff hstop).mpr fun hs => ?_
        have hsuf : t' <:+ t := by
          refine List.suffix_of_suffix_length_le ((List.suffix_append start t').trans ht')
            (List.suffix_append start t) ?_
          have hlen := ht'.length_le
          simp only [List.nil_append, List.length_append] at hlen
          omega
        exact ht (hs.trans hsuf.isInfix)
      | cons c pre ih =>
        rw [List.cons_append, searchGroup, matchGroup, if_neg (hfirst.not_prefix t),
          Option.none_or]
        exact ih hfirst.tail
    rw [hnone] at h
    exact absurd h (by simp)

end Find

/-! ## Formatting and numbers -/

/-- `template.format(*args)` for a template whose only braces are its `{}`. -/
def pyFormat : Text → List Text → Text
  | '{' :: '}' :: t, a :: args => a ++ pyFormat t args
  | c :: t, args => c :: pyFormat t args
  | [], _ => []

/-- The text of a template in front of its first brace stays. -/
theorem pyFormat_append {u : Text} (hu : '{' ∉ u) (t : Text) (args : List Text) :
    pyFormat (u ++ t) args = u ++ pyFormat t args := by
  induction u with
  | nil => rfl
  | cons c u ih =>
    rw [List.mem_cons, not_or] at hu
    rw [List.cons_append, pyFormat.eq_2, ih hu.2, List.cons_append]
    exact fun _ _ _ _ hc _ => hu.1 hc.symm

/-- The text of a template that is not a brace stays. -/
theorem mem_pyFormat {c : Char} (hopen : c ≠ '{') (hclose : c ≠ '}') {t : Text} (h : c ∈ t)
    (args : List Text) : c ∈ pyFormat t args := by
  fun_induction pyFormat t args with
  | case1 t a args ih =>
    have hc : c ∈ t := by simpa [hopen, hclose] using h
    exact List.mem_append_right _ (ih hc)
  | case2 d t args _ ih =>
    rcases List.mem_cons.mp h with rfl | hc
    · exact List.mem_cons_self
    · exact List.mem_cons_of_mem _ (ih hc)
  | case3 => exact absurd h List.not_mem_nil

/-- The characters `str.isspace` accepts. -/
def isPySpace (c : Char) : Bool :=
  let n := c.toNat
  (9 ≤ n && n ≤ 13) || (28 ≤ n && n ≤ 32) || n = 0x85 || n = 0xa0 || n = 0x1680 ||
  (0x2000 ≤ n && n ≤ 0x200a) || n = 0x2028 || n = 0x2029 || n = 0x202f || n = 0x205f || n = 0x3000

/-- `s.strip()`. -/
def pyStrip (s : Text) : Text :=
  ((s.dropWhile isPySpace).reverse.dropWhile isPySpace).reverse

/-- The zeros of the decimal digits of the scripts. -/
def decimalZeros : List ℕ :=
  [0x30, 0x660, 0x6f0, 0x7c0, 0x966, 0x9e6, 0xa66, 0xae6, 0xb66, 0xbe6, 0xc66, 0xce6, 0xd66, 0xde6,
    0xe50, 0xed0, 0xf20, 0x1040, 0x1090, 0x17e0, 0x1810, 0x1946, 0x19d0, 0x1a80, 0x1a90, 0x1b50,
    0x1bb0, 0x1c40, 0x1c50, 0xa620, 0xa8d0, 0xa900, 0xa9d0, 0xa9f0, 0xaa50, 0xabf0, 0xff10, 0x104a0,
    0x10d30, 0x11066, 0x110f0, 0x11136, 0x111d0, 0x112f0, 0x11450, 0x114d0, 0x11650, 0x116c0,
    0x11730, 0x118e0, 0x11950, 0x11c50, 0x11d50, 0x11da0, 0x16a60, 0x16ac0, 0x16b50, 0x1d7ce,
    0x1d7d8, 0x1d7e2, 0x1d7ec, 0x1d7f6, 0x1e140, 0x1e2f0, 0x1e950, 0x1fbf0]

/-- The value of a decimal digit. -/
def pyDecimal (c : Char) : Option ℕ :=
  (decimalZeros.find? fun z => z ≤ c.toNat ∧ c.toNat < z + 10).map (c.toNat - ·)

/-- Digits with single underscores between them, behind digits of value `n`; `digit` says that the
last character was one. -/
def pyDigits (n : ℕ) (digit : Bool) : Text → Option ℕ
  | [] => if digit then some n else none
  | '_' :: s => if digit then pyDigits n false s else none
  | c :: s => (pyDecimal c).bind fun d => pyDigits (10 * n + d) true s

/-- `int(s)`, `none` for a `ValueError`. -/
def pyInt (s : Text) : Option ℤ :=
  match pyStrip s with
  | '-' :: s => (pyDigits 0 false s).map fun n => -(n : ℤ)
  | '+' :: s => (pyDigits 0 false s).map fun n => (n : ℤ)
  | s => (pyDigits 0 false s).map fun n => (n : ℤ)

/-- `str(n)`. -/
def pyStrInt (n : ℤ) : Text := (toString n).toList

/-- A number is written with digits and a sign. -/
theorem mem_pyStrInt {n : ℤ} {c : Char} (hc : c ∈ pyStrInt n) : c.isDigit = true ∨ c = '-' := by
  have hdigits : ∀ m : ℕ, c ∈ m.repr.toList → c.isDigit = true := by
    intro m hm
    rw [Nat.toList_repr] at hm
    exact Nat.isDigit_of_mem_toDigits (by decide) (by decide) hm
  rw [pyStrInt, Int.toString_eq_repr, Int.repr_eq_if] at hc
  split at hc
  · exact Or.inl (hdigits _ hc)
  · rw [String.toList_append, List.mem_append] at hc
    exact hc.symm.imp (hdigits _) (by simp)

example : pyFormat "a{}b{}".toList [pyStrInt (-12), "{}".toList] = "a-12b{}".toList ∧
    pyInt " 1_0 ".toList = some 10 ∧ pyInt "1__0".toList = none := by
  decide +kernel

/-- What stands in front of a text that does not begin with a space loses its own spaces only. -/
theorem dropWhile_append_of_head {α : Type*} {p : α → Bool} {a : α} (ha : p a = false)
    (pre t : List α) : (pre ++ a :: t).dropWhile p = pre.dropWhile p ++ a :: t := by
  induction pre with
  | nil => rw [List.nil_append, List.dropWhile_cons_of_neg (by simp [ha])]; rfl
  | cons c pre ih =>
    rw [List.cons_append, List.dropWhile_cons, List.dropWhile_cons]
    split
    · exact ih
    · rfl

/-- A text without spaces, with anything in front of it, and spaces behind it. -/
theorem pyStrip_append {u eol : Text} (hu : u ≠ []) (hns : ∀ c ∈ u, isPySpace c = false)
    (heol : ∀ c ∈ eol, isPySpace c = true) (pre : Text) :
    pyStrip (pre ++ (u ++ eol)) = pre.dropWhile isPySpace ++ u := by
  obtain ⟨u₁, b, rfl⟩ := List.eq_nil_or_concat u |>.resolve_left hu
  obtain ⟨a, u₂, hu₂⟩ := List.exists_cons_of_ne_nil hu
  have ha : isPySpace a = false := hns a (by rw [hu₂]; exact List.mem_cons_self)
  have hb : isPySpace b = false := hns b (by simp)
  have hleft : (pre ++ (u₁.concat b ++ eol)).dropWhile isPySpace =
      pre.dropWhile isPySpace ++ (u₁.concat b ++ eol) := by
    rw [hu₂, List.cons_append, dropWhile_append_of_head ha]
  have hright : (eol.reverse ++ b :: (u₁.reverse ++ (pre.dropWhile isPySpace).reverse)).dropWhile
      isPySpace = b :: (u₁.reverse ++ (pre.dropWhile isPySpace).reverse) := by
    have hall : eol.reverse.dropWhile isPySpace = [] := by
      rw [List.dropWhile_eq_nil_iff]
      exact fun c hc => heol c (List.mem_reverse.mp hc)
    rw [dropWhile_append_of_head hb, hall, List.nil_append]
  have hrev : (pre.dropWhile isPySpace ++ (u₁.concat b ++ eol)).reverse =
      eol.reverse ++ b :: (u₁.reverse ++ (pre.dropWhile isPySpace).reverse) := by simp
  rw [pyStrip, hleft, hrev, hright]
  simp

theorem pyStrip_of_noSpace {u : Text} (hns : ∀ c ∈ u, isPySpace c = false) : pyStrip u = u := by
  by_cases hu : u = []
  · subst hu
    rfl
  · have heol : ∀ c ∈ ([] : Text), isPySpace c = true := fun _ hc => absurd hc List.not_mem_nil
    have h := pyStrip_append hu hns heol []
    rwa [List.append_nil, List.dropWhile_nil, List.nil_append] at h

/-! ### Decimal digits -/

theorem isDigit_bounds {c : Char} (h : c.isDigit = true) : 48 ≤ c.toNat ∧ c.toNat ≤ 57 := by
  simpa [Char.isDigit, UInt32.le_iff_toNat_le] using h

theorem pyDecimal_of_isDigit {c : Char} (h : c.isDigit = true) : pyDecimal c = some (c.toNat - 48) := by
  obtain ⟨h₁, h₂⟩ := isDigit_bounds h
  rw [pyDecimal, decimalZeros, List.find?_cons_of_pos (by simp; omega)]
  rfl

theorem isPySpace_of_isDigit {c : Char} (h : c.isDigit = true) : isPySpace c = false := by
  obtain ⟨h₁, h₂⟩ := isDigit_bounds h
  simp only [isPySpace, Bool.or_eq_false_iff, Bool.and_eq_false_iff, decide_eq_false_iff_not]
  omega

theorem pyDigits_cons {c : Char} (h : c.isDigit = true) (n : ℕ) (digit : Bool) (s : Text) :
    pyDigits n digit (c :: s) = pyDigits (10 * n + (c.toNat - 48)) true s := by
  have hc : c ≠ '_' := by
    rintro rfl
    exact absurd h (by decide)
  rw [pyDigits.eq_3 _ _ _ _ (by simpa using hc), pyDecimal_of_isDigit h, Option.bind_some]

theorem pyDigits_of_isDigit {s : Text} (h : ∀ c ∈ s, c.isDigit = true) (n : ℕ) :
    pyDigits n true s = some (Nat.ofDigitChars 10 s n) := by
  induction s generalizing n with
  | nil => rfl
  | cons c s ih =>
    rw [pyDigits_cons (h c List.mem_cons_self), ih fun d hd => h d (List.mem_cons_of_mem _ hd),
      Nat.ofDigitChars_cons]
    rfl

/-- `int` reads decimal digits. -/
theorem pyInt_of_isDigit {s : Text} (hne : s ≠ []) (h : ∀ c ∈ s, c.isDigit = true) :
    pyInt s = some (Nat.ofDigitChars 10 s 0 : ℤ) := by
  obtain ⟨c, s, rfl⟩ := List.exists_cons_of_ne_nil hne
  have hc := h c List.mem_cons_self
  have hminus : c ≠ '-' := by
    rintro rfl
    exact absurd hc (by decide)
  have hplus : c ≠ '+' := by
    rintro rfl
    exact absurd hc (by decide)
  have hdigits : pyDigits 0 false (c :: s) = some (Nat.ofDigitChars 10 (c :: s) 0) := by
    rw [pyDigits_cons hc, pyDigits_of_isDigit fun d hd => h d (List.mem_cons_of_mem _ hd),
      Nat.ofDigitChars_cons]
    rfl
  rw [pyInt, pyStrip_of_noSpace fun d hd => isPySpace_of_isDigit (h d hd)]
  split
  · rename_i heq
    exact absurd (List.cons.inj heq).1 hminus
  · rename_i heq
    exact absurd (List.cons.inj heq).1 hplus
  · rw [hdigits]
    rfl

end Common
