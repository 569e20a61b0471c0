import MaixSpeech.Common.Delete

/-!
# When a block settles

A generator keeps an info in a text: it deletes what stands between the first start marker and the
last stop marker, wherever else that stands, and puts the info in front of every stop marker. A
second time this changes nothing exactly when the text without the old info has its first start
marker directly in front of its last stop marker and the info stands nowhere in it (`settles_iff`).

The copies that the second run deletes and the places where the first one has put the info are
compared from the left. Deleting is never behind (`BlockLines.catch_up`), so that at each stop marker
both have passed the same text (`BlockLines.in_step`).
-/

namespace Common

variable {α : Type*} {nl b : α} {s e i p t u v r : List α}

/-- The first start marker is directly in front of the last stop marker, and the info stands
nowhere. -/
structure HasBlock (start stop info t : List α) : Prop where
  block : ∃ w v, t = w ++ (start ++ (stop ++ v)) ∧ FirstAt start w ∧ ¬ stop <:+: stop.tail ++ v
  info : ¬ info <:+: t

/-- A text without a newline is found again in front of the first newline. -/
theorem eq_or_of_append_cons {x y : List α} (he : nl ∉ e) (h : e ++ nl :: v = x ++ nl :: y) :
    e = x ∨ ∃ x', x = e ++ nl :: x' := by
  rcases List.append_eq_append_iff.mp h with ⟨w, hx, hw⟩ | ⟨w, hx, hw⟩
  · cases w with
    | nil => exact Or.inl (by rw [hx, List.append_nil])
    | cons c w =>
      rw [List.cons_append, List.cons.injEq] at hw
      exact Or.inr ⟨w, by rw [hx, hw.1]⟩
  · cases w with
    | nil => exact Or.inl (by rw [hx, List.append_nil])
    | cons c w =>
      rw [List.cons_append, List.cons.injEq] at hw
      exact absurd (by rw [hx, hw.1]; exact List.mem_append_right _ List.mem_cons_self) he

theorem ne_nil_of_mark (hI : mark nl i <:+: r) : r ≠ [] := by
  rintro rfl
  exact mark_ne_nil nl i (List.infix_nil.mp hI)

/-- A pattern does not reach into a part that has none of its elements. -/
theorem infix_of_infix_append {x u v : List α} (hx : x ≠ []) (hv : ∀ c ∈ x, c ∉ v)
    (hin : x <:+: u ++ v) : x <:+: u := by
  rcases List.infix_append_iff_ne_nil.mp hin with hu | hin | ⟨l, r, -, hr, rfl, -, hpre⟩
  · exact hu
  · obtain ⟨c, x, rfl⟩ := List.exists_cons_of_ne_nil hx
    exact absurd (hin.subset List.mem_cons_self) (hv c List.mem_cons_self)
  · obtain ⟨c, r, rfl⟩ := List.exists_cons_of_ne_nil hr
    exact absurd (hpre.subset List.mem_cons_self) (hv c (by simp))

variable [DecidableEq α]

namespace BlockLines

variable (h : BlockLines nl b s e i)
include h

/-! ## The second run deletes the info -/

/-- Deleting the info takes back putting it in. -/
theorem delete_putBefore (u : List α) (ht : ¬ mark nl i <:+: u ++ t) :
    pyReplace (mark nl i) [] (u ++ putBefore (mark nl e) (mark nl i) t) = u ++ t := by
  have hE := mark_ne_nil nl e
  have hI := mark_ne_nil nl i
  induction t using firstAt_induction hE generalizing u with
  | rest t hfree => rw [putBefore_of_free hfree, delete_of_free hI ht]
  | first p t hp ih =>
    have hfirst : FirstAt (mark nl i) (u ++ p) := h.firstAt_info fun hin => ht <| by
      have hpre : u ++ p ++ [nl] <+: u ++ (p ++ (mark nl e ++ t)) := ⟨e ++ [nl] ++ t, by simp [mark]⟩
      exact hin.trans hpre.isInfix
    have hrest : ¬ mark nl i <:+: mark nl e ++ t := fun hin =>
      ht (List.infix_append_of_infix_right (List.infix_append_of_infix_right hin))
    rw [putBefore_firstAt hE hp, ← List.append_assoc, pyReplace_firstAt hI hfirst, ih _ hrest]
    simp

theorem stop_not_infix_start : ¬ mark nl e <:+: mark nl s := by
  rw [mark_line_infix_iff h.stop, inner_mark, List.splitOn_eq_singleton h.start,
    List.mem_singleton]
  exact h.start_ne_stop.symm

theorem stop_not_infix_info : ¬ mark nl e <:+: mark nl i := by
  rw [mark_line_infix_iff h.stop, inner_mark]
  exact h.stop_notMem

/-- Whether the text ends with a start marker is seen behind the last stop marker. -/
theorem suffix_putBefore_iff :
    mark nl s <:+ putBefore (mark nl e) (mark nl i) t ↔ mark nl s <:+ t := by
  by_cases ht : mark nl e <:+: t
  · obtain ⟨pre, v, rfl, -, hput⟩ := exists_putBefore_last (mark_ne_nil nl e) (mark nl i) ht
    have hsuf : ∀ x : List α, mark nl s <:+ x ++ (mark nl e ++ v) ↔ mark nl s <:+ mark nl e ++ v := by
      intro x
      refine ⟨fun hs => ?_, List.suffix_append_of_suffix⟩
      refine (List.suffix_or_suffix_of_suffix hs (List.suffix_append x _)).resolve_right fun hv => ?_
      exact h.stop_not_infix_start ((List.prefix_append _ v).isInfix.trans hv.isInfix)
    rw [hput, ← List.append_assoc, hsuf, hsuf]
  · rw [putBefore_of_free ht]

/-- Whether that start marker is the first one is not changed. -/
theorem firstAt_start_iff {a w : List α}
    (heq : putBefore (mark nl e) (mark nl i) (w ++ mark nl s) = a ++ mark nl s) :
    FirstAt (mark nl s) a ↔ FirstAt (mark nl s) w := by
  have hcount := h.count_putBefore h.start_notMem h.start_ne_nil (w ++ mark nl s)
  have hhead := h.head?_putBefore (w ++ mark nl s)
  have hsplit : ∀ x : List α, (x ++ mark nl s).splitOn nl = x.splitOn nl ++ [s, []] := by
    intro x
    rw [splitOn_append_mark, List.splitOn_eq_singleton h.start, List.singleton_append]
  obtain ⟨x, A, hA⟩ := List.exists_cons_of_ne_nil (List.splitOn_ne_nil nl a)
  obtain ⟨y, W, hW⟩ := List.exists_cons_of_ne_nil (List.splitOn_ne_nil nl w)
  rw [heq, hsplit, hsplit, hA, hW] at hcount hhead
  have hxy : x = y := Option.some.inj hhead
  simp only [List.count_append, List.count_cons, hxy] at hcount
  rw [firstAt_mark_line h.start, firstAt_mark_line h.start, hA, hW, List.tail_cons, List.tail_cons,
    ← List.count_eq_zero, ← List.count_eq_zero]
  omega

/-- The second run finds the info of the first one in the block and deletes it. -/
theorem group_of_hasBlock (ht : HasBlock (mark nl s) (mark nl e) (mark nl i) t) :
    searchGroup (mark nl s) (mark nl e) (putBefore (mark nl e) (mark nl i) t) = some (mark nl i) ∧
      pyReplace (mark nl i) [] (putBefore (mark nl e) (mark nl i) t) = t := by
  obtain ⟨⟨w, v, rfl, hw, hv⟩, hinfo⟩ := ht
  have hE := mark_ne_nil nl e
  have hfree : ¬ mark nl e <:+: v := fun hin => hv (List.infix_append_of_infix_right hin)
  have hput := h.putBefore_append (u := w ++ mark nl s)
    (Or.inr ⟨w ++ nl :: s, by simp [mark]⟩) v
  rw [putBefore_of_free hfree, List.append_assoc] at hput
  obtain ⟨a, ha⟩ := h.suffix_putBefore_iff.mpr (List.suffix_append w (mark nl s))
  constructor
  · rw [hput, ← ha, List.append_assoc]
    exact searchGroup_firstAt hE ((h.firstAt_start_iff ha.symm).mpr hw) hv _
  · exact h.delete_putBefore [] hinfo

/-! ## What the second run deletes -/

theorem start_not_infix_info : ¬ mark nl s <:+: mark nl i ++ nl :: e := by
  have hsplit := splitOn_append_mark nl [] i
  rw [List.nil_append, List.splitOn_nil] at hsplit
  rw [mark_line_infix_iff h.start, inner_append_cons, hsplit, List.splitOn_eq_singleton h.stop]
  simp [h.start_notMem, h.start_ne_nil]

/-- The last stop marker of a text is the last one that is found, or shares its newline. -/
theorem eq_nil_or_of_append_stop {d v' : List α} (hv : ¬ mark nl e <:+: v)
    (hd : d ++ (mark nl e ++ v') = mark nl e ++ v) : d = [] ∨ d = nl :: e := by
  cases d with
  | nil => exact Or.inl rfl
  | cons c d =>
    simp only [mark, List.cons_append, List.append_assoc, List.nil_append, List.cons.injEq] at hd
    obtain ⟨rfl, hd⟩ := hd
    rcases eq_or_of_append_cons h.stop hd.symm with rfl | ⟨d, rfl⟩
    · exact Or.inr rfl
    · -- the last stop marker would be behind the last one
      rw [List.append_assoc, List.cons_append, List.append_cancel_left_eq, List.cons.injEq] at hd
      refine absurd ?_ hv
      rw [← hd.2]
      exact ⟨d, v', by simp [mark]⟩

/-- The group that is found in the text of the first run. -/
structure Group (nl : α) (s e i t r : List α) (a pre d v : List α) : Prop where
  put : putBefore (mark nl e) (mark nl i) t = a ++ (mark nl s ++ (r ++ (mark nl e ++ v)))
  first : FirstAt (mark nl s) a
  last : ¬ mark nl e <:+: (mark nl e).tail ++ v
  text : t = pre ++ (d ++ (mark nl e ++ v))
  group : a ++ (mark nl s ++ r) = putBefore (mark nl e) (mark nl i) pre ++ (mark nl i ++ d)
  shared : d = [] ∨ d = nl :: e

/-- The group reaches to the info in front of the last stop marker that is found. -/
theorem exists_group
    (hr : searchGroup (mark nl s) (mark nl e) (putBefore (mark nl e) (mark nl i) t) = some r) :
    ∃ a pre d v, Group nl s e i t r a pre d v := by
  have hE := mark_ne_nil nl e
  obtain ⟨a, v, hput, ha, hv⟩ := searchGroup_eq_some (mark_ne_nil nl s) hE hr
  have hin : mark nl e <:+: t := by
    by_contra hfree
    rw [putBefore_of_free hfree] at hput
    exact hfree ⟨a ++ (mark nl s ++ r), v, by rw [hput]; simp⟩
  obtain ⟨pre, v', rfl, hv', hlast⟩ := exists_putBefore_last hE (mark nl i) hin
  have hsuf : mark nl e ++ v <:+ putBefore (mark nl e) (mark nl i) (pre ++ (mark nl e ++ v')) :=
    ⟨a ++ (mark nl s ++ r), by rw [hput]; simp⟩
  have hsuf' : mark nl e ++ v' <:+ putBefore (mark nl e) (mark nl i) (pre ++ (mark nl e ++ v')) :=
    ⟨putBefore (mark nl e) (mark nl i) pre ++ mark nl i, by rw [hlast]; simp⟩
  have hlen : v.length ≤ v'.length := by
    by_contra hlt
    have htail : (mark nl e).tail ++ v <:+ mark nl e ++ v := List.suffix_cons nl _
    refine hv ((List.prefix_append _ v').isInfix.trans ?_)
    refine (List.suffix_of_suffix_length_le hsuf' (htail.trans hsuf) ?_).isInfix
    simp only [List.length_append, List.length_tail]
    omega
  obtain ⟨d, hd⟩ := List.suffix_of_suffix_length_le hsuf hsuf' (by
    simp only [List.length_append]
    omega)
  refine ⟨a, pre, d, v, hput, ha, hv, by rw [hd], ?_, h.eq_nil_or_of_append_stop hv' hd⟩
  rw [hlast, ← hd] at hput
  simp only [← List.append_assoc] at hput ⊢
  exact (List.append_cancel_right (List.append_cancel_right hput)).symm

/-- The group has the info in it, or misses no more than its first newline. -/
theorem infix_or_of_group {a pre d : List α} (hg : Group nl s e i t r a pre d v) :
    mark nl i <:+: r ∨ r = (mark nl i).tail ++ d := by
  have hd : mark nl i ++ d <+: mark nl i ++ nl :: e := by
    rcases hg.shared with rfl | rfl
    · exact (List.prefix_append_right_inj _).mpr (List.nil_prefix)
    · exact List.prefix_rfl
  have hgroup := hg.group
  rw [← List.append_assoc] at hgroup
  rcases List.append_eq_append_iff.mp hgroup with ⟨w, hw, hr⟩ | ⟨w, hw, hr⟩
  · exact Or.inl ⟨w, d, by rw [hr, List.append_assoc]⟩
  cases w with
  | nil => exact Or.inl ⟨[], d, by rw [List.nil_append, hr, List.nil_append]⟩
  | cons c w =>
    -- the start marker ends in the info, so with the newline
    have hsuf : c :: w <:+ a ++ mark nl s := by
      rw [hw]
      exact List.suffix_append _ _
    rcases List.suffix_or_suffix_of_suffix hsuf (List.suffix_append a (mark nl s)) with hws | hsw
    · obtain ⟨z, hz⟩ := hws
      cases z with
      | nil =>
        refine absurd ?_ h.start_not_infix_info
        rw [List.nil_append] at hz
        refine List.IsInfix.trans ?_ hd.isInfix
        rw [hr, hz]
        exact (List.prefix_append _ r).isInfix
      | cons c' z =>
        right
        rw [mark, List.cons_append, List.cons_append, List.cons.injEq] at hr
        obtain ⟨rfl, hr⟩ := hr
        rw [mark, List.cons_append, List.cons.injEq] at hz
        rcases eq_or_of_append_cons h.start hz.2.symm with rfl | ⟨z, rfl⟩
        · have hw : w = [] := by simpa using hz.2
          rw [hw, List.nil_append] at hr
          exact hr.symm
        · simp at hz
    · refine absurd ?_ h.start_not_infix_info
      refine hsw.isInfix.trans (List.IsInfix.trans ?_ hd.isInfix)
      rw [hr]
      exact (List.prefix_append _ r).isInfix

theorem letter_mem : b ∈ i := by
  obtain ⟨l, ls, hl⟩ := List.exists_cons_of_ne_nil (List.splitOn_ne_nil nl i)
  have hmem : l ∈ i.splitOn nl := by
    rw [hl]
    exact List.mem_cons_self
  exact mem_of_mem_splitOn hmem (h.letter l hmem)

/-- The group does not miss the newline: it would be deleted as often as the info has been put in,
and is not as long. -/
theorem infix_group {a pre d : List α} (hg : Group nl s e i t r a pre d v)
    (hdel : pyReplace r [] (putBefore (mark nl e) (mark nl i) t) = t) : mark nl i <:+: r := by
  refine (h.infix_or_of_group hg).resolve_right fun htail => ?_
  have hr : r ≠ [] := by
    rw [htail]
    simp [mark]
  obtain ⟨k, hklen, hkcount, hkpos⟩ := exists_count_putBefore (mark_ne_nil nl e) (mark nl i) t
  obtain ⟨n, hnlen, hncount, -⟩ := exists_count_delete hr (putBefore (mark nl e) (mark nl i) t)
  have hstop : mark nl e <:+: t := ⟨pre ++ d, v, by rw [hg.text]; simp⟩
  have hletter : (mark nl i).count b = i.count b ∧ r.count b = i.count b := by
    rcases hg.shared with rfl | rfl <;>
      simp [htail, mark, h.letter_ne.symm, List.count_eq_zero.mpr h.letter_stop]
  have hn : n = k := by
    have hcount := hkcount b
    rw [hncount b, hdel, hletter.1, hletter.2, Nat.add_left_cancel_iff] at hcount
    exact Nat.eq_of_mul_eq_mul_right (List.count_pos_iff.mpr h.letter_mem) hcount
  rw [hnlen, hdel, hn, Nat.add_left_cancel_iff] at hklen
  have hlen := Nat.eq_of_mul_eq_mul_left (hkpos hstop) hklen
  have hpos := List.length_pos_iff.mpr h.stop_ne_nil
  rcases hg.shared with rfl | rfl
  · simp [htail, mark] at hlen
  · simp only [htail, mark, List.tail_cons, List.length_cons, List.length_append] at hlen
    omega

/-- A group without a start marker is deleted itself: none that begins earlier reaches into it. -/
theorem delete_group {a pre d : List α} (hg : Group nl s e i t r a pre d v) (hI : mark nl i <:+: r)
    (hsr : ¬ mark nl s <:+: r) :
    pyReplace r [] (putBefore (mark nl e) (mark nl i) t) =
      pyReplace r [] (a ++ mark nl s) ++ pyReplace r [] (mark nl e ++ v) := by
  have hr := ne_nil_of_mark hI
  have hcut : ∀ w, w <:+ a ++ mark nl s → w ≠ [] → r <+: w ++ (r ++ (mark nl e ++ v)) →
      r <+: w := by
    intro w hw hne hp
    by_contra hnot
    have hlen : w.length ≤ r.length := by
      by_contra hlt
      exact hnot (List.prefix_of_prefix_length_le hp (List.prefix_append w _) (by omega))
    have hwr : w <+: r := List.prefix_of_prefix_length_le (List.prefix_append w _) hp hlen
    rcases List.suffix_or_suffix_of_suffix hw (List.suffix_append a (mark nl s)) with hws | hsw
    · -- the group repeats `w`, which has no letter of the info
      have hb : b ∈ mark nl s :=
        hws.subset (mem_of_repeated hne hp b (hI.subset (by simp [mark, h.letter_mem])))
      simp [mark, h.letter_ne, h.letter_start] at hb
    · exact hsr (hsw.isInfix.trans hwr.isInfix)
  rw [hg.put, ← List.append_assoc, delete_append hr hcut, pyReplace_self_append hr, List.nil_append]

/-- No stop marker is deleted with the group. -/
theorem stop_not_infix_group {a pre d : List α} (hg : Group nl s e i t r a pre d v)
    (hdel : pyReplace r [] (putBefore (mark nl e) (mark nl i) t) = t) : ¬ mark nl e <:+: r := by
  intro her
  have hI := h.infix_group hg hdel
  have hr := ne_nil_of_mark hI
  have hcounts := h.count_putBefore h.start_notMem h.start_ne_nil t
  have hcounte := h.count_putBefore h.stop_notMem h.stop_ne_nil t
  have hin : r <:+: putBefore (mark nl e) (mark nl i) t :=
    ⟨a ++ mark nl s, mark nl e ++ v, by rw [hg.put]; simp⟩
  by_cases hsr : mark nl s <:+: r
  · have hlt := count_splitOn_delete_lt hr h.start h.stop h.start_ne_stop hsr her hin
    rw [hdel] at hlt
    omega
  · have hsplit := h.delete_group hg hI hsr
    have hle := count_splitOn_delete_le hr h.stop her [] (a ++ mark nl s)
      (pyReplace r [] (mark nl e ++ v))
    have hle' := count_splitOn_delete_le hr h.stop her (a ++ mark nl s) (mark nl e ++ v) []
    rw [List.nil_append, List.nil_append, ← hsplit, hdel] at hle
    rw [List.append_nil, List.append_nil] at hle'
    have hwith : (putBefore (mark nl e) (mark nl i) t).splitOn nl =
        a.splitOn nl ++ s :: (r.splitOn nl ++ e :: v.splitOn nl) := by
      rw [hg.put, splitOn_mark_line h.start, splitOn_mark_line h.stop]
    have hwithout : (a ++ mark nl s ++ (mark nl e ++ v)).splitOn nl =
        a.splitOn nl ++ s :: [] :: e :: v.splitOn nl := by
      rw [List.append_assoc, splitOn_mark_line h.start, splitOn_mark_line_append h.stop]
    have hmem := List.count_pos_iff.mpr (mem_splitOn_of_mark h.stop her [] [])
    rw [List.append_nil, List.nil_append] at hmem
    rw [hwith] at hcounte
    rw [hwithout] at hle'
    have hne : ([] == e) = false := by simpa using h.stop_ne_nil.symm
    simp only [List.count_append, List.count_cons, hne, beq_self_eq_true, if_true] at hcounte hle'
    simp only [Bool.false_eq_true, if_false] at hle'
    omega

/-! ## Both runs in step -/

/-- A text that commutes with the info begins with it. -/
theorem eq_nil_of_append_comm {g : List α} (hg : ¬ mark nl i <+: g)
    (hcomm : g ++ mark nl i = mark nl i ++ g) : g = [] := by
  rcases List.append_eq_append_iff.mp hcomm with ⟨x, hx, hx'⟩ | ⟨x, hx, -⟩
  · cases g with
    | nil => rfl
    | cons c g =>
      cases x with
      | nil => exact absurd ⟨[], by rw [hx]; simp⟩ hg
      | cons d x =>
        -- the first line of the info would be in it again
        rw [mark, List.cons_append, List.cons.injEq] at hx hx'
        obtain ⟨rfl, hx⟩ := hx
        obtain ⟨rfl, hx'⟩ := hx'
        obtain ⟨l, ls, hl⟩ := List.exists_cons_of_ne_nil (List.splitOn_ne_nil nl i)
        obtain ⟨y, Y, hY⟩ := List.exists_cons_of_ne_nil (List.splitOn_ne_nil nl g)
        obtain ⟨z, Z, hZ⟩ := List.exists_cons_of_ne_nil (List.splitOn_ne_nil nl x)
        have hlines := congrArg (List.splitOn nl) hx
        have hlines' := congrArg (List.splitOn nl) hx'
        rw [List.splitOn_append_cons_self, List.splitOn_append_cons_self, List.splitOn_nil, hl, hY,
          hZ, List.cons_append, List.cons_append, List.cons.injEq] at hlines hlines'
        have hmem : l ∈ ls ++ [[]] := by
          rw [hlines.2, hlines'.1]
          simp
        have hls := h.first l ls hl
        have hnil := h.nil_notMem
        rw [hl] at hnil
        simp only [List.mem_append, List.mem_singleton, hls, false_or] at hmem
        exact absurd (by rw [hmem]; exact List.mem_cons_self) hnil
  · exact absurd ⟨x, hx.symm⟩ hg

/-- The info does not reach from a text into a stop marker. -/
theorem not_infix_append {q : List α} (hq : FirstAt (mark nl i) q)
    (ht : ¬ mark nl i <:+: mark nl e ++ t) : ¬ mark nl i <:+: q ++ (mark nl e ++ t) := by
  intro hin
  rcases List.infix_append_iff_ne_nil.mp hin with hin | hin | ⟨x, y, -, hy, hxy, hsuf, z, hz⟩
  · exact hq (List.infix_append_of_infix_left hin)
  · exact ht hin
  · obtain ⟨g, hg⟩ := exists_concat_of_suffix_mark ⟨x, hxy.symm⟩ hy
    cases g with
    | nil =>
      obtain ⟨u, rfl⟩ := hsuf
      refine hq ⟨u, i, ?_⟩
      rw [mark_dropLast, hxy, hg]
      simp
    | cons d g =>
      rw [hg] at hz
      simp only [mark, List.cons_append, List.append_assoc, List.nil_append, List.cons.injEq] at hz
      have hstop : mark nl e <+: y := by
        rcases eq_or_of_append_cons h.stop hz.2.symm with rfl | ⟨g, rfl⟩
        · rw [hg, hz.1]
          exact List.prefix_rfl
        · rw [hg, hz.1]
          exact ⟨g ++ [nl], by simp [mark]⟩
      apply h.stop_not_infix_info
      rw [hxy]
      exact hstop.isInfix.trans (List.suffix_append x y).isInfix

section InStep

variable (hI : mark nl i <:+: r) (hE : ¬ mark nl e <:+: r)
include hI hE

/-- No copy begins in an info behind its first newline, or where the stop marker does. -/
theorem not_prefix_of_suffix_tail {w : List α} (hw : w <:+ (mark nl i).tail) (t : List α) :
    ¬ r <+: w ++ (mark nl e ++ t) := by
  intro hp
  rw [← List.append_assoc] at hp
  by_cases hlen : (w ++ mark nl e).length ≤ r.length
  · have hpre := List.prefix_of_prefix_length_le (List.prefix_append _ t) hp hlen
    exact hE ((List.suffix_append w _).isInfix.trans hpre.isInfix)
  · have hlen' : r.length ≤ (w ++ (mark nl e).dropLast).length := by
      simp only [List.length_append, List.length_dropLast] at hlen ⊢
      omega
    have hpre : w ++ (mark nl e).dropLast <+: w ++ mark nl e ++ t :=
      ((List.prefix_append_right_inj w).mpr (List.dropLast_prefix _)).trans
        (List.prefix_append _ t)
    refine h.not_infix_tail_append (hI.trans ?_)
    refine (List.prefix_of_prefix_length_le hp hpre hlen').isInfix.trans ?_
    obtain ⟨z, hz⟩ := hw
    exact ⟨z, [], by rw [← hz]; simp⟩

/-- What begins in an info is not deleted there. -/
theorem delete_suffix_info {c : α} {w : List α} (hw : c :: w <:+ mark nl i)
    (hstart : ¬ r <+: c :: w ++ (mark nl e ++ t)) :
    pyReplace r [] (c :: w ++ (mark nl e ++ t)) =
      c :: w ++ nl :: pyReplace r [] (e ++ [nl] ++ t) := by
  have hr := ne_nil_of_mark hI
  have htail : w <:+ (mark nl i).tail := by
    obtain ⟨z, hz⟩ := hw
    cases z with
    | nil => exact ⟨[], by rw [← hz]; rfl⟩
    | cons d z => exact ⟨z ++ [c], by rw [← hz]; simp⟩
  have hfree : ¬ r <:+: w := by
    intro hin
    have hlen := (hI.trans (hin.trans htail.isInfix)).length_le
    rw [mark, List.tail_cons, List.length_append, List.length_cons, List.length_append] at hlen
    omega
  have hcut : ∀ x, x <:+ w → x ≠ [] → r <+: x ++ (mark nl e ++ t) → r <+: x := fun x hx _ hp =>
    absurd hp (h.not_prefix_of_suffix_tail hI hE (hx.trans htail) t)
  have hstop : ¬ r <+: nl :: (e ++ [nl] ++ t) :=
    h.not_prefix_of_suffix_tail hI hE List.nil_suffix t
  rw [List.cons_append] at hstart ⊢
  rw [pyReplace_cons hr hstart, delete_append hr hcut, delete_of_free hr hfree,
    mark, List.cons_append, pyReplace_cons hr hstop, List.cons_append]

omit hI hE in
/-- A text that begins in an info and goes on with a newline behind it has no stop marker in front:
its lines up to there are those of the info. -/
theorem suffix_info_append_ne {w : List α} (hw : w <:+ mark nl i) (hne : w ≠ []) :
    w ++ nl :: t ≠ mark nl e ++ u := by
  intro heq
  obtain ⟨g, rfl⟩ := exists_concat_of_suffix_mark hw hne
  have hlines := congrArg (List.splitOn nl) heq
  rw [splitOn_mark_line_append h.stop, List.append_assoc, List.singleton_append,
    List.splitOn_append_cons_self, ← List.nil_append (nl :: t), List.splitOn_append_cons_self,
    List.splitOn_nil] at hlines
  obtain ⟨y, Y, hY⟩ := List.exists_cons_of_ne_nil (List.splitOn_ne_nil nl g)
  rw [hY, List.cons_append, List.cons_append, List.cons.injEq] at hlines
  cases Y with
  | nil => exact h.stop_ne_nil (List.cons.inj hlines.2).1.symm
  | cons y' Y =>
    have hmem : e ∈ inner nl (g ++ [nl]) := by
      rw [inner_append_cons, hY, ← (List.cons.inj hlines.2).1]
      simp
    exact h.stop_not_infix_info (((mark_line_infix_iff h.stop).mpr hmem).trans hw.isInfix)

/-- So the info is still in front of the stop marker. -/
theorem delete_ne_of_suffix_info {w : List α} (hw : w <:+ mark nl i) (hne : w ≠ [])
    (hstart : ¬ r <+: w ++ (mark nl e ++ t)) :
    pyReplace r [] (w ++ (mark nl e ++ t)) ≠ mark nl e ++ u := by
  obtain ⟨c, w, rfl⟩ := List.exists_cons_of_ne_nil hne
  rw [h.delete_suffix_info hI hE hw hstart]
  exact h.suffix_info_append_ne hw hne

/-- **Deleting is not behind**: at a stop marker the info in front of it has been passed. -/
theorem catch_up {w : List α} (hw : w <:+ mark nl i ++ (mark nl e ++ t)) (hstart : ¬ r <+: w)
    (hdel : pyReplace r [] w = mark nl e ++ u) : w <:+ mark nl e ++ t := by
  obtain ⟨z, hz⟩ := hw
  rcases List.append_eq_append_iff.mp hz with ⟨x, hx, rfl⟩ | ⟨x, -, hx⟩
  · by_cases hne : x = []
    · rw [hne, List.nil_append]
    · exact absurd hdel (h.delete_ne_of_suffix_info hI hE ⟨z, hx.symm⟩ hne hstart)
  · exact ⟨x, hx.symm⟩

/-- Up to a stop marker, whole copies are passed over besides the text that is read. -/
theorem exists_read_stop {q w : List α} (hw : w <:+ q ++ (mark nl i ++ (mark nl e ++ t)))
    (hdel : pyReplace r [] w = q ++ (mark nl e ++ u)) :
    ∃ x w' m, w = x ++ w' ∧ w' <:+ mark nl e ++ t ∧ pyReplace r [] w' = mark nl e ++ u ∧
      x.length = q.length + m * r.length ∧ (m = 0 → x = q) := by
  obtain ⟨x, w', m, rfl, hdel', hstart, hlen, hm⟩ := exists_read (ne_nil_of_mark hI) hdel
  refine ⟨x, w', m, rfl, h.catch_up hI hE ?_ hstart hdel', hdel', hlen, fun h0 => (hm h0).1⟩
  refine List.suffix_of_suffix_length_le ((List.suffix_append x w').trans hw)
    (List.suffix_append q _) ?_
  have hle := hw.length_le
  simp only [List.length_append] at hle ⊢
  omega

/-- What is read of the text behind a stop marker, when both runs are in step there. -/
def InStep (nl : α) (e i r t : List α) : Prop :=
  ∀ w, w <:+ mark nl e ++ putBefore (mark nl e) (mark nl i) t →
    pyReplace r [] w = mark nl e ++ t →
      w = mark nl e ++ putBefore (mark nl e) (mark nl i) t ∧ ¬ r <:+: mark nl e ++ t

omit hI hE in
/-- When one info is put in and deleted, no earlier one is there. -/
theorem firstAt_of_inStep {q : List α} (hstep : InStep nl e i (mark nl i) t)
    (hdel : pyReplace (mark nl i) [] (q ++ (mark nl i ++ (mark nl e ++
      putBefore (mark nl e) (mark nl i) t))) = q ++ (mark nl e ++ t)) :
    FirstAt (mark nl i) q := by
  have hI := mark_ne_nil nl i
  obtain ⟨g, g', hg, hfirst⟩ := exists_firstAt hI (List.suffix_append q (mark nl i)).isInfix
  have hlen := congrArg List.length hg
  simp only [List.length_append] at hlen
  obtain ⟨q', rfl⟩ : g <+: q := by
    have hgq : g <+: q ++ mark nl i := by
      rw [hg]
      exact List.prefix_append _ _
    exact List.prefix_of_prefix_length_le hgq (List.prefix_append _ _) (by omega)
  rw [← List.append_assoc, hg, List.append_assoc, List.append_assoc, pyReplace_firstAt hI hfirst,
    List.nil_append, List.append_assoc, List.append_cancel_left_eq] at hdel
  obtain ⟨x, w', m, hx, hdel', hstart, hxlen, hm⟩ := exists_read hI hdel
  have hw' : w' <:+ mark nl e ++ putBefore (mark nl e) (mark nl i) t := by
    have hsuf := List.suffix_append x w'
    rw [← hx] at hsuf
    refine List.suffix_of_suffix_length_le hsuf (List.suffix_append _ _) ?_
    have hxw := congrArg List.length hx
    simp only [List.length_append] at hxw hlen ⊢
    omega
  obtain ⟨rfl, -⟩ := hstep w' hw' hdel'
  obtain rfl := List.append_cancel_right hx
  have hm0 : m = 0 := by
    have hpos := List.length_pos_iff.mpr hI
    simp only [List.length_append] at hlen
    rcases m with - | m
    · rfl
    · rw [Nat.succ_mul] at hxlen
      omega
  obtain ⟨rfl, hnot⟩ := hm hm0
  rw [List.append_assoc, List.append_cancel_left_eq] at hg
  have hnil := h.eq_nil_of_append_comm
    (fun hp => hnot (hp.trans (List.prefix_append _ _))) hg
  rw [hnil, List.append_nil]
  exact hfirst

/-- When one info is put in and the runs are in step again, it is what is deleted, and it is not in
the text. -/
theorem eq_info_of_inStep {q : List α} (hstep : InStep nl e i r t)
    (hdel : pyReplace r [] (q ++ (mark nl i ++ (mark nl e ++
      putBefore (mark nl e) (mark nl i) t))) = q ++ (mark nl e ++ t)) :
    r = mark nl i ∧ ¬ mark nl i <:+: q ++ (mark nl e ++ t) := by
  have hr := ne_nil_of_mark hI
  obtain ⟨x, w', m, hx, hw', hdel', hlen, hm⟩ :=
    h.exists_read_stop hI hE List.suffix_rfl hdel
  obtain ⟨rfl, hfree⟩ := hstep w' hw' hdel'
  rw [← List.append_assoc] at hx
  have hxq := List.append_cancel_right hx
  rw [← hxq, List.length_append, Nat.add_left_cancel_iff] at hlen
  have hpos : 0 < (mark nl i).length := List.length_pos_iff.mpr (mark_ne_nil nl i)
  have hle := hI.length_le
  have hm1 : m = 1 := by
    rcases m with - | - | m
    · omega
    · rfl
    · rw [Nat.succ_mul, Nat.succ_mul] at hlen
      omega
  obtain rfl : mark nl i = r := hI.eq_of_length (by rw [hlen, hm1, Nat.one_mul])
  exact ⟨rfl, h.not_infix_append (h.firstAt_of_inStep hstep hdel) hfree⟩

/-- **Both runs are in step at every stop marker.** -/
theorem inStep (t : List α) : InStep nl e i r t := by
  have hr := ne_nil_of_mark hI
  induction t using firstAt_induction (mark_ne_nil nl e) with
  | rest t ht =>
    intro w hw hdel
    rw [putBefore_of_free ht] at hw ⊢
    have hfree := not_infix_of_length_delete hr (t := w) (by rw [hdel]; exact hw.length_le)
    rw [delete_of_free hr hfree] at hdel
    rw [← hdel]
    exact ⟨rfl, hfree⟩
  | first p t hp ih =>
    intro w hw hdel
    rw [putBefore_firstAt (mark_ne_nil nl e) hp, ← List.append_assoc] at hw ⊢
    rw [← List.append_assoc] at hdel ⊢
    obtain ⟨x, w', m, rfl, hw', hdel', hlen, hm⟩ := h.exists_read_stop hI hE hw hdel
    obtain ⟨rfl, -⟩ := ih w' hw' hdel'
    rw [← List.append_assoc (mark nl e ++ p), List.suffix_append_self_iff, List.append_assoc] at hw
    have hx : x = mark nl e ++ (p ++ mark nl i) := by
      refine hw.eq_of_length_le ?_
      rcases m with - | m
      · rw [hm rfl] at hw
        exact absurd hw (h.not_suffix_append_info hp)
      · have hle := hI.length_le
        rw [Nat.succ_mul] at hlen
        simp only [List.length_append] at hlen ⊢
        omega
    subst hx
    have hinfo := h.eq_info_of_inStep hI hE (q := mark nl e ++ p) ih (by simpa using hdel)
    refine ⟨by simp, ?_⟩
    rw [hinfo.1, ← List.append_assoc]
    exact hinfo.2

end InStep

/-- **Only a block settles**: when deleting the group gives the text again, the group is the info,
and the text has a block. -/
theorem hasBlock_of_delete
    (hr : searchGroup (mark nl s) (mark nl e) (putBefore (mark nl e) (mark nl i) t) = some r)
    (hdel : pyReplace r [] (putBefore (mark nl e) (mark nl i) t) = t) :
    HasBlock (mark nl s) (mark nl e) (mark nl i) t := by
  have hE := mark_ne_nil nl e
  obtain ⟨a, pre, d, v, hg⟩ := h.exists_group hr
  have hI := h.infix_group hg hdel
  have hstop := h.stop_not_infix_group hg hdel
  obtain ⟨rfl, hinfo⟩ : r = mark nl i ∧ ¬ mark nl i <:+: t := by
    have hin : mark nl e <:+: t := ⟨pre ++ d, v, by rw [hg.text]; simp⟩
    obtain ⟨p, t, rfl, hp⟩ := exists_firstAt hE hin
    rw [putBefore_firstAt hE hp] at hdel
    exact h.eq_info_of_inStep hI hstop (h.inStep hI hstop t) hdel
  have hgroup := hg.group
  rcases hg.shared with rfl | rfl
  · rw [List.append_nil, ← List.append_assoc] at hgroup
    have ha := List.append_cancel_right hgroup
    obtain ⟨w, rfl⟩ := h.suffix_putBefore_iff.mp ⟨a, ha⟩
    refine ⟨⟨w, v, ?_, (h.firstAt_start_iff ha.symm).mp hg.first, hg.last⟩, hinfo⟩
    rw [hg.text]
    simp
  · -- an info does not end like a stop marker without its newline
    have hlast := congrArg List.getLast? hgroup
    obtain ⟨x, hx⟩ := List.getLast?_isSome.mpr h.stop_ne_nil |> Option.isSome_iff_exists.mp
    simp only [mark, List.getLast?_append, List.getLast?_cons, hx, Option.getD_some, Option.some_or,
      Option.some.injEq] at hlast
    rw [← hlast] at hx
    exact absurd (List.mem_of_getLast? hx) h.stop

end BlockLines

/-- An empty block behind a text is its only one when there is no other start marker. -/
theorem BlockLines.hasBlock_append_iff (h : BlockLines nl b s e i) :
    HasBlock (mark nl s) (mark nl e) (mark nl i) (t ++ (mark nl s ++ mark nl e)) ↔
      FirstAt (mark nl s) t ∧ ¬ mark nl i <:+: t ++ [nl] := by
  have hE := mark_ne_nil nl e
  constructor
  · rintro ⟨⟨w, v, heq, hw, hv⟩, hinfo⟩
    have hvnil : v = [] := by
      by_contra hne
      have hpos := List.length_pos_iff.mpr hne
      have hstop : mark nl e <:+ t ++ (mark nl s ++ mark nl e) := ⟨t ++ mark nl s, by simp⟩
      have htail : (mark nl e).tail ++ v <:+ t ++ (mark nl s ++ mark nl e) := by
        rw [heq]
        exact ⟨w ++ (mark nl s ++ [nl]), by simp [mark]⟩
      refine hv (List.suffix_of_suffix_length_le hstop htail ?_).isInfix
      rw [List.length_append, List.length_tail]
      omega
    subst hvnil
    rw [List.append_nil] at heq
    obtain rfl := List.append_cancel_right heq
    refine ⟨hw, fun hin => hinfo (hin.trans ?_)⟩
    exact ⟨[], s ++ ([nl] ++ mark nl e), by simp [mark]⟩
  · rintro ⟨hfirst, hinfo⟩
    refine ⟨⟨t, [], by simp, hfirst, ?_⟩, fun hin => hinfo ?_⟩
    · rw [List.append_nil]
      exact not_infix_tail hE
    · have hstop := splitOn_mark_line_append h.stop ([] : List α)
      rw [List.append_nil, List.splitOn_nil] at hstop
      rw [mark_infix_iff, inner, splitOn_mark_line h.start, hstop,
        List.tail_append_of_ne_nil (List.splitOn_ne_nil nl t)] at hin
      rw [mark_infix_iff, inner_append_cons, List.splitOn_nil, List.dropLast_singleton,
        List.append_nil]
      have hdrop : ((t.splitOn nl).tail ++ [s, [], e, []]).dropLast =
          (t.splitOn nl).tail ++ [s, [], e] := List.dropLast_append_of_ne_nil (by simp)
      rw [hdrop] at hin
      refine infix_of_infix_append (List.splitOn_ne_nil nl i) (fun l hl hmem => ?_) hin
      simp only [List.mem_cons, List.not_mem_nil, or_false] at hmem
      rcases hmem with rfl | rfl | rfl
      · exact h.start_notMem hl
      · exact h.nil_notMem hl
      · exact h.stop_notMem hl

/-- **When the second run changes nothing.** -/
theorem settles_iff (h : BlockLines nl b s e i) :
    (∃ r, searchGroup (mark nl s) (mark nl e) (putBefore (mark nl e) (mark nl i) t) = some r ∧
        pyReplace r [] (putBefore (mark nl e) (mark nl i) t) = t) ↔
      HasBlock (mark nl s) (mark nl e) (mark nl i) t := by
  constructor
  · rintro ⟨r, hr, hdel⟩
    exact h.hasBlock_of_delete hr hdel
  · exact fun ht => ⟨mark nl i, h.group_of_hasBlock ht⟩

end Common
