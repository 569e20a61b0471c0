import MaixSpeech.Common.Marker

/-!
# Deleting a pattern

`pyReplace r [] t` is `t` without the copies of `r` that are found from the left. What it reads is
a text with these copies passed over (`exists_read`), and a line that is in `r` is lost with each of
them unless the lines on both sides join to it (`exists_count_splitOn_le`).

What is put in and taken out at the end of a text is compared by the letters of the two parts:
`eq_of_putBefore` and `firstAt_of_delete` find the place from the result.
-/

namespace Common

variable {α : Type*} [DecidableEq α] {nl : α} {r s e t u v : List α}

/-! ## Copies -/

theorem delete_of_free (hr : r ≠ []) (h : ¬ r <:+: t) : pyReplace r [] t = t :=
  pyReplace_of_not_infix hr h []

/-- It makes the text shorter by copies. -/
theorem exists_count_delete (hr : r ≠ []) (t : List α) :
    ∃ n, t.length = (pyReplace r [] t).length + n * r.length ∧
      (∀ c, t.count c = (pyReplace r [] t).count c + n * r.count c) ∧ (r <:+: t → 0 < n) := by
  induction t using firstAt_induction hr with
  | rest t ht =>
    refine ⟨0, ?_, ?_, fun h => absurd h ht⟩ <;> simp [delete_of_free hr ht]
  | first pre t hpre ih =>
    obtain ⟨n, hlen, hcount, -⟩ := ih
    rw [pyReplace_firstAt hr hpre]
    refine ⟨n + 1, ?_, fun c => ?_, fun _ => Nat.succ_pos n⟩
    · simp only [List.length_append, List.length_nil, hlen, Nat.succ_mul]
      omega
    · simp only [List.count_append, List.count_nil, hcount, Nat.succ_mul]
      omega

theorem not_infix_of_length_delete (hr : r ≠ []) (h : t.length ≤ (pyReplace r [] t).length) : ¬ r <:+: t := by
  intro hin
  obtain ⟨n, hlen, -, hpos⟩ := exists_count_delete hr t
  have hmul := Nat.mul_pos (hpos hin) (List.length_pos_iff.mpr hr)
  omega

/-- Where no copy runs out of `u`, the two parts are read on their own. -/
theorem delete_append {u : List α} (hr : r ≠ [])
    (hcut : ∀ w, w <:+ u → w ≠ [] → r <+: w ++ t → r <+: w) :
    pyReplace r [] (u ++ t) = pyReplace r [] u ++ pyReplace r [] t := by
  by_cases hu : u = []
  · subst hu
    rw [delete_of_free hr fun h => hr (List.infix_nil.mp h), List.nil_append, List.nil_append]
  by_cases hp : r <+: u
  · obtain ⟨u, rfl⟩ := hp
    have hlen : u.length < (r ++ u).length := by
      have := List.length_pos_iff.mpr hr
      rw [List.length_append]
      omega
    rw [List.append_assoc, pyReplace_self_append hr, pyReplace_self_append hr, List.nil_append,
      List.nil_append]
    exact delete_append hr fun w hw => hcut w (hw.trans (List.suffix_append r u))
  · have hnot : ¬ r <+: u ++ t := fun h => hp (hcut u List.suffix_rfl hu h)
    obtain ⟨c, u, rfl⟩ := List.exists_cons_of_ne_nil hu
    rw [List.cons_append] at hnot ⊢
    rw [pyReplace_cons hr hnot, pyReplace_cons hr hp, List.cons_append,
      delete_append hr fun w hw => hcut w (hw.trans (List.suffix_cons c u))]
termination_by u.length

/-- Before a beginning `u` of the result has been read, copies have been passed over; the next one
does not begin at once. -/
theorem exists_read {t u : List α} (hr : r ≠ []) (h : pyReplace r [] t = u ++ v) :
    ∃ x t' m, t = x ++ t' ∧ pyReplace r [] t' = v ∧ ¬ r <+: t' ∧
      x.length = u.length + m * r.length ∧ (m = 0 → x = u ∧ ¬ r <+: t) := by
  by_cases hp : r <+: t
  · obtain ⟨t, rfl⟩ := hp
    have hlen : t.length < (r ++ t).length := by
      have := List.length_pos_iff.mpr hr
      rw [List.length_append]
      omega
    rw [pyReplace_self_append hr, List.nil_append] at h
    obtain ⟨x, t', m, rfl, hdel, hnot, hx, -⟩ := exists_read hr h
    refine ⟨r ++ x, t', m + 1, by rw [List.append_assoc], hdel, hnot, ?_, fun h0 => ?_⟩
    · rw [List.length_append, hx, Nat.succ_mul]
      omega
    · exact absurd h0 (Nat.succ_ne_zero m)
  · cases u with
    | nil => exact ⟨[], t, 0, rfl, h, hp, by simp, fun _ => ⟨rfl, hp⟩⟩
    | cons c u =>
      cases t with
      | nil =>
        rw [delete_of_free hr fun h => hr (List.infix_nil.mp h)] at h
        exact absurd h (by simp)
      | cons d t =>
        rw [pyReplace_cons hr hp, List.cons_append, List.cons.injEq] at h
        obtain ⟨rfl, h⟩ := h
        obtain ⟨x, t', m, rfl, hdel, hnot, hx, hm⟩ := exists_read hr h
        refine ⟨d :: x, t', m, rfl, hdel, hnot, ?_, fun h0 => ⟨by rw [(hm h0).1], hp⟩⟩
        rw [List.length_cons, List.length_cons, hx]
        omega
termination_by t.length

/-! ## The place of a copy -/

omit [DecidableEq α] in
/-- A text that is repeated behind `w` has no other elements than `w`. -/
theorem mem_of_repeated {w y : List α} (hw : w ≠ []) (hp : r <+: w ++ (r ++ y)) :
    ∀ c ∈ r, c ∈ w := by
  have hget : ∀ n (hn : n < r.length), r[n] ∈ w := by
    intro n
    induction n using Nat.strong_induction_on with
    | _ n ih =>
      intro hn
      have hpos := List.length_pos_iff.mpr hw
      rw [hp.getElem hn]
      by_cases hlt : n < w.length
      · rw [List.getElem_append_left hlt]
        exact List.getElem_mem hlt
      · rw [List.getElem_append_right (by omega), List.getElem_append_left (by omega)]
        exact ih _ (by omega) _
  intro c hc
  obtain ⟨n, hn, rfl⟩ := List.getElem_of_mem hc
  exact hget n hn

section Place

variable {b : α} {w x y tag info stop old q : List α}

omit [DecidableEq α] in
/-- A part of `w` that has a letter which the end of `w` lacks reaches over that end. -/
theorem suffix_of_letter (hx : x <:+ w) (htag : tag <:+ w) (hb : b ∈ x) (hbt : b ∉ tag) :
    tag <:+ x :=
  (List.suffix_or_suffix_of_suffix htag hx).resolve_right fun h => hbt (h.subset hb)

/-- An info that stands at the end of the result has been put in there. -/
theorem eq_of_putBefore (hstop : stop ≠ []) (hw : FirstAt stop w) (htag : tag <:+ w)
    (hlen : stop.length ≤ tag.length) (hb : b ∈ info) (hbt : b ∉ tag)
    (h : putBefore stop info t = w ++ (info ++ stop)) : t = w ++ stop := by
  have hin : stop <:+: t := by
    by_contra hfree
    rw [putBefore_of_free hfree] at h
    exact hfree ⟨w ++ info, [], by rw [h]; simp⟩
  obtain ⟨p, q, rfl, hp⟩ := exists_firstAt hstop hin
  rw [putBefore_firstAt hstop hp] at h
  obtain ⟨k, hk, -, -⟩ := exists_count_putBefore hstop info q
  have htotal := congrArg List.length h
  simp only [List.length_append] at htotal
  obtain ⟨x, rfl⟩ : p <+: w := by
    have hpre : p <+: w ++ (info ++ stop) := by
      rw [← h]
      exact List.prefix_append _ _
    exact List.prefix_of_prefix_length_le hpre (List.prefix_append _ _) (by omega)
  rw [List.append_assoc, List.append_cancel_left_eq, ← List.append_assoc info] at h
  have hxlen : (putBefore stop info q).length = x.length := by
    rw [List.length_append] at htotal
    omega
  by_cases hx : x = []
  · rw [hk, hx, List.length_nil] at hxlen
    have hq : q = [] := List.eq_nil_of_length_eq_zero (by omega)
    simp [hx, hq]
  -- the text behind the stop marker repeats what is left of `w`
  have hrep : info ++ stop <+: x ++ ((info ++ stop) ++ []) := by
    rw [List.append_nil, ← h]
    exact List.prefix_append _ _
  have hbx : b ∈ x := mem_of_repeated hx hrep b (List.mem_append_left _ hb)
  have htagx : tag.length ≤ x.length :=
    (suffix_of_letter (List.suffix_append p x) htag hbx hbt).length_le
  have hlast : stop <:+: putBefore stop info q := by
    have hsuf : putBefore stop info q <:+ x ++ (info ++ stop) := by
      rw [← h]
      exact List.suffix_append _ _
    have hstop' : stop <:+ x ++ (info ++ stop) := ⟨x ++ info, by simp⟩
    exact (List.suffix_of_suffix_length_le hstop' hsuf (by omega)).isInfix
  have hq : stop <:+: q := by
    by_contra hfree
    rw [putBefore_of_free hfree] at hlast
    exact hfree hlast
  -- then another info is put in behind it, and `w` would have the stop marker
  obtain ⟨p', q', rfl, hp'⟩ := exists_firstAt hstop hq
  rw [putBefore_firstAt hstop hp'] at hxlen
  simp only [List.length_append] at hxlen
  have hpre : info ++ stop <+: x := by
    refine List.prefix_of_prefix_length_le hrep (List.prefix_append _ _) ?_
    rw [List.length_append]
    omega
  refine absurd ?_ hw
  exact (List.suffix_append info stop).isInfix.trans
    (hpre.isInfix.trans ((List.suffix_append p x).isInfix.trans (List.prefix_append _ _).isInfix))

/-- A copy that is taken out at the end of `w` is the first one there. -/
theorem firstAt_of_delete (htag : tag <:+ w) (hb : b ∈ old) (hbt : b ∉ tag)
    (hend : ¬ tag <:+ old) (h : pyReplace old [] (w ++ (old ++ t)) = w ++ t) :
    FirstAt old w := by
  have hold : old ≠ [] := List.ne_nil_of_mem hb
  obtain ⟨p, q, heq, hp⟩ := exists_firstAt hold (s := w ++ (old ++ t)) ⟨w, t, by simp⟩
  have htotal := congrArg List.length heq
  simp only [List.length_append] at htotal
  by_cases hlen : w.length ≤ p.length
  · intro hin
    refine hp (hin.trans ?_)
    have hw : w ++ old.dropLast <+: w ++ (old ++ t) :=
      (List.prefix_append_right_inj w).mpr ((List.dropLast_prefix old).trans (List.prefix_append _ t))
    have hp' : p ++ old.dropLast <+: w ++ (old ++ t) := by
      rw [heq]
      exact (List.prefix_append_right_inj p).mpr
        ((List.dropLast_prefix old).trans (List.prefix_append _ q))
    refine (List.prefix_of_prefix_length_le hw hp' ?_).isInfix
    simp only [List.length_append]
    omega
  -- an earlier copy is taken out as well, and no other one
  rw [heq, pyReplace_firstAt hold hp, List.nil_append] at h
  have htotal' := congrArg List.length h
  simp only [List.length_append] at htotal'
  have hfree := not_infix_of_length_delete hold (t := q) (by omega)
  rw [delete_of_free hold hfree] at h
  obtain ⟨x, rfl⟩ : p <+: w := by
    have hpre : p <+: w ++ t := by
      rw [← h]
      exact List.prefix_append _ _
    exact List.prefix_of_prefix_length_le hpre (List.prefix_append _ _) (by omega)
  rw [List.append_assoc, List.append_cancel_left_eq] at h heq
  have hx : x ≠ [] := by
    rintro rfl
    simp at hlen
  have hcomm : x ++ old = old ++ x := by
    rw [h, ← List.append_assoc, ← List.append_assoc] at heq
    exact List.append_cancel_right heq
  have hbx : b ∈ x := by
    refine mem_of_repeated hx (r := old) (y := []) ?_ b hb
    rw [List.append_nil, hcomm]
    exact List.prefix_append _ _
  have htagx := suffix_of_letter (List.suffix_append p x) htag hbx hbt
  have hsuf : x <:+ x ++ old := by
    rw [hcomm]
    exact List.suffix_append _ _
  rcases List.suffix_or_suffix_of_suffix hsuf (List.suffix_append x old) with hxold | holdx
  · exact absurd (htagx.trans hxold) hend
  · refine absurd (holdx.isInfix.trans ?_) hfree
    rw [h]
    exact (List.prefix_append x t).isInfix

end Place

/-! ## Lines -/

/-- A text is complete lines and the beginning of a line. -/
theorem exists_splitOn_append (nl : α) (u : List α) :
    ∃ A l, nl ∉ l ∧ ∀ v, (u ++ v).splitOn nl = A ++ (l ++ v).splitOn nl := by
  induction u with
  | nil => exact ⟨[], [], List.not_mem_nil, fun v => rfl⟩
  | cons c u ih =>
    obtain ⟨A, l, hl, hsplit⟩ := ih
    by_cases hc : c = nl
    · subst hc
      refine ⟨[] :: A, l, hl, fun v => ?_⟩
      rw [List.cons_append, ← List.nil_append (c :: (u ++ v)), List.splitOn_append_cons_self,
        hsplit, List.splitOn_nil]
      rfl
    · cases A with
      | nil =>
        refine ⟨[], c :: l, by simp [hl, Ne.symm hc], fun v => ?_⟩
        rw [List.cons_append, List.splitOn_cons_eq_if_modifyHead, hsplit, List.nil_append,
          List.nil_append, List.cons_append, List.splitOn_cons_eq_if_modifyHead]
      | cons a A =>
        refine ⟨(c :: a) :: A, l, hl, fun v => ?_⟩
        rw [List.cons_append, List.splitOn_cons_eq_if_modifyHead, if_neg (by simpa using hc), hsplit]
        rfl

/-- A text is the end of a line and complete lines. -/
theorem exists_append_splitOn (nl : α) (v : List α) :
    ∃ B l, nl ∉ l ∧ ∀ u, (u ++ v).splitOn nl = (u ++ l).splitOn nl ++ B := by
  by_cases hv : nl ∈ v
  · obtain ⟨l, v, rfl, hl⟩ := List.eq_append_cons_of_mem hv
    refine ⟨v.splitOn nl, l, hl, fun u => ?_⟩
    rw [← List.append_assoc, List.splitOn_append_cons_self]
  · exact ⟨[], v, hv, fun u => by rw [List.append_nil]⟩

theorem mem_splitOn_of_mark (he : nl ∉ e) (her : mark nl e <:+: r) (u v : List α) :
    e ∈ (u ++ (r ++ v)).splitOn nl := by
  obtain ⟨x, y, rfl⟩ := her
  have hsplit := splitOn_mark_line he (u ++ x) (y ++ v)
  have hmem : e ∈ (u ++ x).splitOn nl ++ e :: (y ++ v).splitOn nl := by simp
  rw [← hsplit] at hmem
  simpa using hmem

/-- When `r` is taken out from between `u` and `v` two lines are joined, and a line of `r` is lost
unless it is the joined one. -/
theorem exists_count_splitOn_le (nl : α) (u r v : List α) :
    ∃ l, ∀ e, nl ∉ e → mark nl e <:+: r →
      ((u ++ v).splitOn nl).count e + (if l = e then 0 else 1) ≤
        ((u ++ (r ++ v)).splitOn nl).count e := by
  obtain ⟨A, l₁, hl₁, hA⟩ := exists_splitOn_append nl u
  obtain ⟨B, l₂, hl₂, hB⟩ := exists_append_splitOn nl v
  refine ⟨l₁ ++ l₂, fun e he her => ?_⟩
  have hjoin : (l₁ ++ l₂).splitOn nl = [l₁ ++ l₂] := List.splitOn_eq_singleton (by simp [hl₁, hl₂])
  have hmem := List.count_pos_iff.mpr (mem_splitOn_of_mark he her l₁ l₂)
  rw [hA, hB, hjoin, hA, ← List.append_assoc l₁, hB, List.append_assoc l₁]
  simp only [List.count_append, List.count_singleton, beq_iff_eq]
  split <;> omega

/-- Deleting `r` does not make more of a line that is in `r`. -/
theorem count_splitOn_delete_le (hr : r ≠ []) (he : nl ∉ e) (her : mark nl e <:+: r)
    (u t v : List α) :
    ((u ++ (pyReplace r [] t ++ v)).splitOn nl).count e ≤ ((u ++ (t ++ v)).splitOn nl).count e := by
  induction t using firstAt_induction hr generalizing u with
  | rest t ht => rw [delete_of_free hr ht]
  | first pre t hpre ih =>
    obtain ⟨l, hl⟩ := exists_count_splitOn_le nl (u ++ pre) r (t ++ v)
    have hdrop := hl e he her
    have hrest := ih (u ++ pre)
    rw [pyReplace_firstAt hr hpre]
    simp only [List.append_assoc, List.nil_append] at hdrop hrest ⊢
    omega

/-- Of two lines that are in `r` one is lost. -/
theorem count_splitOn_delete_lt (hr : r ≠ []) (hs : nl ∉ s) (he : nl ∉ e) (hse : s ≠ e)
    (hsr : mark nl s <:+: r) (her : mark nl e <:+: r) (hin : r <:+: t) :
    ((pyReplace r [] t).splitOn nl).count s + ((pyReplace r [] t).splitOn nl).count e <
      (t.splitOn nl).count s + (t.splitOn nl).count e := by
  obtain ⟨pre, t, rfl, hpre⟩ := exists_firstAt hr hin
  obtain ⟨l, hl⟩ := exists_count_splitOn_le nl pre r t
  have hdrops := hl s hs hsr
  have hdrope := hl e he her
  have hrests := count_splitOn_delete_le hr hs hsr pre t []
  have hreste := count_splitOn_delete_le hr he her pre t []
  rw [List.append_nil, List.append_nil] at hrests hreste
  rw [pyReplace_firstAt hr hpre, List.nil_append]
  by_cases hls : l = s
  · rw [if_neg fun hle => hse (hls.symm.trans hle)] at hdrope
    omega
  · rw [if_neg hls] at hdrops
    omega

end Common
