import MaixSpeech.Common.PyStr

/-!
# Patterns of whole lines

A marker is a pattern that is one line with the newlines around it, and an info is such a pattern of
several lines. Where they stand in a text can be read off its lines: a marker stands where its line
is one between two newlines (`mark_infix_iff`), and patterns can only overlap in a newline.
-/

namespace Common

variable {α : Type*} {nl : α} {i s e p t u v : List α}

/-! ## Lines -/

/-- A pattern of whole lines. -/
def mark (nl : α) (i : List α) : List α := nl :: (i ++ [nl])

theorem mark_ne_nil (nl : α) (i : List α) : mark nl i ≠ [] := List.cons_ne_nil _ _

theorem mark_dropLast (nl : α) (i : List α) : (mark nl i).dropLast = nl :: i := by
  rw [mark, ← List.cons_append, List.dropLast_concat]

/-- A pattern that ends with a newline does so in each of its ends. -/
theorem exists_concat_of_suffix_mark {w : List α} (hw : w <:+ mark nl i) (hne : w ≠ []) :
    ∃ g, w = g ++ [nl] := by
  obtain ⟨g, c, rfl⟩ := (List.eq_nil_or_concat' w).resolve_left hne
  obtain ⟨z, hz⟩ := hw
  rw [mark, ← List.append_assoc, ← List.cons_append] at hz
  obtain ⟨-, hc⟩ := List.append_inj' hz rfl
  exact ⟨g, by rw [hc]⟩

/-- Joined lines are joined where they are put together. -/
theorem intercalate_append {X Y : List (List α)} (hX : X ≠ []) (hY : Y ≠ []) :
    [nl].intercalate (X ++ Y) = [nl].intercalate X ++ nl :: [nl].intercalate Y := by
  induction X with
  | nil => exact absurd rfl hX
  | cons x X ih =>
    cases X with
    | nil =>
      rw [List.singleton_append, List.intercalate_cons_of_ne_nil hY, List.intercalate_singleton,
        List.append_assoc, List.singleton_append]
    | cons y X =>
      have h := ih (List.cons_ne_nil y X)
      rw [List.cons_append] at h
      rw [List.cons_append, List.cons_append, List.intercalate_cons_cons, h,
        List.intercalate_cons_cons, List.append_assoc, List.append_assoc, List.append_assoc]

/-- A pattern whose head does not recur in it stands first behind every text without it. -/
theorem firstAt_of_notMem {c : α} {x pre : List α} (hc : c ∉ x) (h : ¬ c :: x <:+: pre) :
    FirstAt (c :: x) pre := by
  intro hin
  rcases List.infix_append_iff_ne_nil.mp hin with hpre | hx | ⟨l, r, hl, hr, hlr, -, hpre⟩
  · exact h hpre
  · have hlen := hx.length_le
    rw [List.length_dropLast, List.length_cons] at hlen
    omega
  · obtain ⟨a, l, rfl⟩ := List.exists_cons_of_ne_nil hl
    obtain ⟨d, r, rfl⟩ := List.exists_cons_of_ne_nil hr
    rw [List.cons_append, List.cons.injEq] at hlr
    obtain ⟨-, rfl⟩ := hlr
    have hd : d = c := by
      obtain ⟨z, hz⟩ := hpre.trans (List.dropLast_prefix _)
      exact (List.cons.inj hz).1
    exact hc (by simp [hd])

/-- Lines with a newline behind each. -/
theorem intercalate_concat {X : List (List α)} (hX : X ≠ []) :
    [nl].intercalate X ++ [nl] = X.flatMap (· ++ [nl]) := by
  induction X with
  | nil => exact absurd rfl hX
  | cons x X ih =>
    cases X with
    | nil => simp
    | cons y X =>
      have hrest := ih (List.cons_ne_nil y X)
      rw [List.intercalate_cons_cons, List.append_assoc, hrest]
      rfl

variable [DecidableEq α]

/-- The lines between two newlines of the text. -/
def inner (nl : α) (t : List α) : List (List α) := (t.splitOn nl).tail.dropLast

theorem splitOn_mark (nl : α) (u i v : List α) :
    (u ++ (mark nl i ++ v)).splitOn nl = u.splitOn nl ++ (i.splitOn nl ++ v.splitOn nl) := by
  rw [mark, List.cons_append, List.append_assoc, List.singleton_append,
    List.splitOn_append_cons_self, List.splitOn_append_cons_self]

theorem splitOn_mark_line (he : nl ∉ e) (u v : List α) :
    (u ++ (mark nl e ++ v)).splitOn nl = u.splitOn nl ++ e :: v.splitOn nl := by
  rw [splitOn_mark, List.splitOn_eq_singleton he, List.singleton_append]

theorem splitOn_append_mark (nl : α) (u i : List α) :
    (u ++ mark nl i).splitOn nl = u.splitOn nl ++ (i.splitOn nl ++ [[]]) := by
  have hlines := splitOn_mark nl u i []
  rwa [List.append_nil, List.splitOn_nil] at hlines

theorem splitOn_mark_line_append (he : nl ∉ e) (v : List α) :
    (mark nl e ++ v).splitOn nl = [] :: e :: v.splitOn nl := by
  have hlines := splitOn_mark_line he [] v
  rwa [List.nil_append, List.splitOn_nil, List.singleton_append] at hlines

/-- A pattern of lines stands where its lines are lines between two newlines. -/
theorem mark_infix_iff : mark nl i <:+: t ↔ i.splitOn nl <:+: inner nl t := by
  have hi := List.splitOn_ne_nil nl i
  constructor
  · rintro ⟨u, v, rfl⟩
    obtain ⟨a, A, hA⟩ := List.exists_cons_of_ne_nil (List.splitOn_ne_nil nl u)
    have hv := List.splitOn_ne_nil nl v
    rw [inner, List.append_assoc, splitOn_mark, hA, List.cons_append, List.tail_cons,
      ← List.append_assoc, List.dropLast_append_of_ne_nil hv]
    exact ⟨A, (v.splitOn nl).dropLast, by rw [List.append_assoc]⟩
  · rintro ⟨A, B, hAB⟩
    obtain ⟨a, X, hX⟩ := List.exists_cons_of_ne_nil (List.splitOn_ne_nil nl t)
    rw [inner, hX, List.tail_cons] at hAB
    have hX' : X ≠ [] := by
      rintro rfl
      rw [List.dropLast_nil, List.append_eq_nil_iff, List.append_eq_nil_iff] at hAB
      exact hi hAB.1.2
    have hlines : t.splitOn nl = (a :: A) ++ (i.splitOn nl ++ (B ++ [X.getLast hX'])) := by
      rw [hX, List.cons_append, ← List.append_assoc, ← List.append_assoc, hAB,
        List.dropLast_append_getLast]
    have ht : [nl].intercalate (t.splitOn nl) = t := List.intercalate_splitOn nl
    rw [hlines, intercalate_append (List.cons_ne_nil a A) (by simp [hi]),
      intercalate_append hi (by simp), List.intercalate_splitOn] at ht
    refine ⟨[nl].intercalate (a :: A), [nl].intercalate (B ++ [X.getLast hX']), ?_⟩
    rw [mark, ← ht]
    simp

theorem mark_line_infix_iff (he : nl ∉ e) : mark nl e <:+: t ↔ e ∈ inner nl t := by
  rw [mark_infix_iff, List.splitOn_eq_singleton he, List.singleton_infix_iff]

theorem inner_mark (nl : α) (t : List α) : inner nl (mark nl t) = t.splitOn nl := by
  have hsplit := splitOn_append_mark nl [] t
  rw [List.nil_append, List.splitOn_nil] at hsplit
  rw [inner, hsplit, List.singleton_append, List.tail_cons, List.dropLast_concat]

/-- The lines that follow the first newline are between two newlines once the text is ended by
one. -/
theorem inner_append_cons (nl : α) (p i : List α) :
    inner nl (p ++ nl :: i) = (p.splitOn nl).tail ++ (i.splitOn nl).dropLast := by
  rw [inner, List.splitOn_append_cons_self,
    List.tail_append_of_ne_nil (List.splitOn_ne_nil nl p),
    List.dropLast_append_of_ne_nil (List.splitOn_ne_nil nl i)]

/-- A marker stands first behind a text that does not have its line after a newline. -/
theorem firstAt_mark_line (he : nl ∉ e) : FirstAt (mark nl e) p ↔ e ∉ (p.splitOn nl).tail := by
  rw [FirstAt, mark_dropLast, mark_line_infix_iff he, inner_append_cons,
    List.splitOn_eq_singleton he, List.dropLast_singleton, List.append_nil]

/-! ## A block -/

/-- The lines of a start marker, of a stop marker and of an info: a letter tells the lines of the
info from the markers, and its first line is in it once. -/
structure BlockLines (nl b : α) (s e i : List α) : Prop where
  start : nl ∉ s
  stop : nl ∉ e
  start_ne_stop : s ≠ e
  start_ne_nil : s ≠ []
  stop_ne_nil : e ≠ []
  letter_ne : b ≠ nl
  letter_start : b ∉ s
  letter_stop : b ∉ e
  letter : ∀ l ∈ i.splitOn nl, b ∈ l
  first : ∀ l ls, i.splitOn nl = l :: ls → l ∉ ls

namespace BlockLines

variable {b : α} (h : BlockLines nl b s e i)
include h

theorem start_notMem : s ∉ i.splitOn nl := fun hs => h.letter_start (h.letter s hs)

theorem stop_notMem : e ∉ i.splitOn nl := fun he => h.letter_stop (h.letter e he)

theorem nil_notMem : [] ∉ i.splitOn nl := fun he => List.not_mem_nil (h.letter [] he)

/-- The info does not bring a stop marker near. -/
theorem firstAt_append_info (hp : FirstAt (mark nl e) p) : FirstAt (mark nl e) (p ++ mark nl i) := by
  rw [firstAt_mark_line h.stop] at hp ⊢
  rw [splitOn_append_mark, List.tail_append_of_ne_nil (List.splitOn_ne_nil nl p)]
  simp [hp, h.stop_notMem, h.stop_ne_nil]

/-- Infos overlap in a newline only. -/
theorem firstAt_info (hp : ¬ mark nl i <:+: p ++ [nl]) : FirstAt (mark nl i) p := by
  obtain ⟨l, ls, hl⟩ := List.exists_cons_of_ne_nil (List.splitOn_ne_nil nl i)
  have hlines := inner_append_cons nl p []
  rw [mark_infix_iff, hlines, List.splitOn_nil, List.dropLast_singleton, List.append_nil, hl] at hp
  rw [FirstAt, mark_dropLast, mark_infix_iff, inner_append_cons, hl]
  exact firstAt_of_notMem (h.first l ls hl) hp

/-- Behind its first newline an info does not bring another one near before a stop marker. -/
theorem not_infix_tail_append : ¬ mark nl i <:+: (mark nl i).tail ++ (mark nl e).dropLast := by
  rw [mark_dropLast, mark, List.tail_cons, List.append_assoc, List.singleton_append,
    ← mark, mark_infix_iff, inner_append_cons]
  intro hin
  have hsplit : (nl :: e).splitOn nl = [[], e] := by
    have hlines := List.splitOn_append_cons_self ([] : List α) e (a := nl)
    rwa [List.splitOn_nil, List.nil_append, List.splitOn_eq_singleton h.stop] at hlines
  rw [hsplit] at hin
  have hlen : (i.splitOn nl).length = ((i.splitOn nl).tail ++ [[], e].dropLast).length := by
    have hpos := List.length_pos_iff.mpr (List.splitOn_ne_nil nl i)
    simp only [List.length_append, List.length_tail, List.dropLast_cons_cons, List.dropLast_singleton,
      List.length_singleton]
    omega
  apply h.nil_notMem
  rw [hin.eq_of_length hlen]
  simp

/-- Behind a stop marker the text does not repeat itself with an info behind it. -/
theorem not_suffix_append_info (hp : FirstAt (mark nl e) p) :
    ¬ mark nl e ++ p <:+ mark nl e ++ (p ++ mark nl i) := by
  rintro ⟨y, hy⟩
  rw [firstAt_mark_line h.stop] at hp
  obtain ⟨a, A, hA⟩ := List.exists_cons_of_ne_nil (List.splitOn_ne_nil nl p)
  have hlines := congrArg (List.splitOn nl) hy
  rw [splitOn_mark_line h.stop, splitOn_mark_line_append h.stop, splitOn_append_mark, hA] at hlines
  rw [hA, List.tail_cons] at hp
  have hlen := congrArg List.length hlines
  simp only [List.length_append, List.length_cons, List.length_nil] at hlen
  have hpos := List.length_pos_iff.mpr (List.splitOn_ne_nil nl i)
  -- the marker of the repetition is behind the first line of `p`
  have hdrop := congrArg (List.drop 3) hlines
  rw [List.drop_append_of_le_length (by omega)] at hdrop
  have hmem : e ∈ A ++ (i.splitOn nl ++ [[]]) := by
    have hin : e ∈ (y.splitOn nl).drop 3 ++ e :: a :: A := by simp
    rw [hdrop] at hin
    simpa using hin
  simp [hp, h.stop_notMem, h.stop_ne_nil] at hmem

end BlockLines

/-! ## Putting an info in front of the stop markers -/

/-- `t` with the info in front of every stop marker. -/
def putBefore (stop info t : List α) : List α := (info ++ stop).intercalate (pySplit stop t)

section PutBefore

variable {stop info pre : List α}

theorem putBefore_of_free (ht : ¬ stop <:+: t) : putBefore stop info t = t := by
  rw [putBefore, pySplit_of_not_infix ht, List.intercalate_singleton]

theorem putBefore_firstAt (hstop : stop ≠ []) (h : FirstAt stop pre) (t : List α) :
    putBefore stop info (pre ++ (stop ++ t)) =
      pre ++ (info ++ (stop ++ putBefore stop info t)) := by
  rw [putBefore, pySplit_firstAt hstop h,
    List.intercalate_cons_of_ne_nil (pySplit_ne_nil stop t), putBefore, List.append_assoc,
    List.append_assoc]

/-- It makes the text longer by infos. -/
theorem exists_count_putBefore (hstop : stop ≠ []) (info t : List α) :
    ∃ k, (putBefore stop info t).length = t.length + k * info.length ∧
      (∀ c, (putBefore stop info t).count c = t.count c + k * info.count c) ∧
      (stop <:+: t → 0 < k) := by
  induction t using firstAt_induction hstop with
  | rest t ht =>
    refine ⟨0, ?_, ?_, fun h => absurd h ht⟩ <;> simp [putBefore_of_free ht]
  | first pre t hpre ih =>
    obtain ⟨k, hlen, hcount, -⟩ := ih
    rw [putBefore_firstAt hstop hpre]
    refine ⟨k + 1, ?_, fun c => ?_, fun _ => Nat.succ_pos k⟩
    · simp only [List.length_append, hlen, Nat.succ_mul]
      omega
    · simp only [List.count_append, hcount, Nat.succ_mul]
      omega

/-- The text in front of the last stop marker that is found, and the text behind it. -/
theorem exists_putBefore_last (hstop : stop ≠ []) (info : List α) (ht : stop <:+: t) :
    ∃ pre v, t = pre ++ (stop ++ v) ∧ ¬ stop <:+: v ∧
      putBefore stop info t = putBefore stop info pre ++ (info ++ (stop ++ v)) := by
  induction t using firstAt_induction hstop with
  | rest t h => exact absurd ht h
  | first pre t hpre ih =>
    rw [putBefore_firstAt hstop hpre]
    by_cases h : stop <:+: t
    · obtain ⟨pre', v, rfl, hv, hput⟩ := ih h
      refine ⟨pre ++ (stop ++ pre'), v, by simp, hv, ?_⟩
      rw [hput, putBefore_firstAt hstop hpre]
      simp
    · have hfree : ¬ stop <:+: pre := fun hin => hpre (List.infix_append_of_infix_left hin)
      exact ⟨pre, t, rfl, h, by rw [putBefore_of_free h, putBefore_of_free hfree]⟩

end PutBefore

namespace BlockLines

variable {b : α} (h : BlockLines nl b s e i)
include h

/-- The text can be told from what it has become. -/
theorem putBefore_injective {t' : List α}
    (heq : putBefore (mark nl e) (mark nl i) t = putBefore (mark nl e) (mark nl i) t') : t = t' := by
  have hE := mark_ne_nil nl e
  have hfree : ∀ {t : List α}, ¬ mark nl e <:+: putBefore (mark nl e) (mark nl i) t →
      ¬ mark nl e <:+: t := by
    intro t ht hin
    obtain ⟨pre, v, -, -, hput⟩ := exists_putBefore_last hE (mark nl i) hin
    rw [hput, ← List.append_assoc] at ht
    exact ht (List.infix_append' _ _ _)
  induction t using firstAt_induction hE generalizing t' with
  | rest t ht =>
    rw [putBefore_of_free ht] at heq
    rw [heq] at ht
    rw [heq, putBefore_of_free (hfree ht)]
  | first p t hp ih =>
    rw [putBefore_firstAt hE hp] at heq
    by_cases ht' : mark nl e <:+: t'
    · obtain ⟨p', t', rfl, hp'⟩ := exists_firstAt hE ht'
      rw [putBefore_firstAt hE hp', ← List.append_assoc, ← List.append_assoc p'] at heq
      obtain ⟨hpre, hrest⟩ :=
        (h.firstAt_append_info hp).unique hE (h.firstAt_append_info hp') heq
      rw [List.append_cancel_right hpre, ih hrest]
    · rw [putBefore_of_free ht', ← List.append_assoc] at heq
      rw [← heq] at ht'
      exact absurd (List.infix_append' _ _ _) ht'

/-- Marker lines stay as many. -/
theorem count_putBefore {l : List α} (hl : l ∉ i.splitOn nl) (hne : l ≠ []) (t : List α) :
    ((putBefore (mark nl e) (mark nl i) t).splitOn nl).count l = (t.splitOn nl).count l := by
  have hE := mark_ne_nil nl e
  induction t using firstAt_induction hE with
  | rest t ht => rw [putBefore_of_free ht]
  | first p t hp ih =>
    rw [putBefore_firstAt hE hp, splitOn_mark, splitOn_mark_line_append h.stop,
      splitOn_mark_line h.stop]
    simp [List.count_eq_zero.mpr hl, List.count_cons, ih, Ne.symm hne]

theorem head?_putBefore (t : List α) :
    ((putBefore (mark nl e) (mark nl i) t).splitOn nl).head? = (t.splitOn nl).head? := by
  have hE := mark_ne_nil nl e
  induction t using firstAt_induction hE with
  | rest t ht => rw [putBefore_of_free ht]
  | first p t hp ih =>
    obtain ⟨a, A, hA⟩ := List.exists_cons_of_ne_nil (List.splitOn_ne_nil nl p)
    rw [putBefore_firstAt hE hp, splitOn_mark, splitOn_mark_line h.stop, hA]
    rfl

/-- A text that ends with a newline does not run into a stop marker. -/
theorem putBefore_append (hu : u = [] ∨ [nl] <:+ u) (t : List α) :
    putBefore (mark nl e) (mark nl i) (u ++ (mark nl e ++ t)) =
      putBefore (mark nl e) (mark nl i) u ++
        (mark nl i ++ (mark nl e ++ putBefore (mark nl e) (mark nl i) t)) := by
  have hE := mark_ne_nil nl e
  induction u using firstAt_induction hE with
  | rest u hin =>
    have hfirst : FirstAt (mark nl e) u := by
      rcases hu with rfl | ⟨u, rfl⟩
      · exact firstAt_nil hE
      · rw [firstAt_mark_line h.stop]
        rw [mark_line_infix_iff h.stop, inner_append_cons] at hin
        rw [List.splitOn_append_cons_self, List.tail_append_of_ne_nil (List.splitOn_ne_nil nl u)]
        simpa [h.stop_ne_nil] using hin
    rw [putBefore_firstAt hE hfirst, putBefore_of_free hin]
  | first p u hp ih =>
    have hu' : u = [] ∨ [nl] <:+ u := by
      rcases hu with hnil | hsuf
      · simp [mark] at hnil
      · by_cases hnil : u = []
        · exact Or.inl hnil
        · refine Or.inr (List.suffix_of_suffix_length_le hsuf ?_ (List.length_pos_iff.mpr hnil))
          exact (List.suffix_append _ u).trans (List.suffix_append p _)
    rw [List.append_assoc, List.append_assoc, putBefore_firstAt hE hp, ih hu',
      putBefore_firstAt hE hp]
    simp

end BlockLines

end Common
