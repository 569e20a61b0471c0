import MaixSpeech.Common.CMake.Read
import Mathlib.Algebra.Order.Ring.Int

/-!
# Rules of the reader

What each step of the reader takes from the text: quoted and unquoted arguments, the arguments of a
command up to its closing parenthesis, their values, the variable that a `set` command sets. Quotes
are counted along the way: every quoted argument uses two of them up.
-/

namespace Common.CMake

variable {s t r x raw : Text} {c : Char} {n depth : ℕ} {args : List RawArg}

/-! ## Quoted arguments -/

theorem quotedBody_quote (t : Text) : quotedBody ('"' :: t) = some ([], t) := by
  rw [quotedBody.eq_def]
  rfl

theorem quotedBody_escape (e : Char) (t : Text) : quotedBody ('\\' :: e :: t) =
    (quotedBody t).map fun p => (if e = '\n' then p.1 else '\\' :: e :: p.1, p.2) := by
  rw [quotedBody.eq_def]
  rfl

theorem quotedBody_cons (hq : c ≠ '"') (hb : c ≠ '\\') (t : Text) :
    quotedBody (c :: t) = (quotedBody t).map fun p => (c :: p.1, p.2) := by
  rw [quotedBody.eq_def]
  simp only [if_neg hq, if_neg hb]

/-- A quoted argument in a text, or up to the end of the line. -/
theorem quotedBody_spec (h : quotedBody s = some (raw, t)) :
    ∃ p, s = p ++ '"' :: t ∧ raw.Sublist p ∧ ('\n' ∉ p → raw = p) := by
  fun_induction quotedBody s generalizing raw t with
  | case1 => cases h
  | case2 u =>
    obtain ⟨rfl, rfl⟩ := Prod.mk.inj (Option.some.inj h)
    exact ⟨[], rfl, List.Sublist.refl _, fun _ => rfl⟩
  | case3 => cases h
  | case4 e u hq ih =>
    obtain ⟨⟨raw', t'⟩, hbody, hp⟩ := Option.map_eq_some_iff.mp h
    obtain ⟨rfl, rfl⟩ := Prod.mk.inj hp
    obtain ⟨p, rfl, hsub, hraw⟩ := ih hbody
    refine ⟨'\\' :: e :: p, rfl, ?_, fun hnl => ?_⟩
    · split
      · exact (hsub.cons e).cons '\\'
      · exact (hsub.cons_cons e).cons_cons '\\'
    · simp only [List.mem_cons, not_or] at hnl
      rw [if_neg (Ne.symm hnl.2.1), hraw hnl.2.2]
  | case5 c u hq hb ih =>
    obtain ⟨⟨raw', t'⟩, hbody, hp⟩ := Option.map_eq_some_iff.mp h
    obtain ⟨rfl, rfl⟩ := Prod.mk.inj hp
    obtain ⟨p, rfl, hsub, hraw⟩ := ih hbody
    refine ⟨c :: p, rfl, hsub.cons_cons c, fun hnl => ?_⟩
    rw [hraw fun h => hnl (List.mem_cons_of_mem c h)]

/-- A quoted argument that is closed stays as it is, whatever follows. -/
theorem quotedBody_append (h : quotedBody s = some (raw, t)) (x : Text) :
    quotedBody (s ++ x) = some (raw, t ++ x) := by
  fun_induction quotedBody s generalizing raw t with
  | case1 => cases h
  | case2 u =>
    obtain ⟨rfl, rfl⟩ := Prod.mk.inj (Option.some.inj h)
    exact quotedBody_quote _
  | case3 => cases h
  | case4 e u hq ih =>
    obtain ⟨⟨raw', t'⟩, hbody, hp⟩ := Option.map_eq_some_iff.mp h
    obtain ⟨rfl, rfl⟩ := Prod.mk.inj hp
    rw [List.cons_append, List.cons_append, quotedBody_escape, ih hbody]
    rfl
  | case5 c u hq hb ih =>
    obtain ⟨⟨raw', t'⟩, hbody, hp⟩ := Option.map_eq_some_iff.mp h
    obtain ⟨rfl, rfl⟩ := Prod.mk.inj hp
    rw [List.cons_append, quotedBody_cons hq hb, ih hbody]
    rfl

/-- A one-line text that does not close the argument is the argument up to the next quote, unless
it ends with a backslash that takes this quote with it. -/
theorem quotedBody_open (h : quotedBody s = none) (hnl : '\n' ∉ s) :
    (∀ x, quotedBody (s ++ '"' :: x) = some (s, x)) ∨
      ∀ x, quotedBody (s ++ '"' :: x) = (quotedBody x).map fun p => (s ++ '"' :: p.1, p.2) := by
  fun_induction quotedBody s with
  | case1 => exact Or.inl quotedBody_quote
  | case2 => cases h
  | case3 hq =>
    exact Or.inr (quotedBody_escape '"')
  | case4 e u hq ih =>
    simp only [List.mem_cons, not_or] at hnl
    have hu : quotedBody u = none := Option.map_eq_none_iff.mp h
    rcases ih hu hnl.2.2 with hclosed | hopen
    · refine Or.inl fun x => ?_
      rw [List.cons_append, List.cons_append, quotedBody_escape, hclosed, Option.map_some,
        if_neg (Ne.symm hnl.2.1)]
    · refine Or.inr fun x => ?_
      rw [List.cons_append, List.cons_append, quotedBody_escape, hopen, Option.map_map]
      simp only [Function.comp_def, if_neg (Ne.symm hnl.2.1)]
      rfl
  | case5 c u hq hb ih =>
    have hu : quotedBody u = none := Option.map_eq_none_iff.mp h
    rcases ih hu fun h => hnl (List.mem_cons_of_mem c h) with hclosed | hopen
    · refine Or.inl fun x => ?_
      rw [List.cons_append, quotedBody_cons hq hb, hclosed]
      rfl
    · refine Or.inr fun x => ?_
      rw [List.cons_append, quotedBody_cons hq hb, hopen, Option.map_map]
      rfl

/-! ## Unquoted arguments -/

theorem unquotedBody_escape {e : Char} (he : e ≠ '\n') (t : Text) :
    unquotedBody ('\\' :: e :: t) =
      ('\\' :: e :: (unquotedBody t).1, (unquotedBody t).2) := by
  rw [unquotedBody.eq_def]
  simp only [if_pos, if_neg he]

theorem unquotedBody_end (hb : c ≠ '\\') (hend : endsUnquoted c = true) (t : Text) :
    unquotedBody (c :: t) = ([], c :: t) := by
  rw [unquotedBody.eq_def]
  simp only [if_neg hb, if_pos hend]

theorem unquotedBody_cons (hb : c ≠ '\\') (hend : endsUnquoted c = false) (t : Text) :
    unquotedBody (c :: t) = (c :: (unquotedBody t).1, (unquotedBody t).2) := by
  rw [unquotedBody.eq_def]
  simp [hb, hend]

theorem unquotedBody_append (s : Text) : (unquotedBody s).1 ++ (unquotedBody s).2 = s := by
  fun_induction unquotedBody s with
  | case1 => rfl
  | case2 => rfl
  | case3 => rfl
  | case4 e u he ih => rw [List.cons_append, List.cons_append, ih]
  | case5 => rfl
  | case6 c u hb hend ih => rw [List.cons_append, ih]

/-- A quote belongs to an unquoted argument only behind a backslash. -/
theorem unquotedBody_quote (s t : Text) :
    (∃ u, (unquotedBody (s ++ '"' :: ')' :: t)).2 = u ++ '"' :: ')' :: t) ∨
      unquotedBody (s ++ '"' :: ')' :: t) = (s ++ ['"'], ')' :: t) ∧ s.getLast? = some '\\' := by
  have hparen : unquotedBody (')' :: t) = ([], ')' :: t) :=
    unquotedBody_end (by decide) (by decide) t
  fun_induction unquotedBody s with
  | case1 => exact Or.inl ⟨[], by rw [List.nil_append, unquotedBody_end (by decide) (by decide)]⟩
  | case2 =>
    refine Or.inr ⟨?_, rfl⟩
    rw [List.cons_append, List.nil_append, unquotedBody_escape (by decide), hparen]
    rfl
  | case3 u =>
    refine Or.inl ⟨'\\' :: '\n' :: u, ?_⟩
    rw [List.cons_append, List.cons_append, unquotedBody.eq_def]
    rfl
  | case4 e u he ih =>
    rw [List.cons_append, List.cons_append, unquotedBody_escape he]
    rcases ih with ⟨v, hv⟩ | ⟨hall, hlast⟩
    · exact Or.inl ⟨v, hv⟩
    · refine Or.inr ⟨by rw [hall]; rfl, ?_⟩
      rw [List.getLast?_cons, List.getLast?_cons, hlast]
      rfl
  | case5 c u hb hend =>
    refine Or.inl ⟨c :: u, ?_⟩
    rw [List.cons_append, unquotedBody_end hb hend]
  | case6 c u hb hend ih =>
    rw [List.cons_append, unquotedBody_cons hb (Bool.not_eq_true _ ▸ hend)]
    rcases ih with ⟨v, hv⟩ | ⟨hall, hlast⟩
    · exact Or.inl ⟨v, hv⟩
    · refine Or.inr ⟨by rw [hall]; rfl, ?_⟩
      rw [List.getLast?_cons, hlast]
      rfl

/-! ## The arguments of a command -/

/-- The arguments up to a closing parenthesis, piece by piece. -/
inductive Lexes : ℕ → Text → List RawArg → Text → Prop
  | close (t : Text) : Lexes 0 (')' :: t) [] t
  | space (depth : ℕ) (c : Char) (s : Text) (args : List RawArg) (t : Text)
      (hc : c = '\n' ∨ isBlank c = true) (h : Lexes depth s args t) : Lexes depth (c :: s) args t
  | comment (depth : ℕ) (p s : Text) (args : List RawArg) (t : Text)
      (hs : s = [] ∨ s.head? = some '\n') (h : Lexes depth s args t) :
      Lexes depth ('#' :: (p ++ s)) args t
  | openParen (depth : ℕ) (s : Text) (args : List RawArg) (t : Text)
      (h : Lexes (depth + 1) s args t) : Lexes depth ('(' :: s) (.unquoted ['('] :: args) t
  | closeParen (depth : ℕ) (s : Text) (args : List RawArg) (t : Text) (h : Lexes depth s args t) :
      Lexes (depth + 1) (')' :: s) (.unquoted [')'] :: args) t
  | quoted (depth : ℕ) (s raw u : Text) (args : List RawArg) (t : Text)
      (hraw : quotedBody s = some (raw, u)) (h : Lexes depth u args t) :
      Lexes depth ('"' :: s) (.quoted raw :: args) t
  | unquoted (depth : ℕ) (c : Char) (s : Text) (args : List RawArg) (t : Text)
      (hraw : (unquotedBody (c :: s)).1 ≠ []) (h : Lexes depth (unquotedBody (c :: s)).2 args t) :
      Lexes depth (c :: s) (.unquoted (unquotedBody (c :: s)).1 :: args) t

theorem dropWhile_ne_newline (s : Text) :
    s.dropWhile (· ≠ '\n') = [] ∨ (s.dropWhile (· ≠ '\n')).head? = some '\n' := by
  cases hd : s.dropWhile (· ≠ '\n') with
  | nil => exact Or.inl rfl
  | cons c t =>
    have hne : s.dropWhile (· ≠ '\n') ≠ [] := by rw [hd]; exact List.cons_ne_nil c t
    have hc := List.head_dropWhile_not (fun c : Char => decide (c ≠ '\n')) hne
    right
    simp only [hd, List.head_cons, decide_eq_false_iff_not, not_not] at hc
    rw [hc, List.head?_cons]

theorem lexes_of_lexArgs (h : lexArgs n depth s = some (args, t)) : Lexes depth s args t := by
  induction n generalizing depth s args t with
  | zero => cases h
  | succ n ih =>
    cases s with
    | nil => cases h
    | cons c u =>
      rw [lexArgs] at h
      by_cases hspace : (c = '\n' || isBlank c) = true
      · rw [if_pos hspace] at h
        exact .space _ _ _ _ _ (by simpa using hspace) (ih h)
      rw [if_neg hspace] at h
      by_cases hhash : c = '#'
      · rw [if_pos hhash] at h
        have hcomment := Lexes.comment depth (u.takeWhile (· ≠ '\n')) _ _ _
          (dropWhile_ne_newline u) (ih h)
        rwa [List.takeWhile_append_dropWhile, ← hhash] at hcomment
      rw [if_neg hhash] at h
      by_cases hopen : c = '('
      · rw [if_pos hopen] at h
        obtain ⟨⟨args', t'⟩, hargs, hp⟩ := Option.map_eq_some_iff.mp h
        obtain ⟨rfl, rfl⟩ := Prod.mk.inj hp
        rw [hopen]
        exact .openParen _ _ _ _ (ih hargs)
      rw [if_neg hopen] at h
      by_cases hclose : c = ')'
      · rw [if_pos hclose] at h
        rw [hclose]
        cases depth with
        | zero =>
          obtain ⟨rfl, rfl⟩ := Prod.mk.inj (Option.some.inj h)
          exact .close _
        | succ depth =>
          obtain ⟨⟨args', t'⟩, hargs, hp⟩ := Option.map_eq_some_iff.mp h
          obtain ⟨rfl, rfl⟩ := Prod.mk.inj hp
          exact .closeParen _ _ _ _ (ih hargs)
      rw [if_neg hclose] at h
      by_cases hquote : c = '"'
      · rw [if_pos hquote] at h
        obtain ⟨⟨raw, v⟩, hraw, h⟩ := Option.bind_eq_some_iff.mp h
        obtain ⟨⟨args', t'⟩, hargs, hp⟩ := Option.map_eq_some_iff.mp h
        obtain ⟨rfl, rfl⟩ := Prod.mk.inj hp
        rw [hquote]
        exact .quoted _ _ _ _ _ _ hraw (ih hargs)
      rw [if_neg hquote] at h
      by_cases hraw : (unquotedBody (c :: u)).1 = []
      · rw [if_pos hraw] at h
        cases h
      rw [if_neg hraw] at h
      obtain ⟨⟨args', t'⟩, hargs, hp⟩ := Option.map_eq_some_iff.mp h
      obtain ⟨rfl, rfl⟩ := Prod.mk.inj hp
      exact .unquoted _ _ _ _ _ hraw (ih hargs)

/-- The quotes an argument uses up. -/
def RawArg.quotes : RawArg → ℕ
  | .quoted raw => raw.count '"' + 2
  | .unquoted raw => raw.count '"'

/-- The arguments end with a parenthesis, and use up no more quotes than there are in front of
it. -/
theorem Lexes.spec (h : Lexes depth s args t) :
    ∃ p, s = p ++ ')' :: t ∧ (args.map RawArg.quotes).sum ≤ p.count '"' := by
  induction h with
  | close t => exact ⟨[], rfl, le_rfl⟩
  | space _ c _ _ _ _ _ ih =>
    obtain ⟨p, rfl, hp⟩ := ih
    exact ⟨c :: p, rfl, hp.trans (List.count_le_count_cons)⟩
  | comment _ q _ _ _ _ _ ih =>
    obtain ⟨p, rfl, hp⟩ := ih
    refine ⟨'#' :: (q ++ p), by simp, ?_⟩
    rw [List.count_cons, List.count_append]
    omega
  | openParen _ _ _ _ _ ih =>
    obtain ⟨p, rfl, hp⟩ := ih
    exact ⟨'(' :: p, rfl, by simpa [RawArg.quotes] using hp⟩
  | closeParen _ _ _ _ _ ih =>
    obtain ⟨p, rfl, hp⟩ := ih
    exact ⟨')' :: p, rfl, by simpa [RawArg.quotes] using hp⟩
  | quoted _ _ raw _ _ _ hraw _ ih =>
    obtain ⟨p, rfl, hp⟩ := ih
    obtain ⟨q, rfl, hsub, -⟩ := quotedBody_spec hraw
    refine ⟨'"' :: (q ++ '"' :: p), by simp, ?_⟩
    have := hsub.count_le '"'
    simp only [List.map_cons, List.sum_cons, RawArg.quotes, List.count_cons, List.count_append,
      beq_self_eq_true, if_true]
    omega
  | unquoted _ c u _ _ _ _ ih =>
    obtain ⟨p, hu, hp⟩ := ih
    refine ⟨(unquotedBody (c :: u)).1 ++ p, ?_, ?_⟩
    · rw [List.append_assoc, ← hu, unquotedBody_append]
    · simp only [List.map_cons, List.sum_cons, RawArg.quotes, List.count_append]
      omega

theorem Lexes.length_lt (h : Lexes depth s args t) : t.length < s.length := by
  obtain ⟨p, rfl, -⟩ := h.spec
  rw [List.length_append, List.length_cons]
  omega

/-- Directly in front of a closing parenthesis there is no argument. -/
theorem Lexes.close_eq (h : Lexes depth (')' :: t) args t) : args = [] := by
  cases h with
  | close => rfl
  | space _ _ _ _ _ hc _ => exact absurd hc (by decide)
  | closeParen _ _ _ _ h => exact absurd h.length_lt (Nat.lt_irrefl _)
  | unquoted _ _ _ _ _ hraw _ =>
    rw [unquotedBody_end (by decide) (by decide)] at hraw
    exact absurd rfl hraw

/-- What is not the quote itself is in front of it. -/
theorem eq_cons_of_ne_quote {u : Text} (hc : c ≠ '"') (he : c :: u = x ++ '"' :: ')' :: t) :
    ∃ x', x = c :: x' ∧ u = x' ++ '"' :: ')' :: t := by
  cases x with
  | nil => exact absurd (List.cons.inj he).1 hc
  | cons b x' =>
    obtain ⟨rfl, rfl⟩ := List.cons.inj he
    exact ⟨x', rfl, rfl⟩

/-- A comment takes the rest of its line along, and the closing parenthesis with it. -/
theorem Lexes.ne_of_comment {p : Text} (h : Lexes depth s args t)
    (hstart : s = [] ∨ s.head? = some '\n') (hnl : '\n' ∉ x) : p ++ s ≠ x ++ '"' :: ')' :: t := by
  intro he
  have hlt := h.length_lt
  rcases hstart with rfl | hhead
  · exact absurd hlt (Nat.not_lt_zero _)
  have hsplit : p ++ s = (x ++ ['"', ')']) ++ t := by simpa using he
  rcases List.append_eq_append_iff.mp hsplit with ⟨y, hy, hs⟩ | ⟨y, -, hs⟩
  · have hmem : '\n' ∈ x ++ ['"', ')'] := by
      cases y with
      | nil =>
        rw [List.nil_append] at hs
        rw [hs] at hlt
        exact absurd hlt (Nat.lt_irrefl _)
      | cons b y =>
        rw [hs, List.cons_append, List.head?_cons] at hhead
        rw [hy, Option.some.inj hhead]
        simp
    exact hnl (by simpa using hmem)
  · rw [hs, List.length_append] at hlt
    omega

/-- A quote in front of the closing parenthesis that closes no quoted argument ends an unquoted
one, behind a backslash. -/
theorem Lexes.final_quote (h : Lexes depth s args t) (hs : s = x ++ '"' :: ')' :: t)
    (hnl : '\n' ∉ x) (hquoted : ∀ raw, RawArg.quoted raw ∉ args) :
    x.getLast? = some '\\' ∧
      ∃ raw, args.getLast? = some (.unquoted raw) ∧ raw.getLast? = some '"' := by
  induction h generalizing x with
  | close t =>
    have hlen := congrArg List.length hs
    simp only [List.length_cons, List.length_append] at hlen
    omega
  | space _ c s _ _ hc _ ih =>
    have hcq : c ≠ '"' := by
      rintro rfl
      exact absurd hc (by decide)
    obtain ⟨x', rfl, rfl⟩ := eq_cons_of_ne_quote hcq hs
    obtain ⟨hx', hraw⟩ := ih rfl (fun h => hnl (List.mem_cons_of_mem c h)) hquoted
    exact ⟨List.mem_getLast?_cons hx', hraw⟩
  | comment _ p s _ t hstart h _ =>
    obtain ⟨x', rfl, he⟩ := eq_cons_of_ne_quote (by decide) hs
    exact absurd he (h.ne_of_comment hstart fun h => hnl (List.mem_cons_of_mem _ h))
  | openParen _ s _ _ _ ih =>
    obtain ⟨x', rfl, rfl⟩ := eq_cons_of_ne_quote (by decide) hs
    obtain ⟨hx', raw, hl, hr⟩ := ih rfl (fun h => hnl (List.mem_cons_of_mem _ h))
      fun raw h => hquoted raw (List.mem_cons_of_mem _ h)
    exact ⟨List.mem_getLast?_cons hx', raw, List.mem_getLast?_cons hl, hr⟩
  | closeParen _ s _ _ _ ih =>
    obtain ⟨x', rfl, rfl⟩ := eq_cons_of_ne_quote (by decide) hs
    obtain ⟨hx', raw, hl, hr⟩ := ih rfl (fun h => hnl (List.mem_cons_of_mem _ h))
      fun raw h => hquoted raw (List.mem_cons_of_mem _ h)
    exact ⟨List.mem_getLast?_cons hx', raw, List.mem_getLast?_cons hl, hr⟩
  | quoted _ _ raw _ _ _ _ _ _ => exact absurd List.mem_cons_self (hquoted raw)
  | unquoted _ c u args t hraw h ih =>
    rw [hs] at hraw h ih ⊢
    have happend := unquotedBody_append (x ++ '"' :: ')' :: t)
    rcases unquotedBody_quote x t with ⟨v, hv⟩ | ⟨hall, hx⟩
    · -- the quote is behind this argument
      have hxv : x = (unquotedBody (x ++ '"' :: ')' :: t)).1 ++ v := by
        rw [hv, ← List.append_assoc] at happend
        exact (List.append_cancel_right happend).symm
      obtain ⟨hv', raw, hl, hr⟩ := ih hv (fun h => hnl (hxv ▸ List.mem_append_right _ h))
        fun raw h => hquoted raw (List.mem_cons_of_mem _ h)
      refine ⟨?_, raw, List.mem_getLast?_cons hl, hr⟩
      rw [hxv]
      exact List.mem_getLast?_append_of_mem_getLast? hv'
    · rw [hall] at h ⊢
      rw [h.close_eq]
      exact ⟨hx, _, rfl, by simp⟩

end Common.CMake
