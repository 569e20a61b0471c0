import MaixSpeech.Common.PyStr
import Mathlib.Data.List.TakeWhile

/-!
# The text of a CMake argument

An argument is evaluated from its left to its right: an escape gives a character, a reference the
value of what it names, anything else itself. A text without escapes and references is `inert` and
gives itself. It is also the only one that does, when the values are inert themselves
(`inert_of_expand_eq`): no active piece of a text occurs in what it gives, so from the first one on
the output falls behind the text and never catches up.
-/

namespace Common.CMake

/-! ## Evaluation -/

/-- `\x24\x7b..\x7d`, and the same with `ENV` and `CACHE` behind the dollar sign. -/
inductive RefKind where
  | var | env | cache
deriving DecidableEq

/-- The characters that may stand in the name of a variable. -/
def isNameChar (c : Char) : Bool :=
  c.isAlphanum || c = '_' || c = '/' || c = '.' || c = '+' || c = '-'

/-- The word in front of an opening brace, when a word and a brace follow a dollar sign, and the
text behind the brace. -/
def refHead (t : Text) : Option (Text × Text) :=
  match t.dropWhile isNameChar with
  | '\x7b' :: rest => some (t.takeWhile isNameChar, rest)
  | _ => none

/-- The kind of reference a word stands for; other words are errors. -/
def refKind (word : Text) : Option RefKind :=
  if word = [] then some .var
  else if word = "ENV".toList then some .env
  else if word = "CACHE".toList then some .cache
  else none

/-- The character an escape stands for, `\;` apart. -/
def escapeChar (c : Char) : Option Char :=
  if c = 'n' then some '\n'
  else if c = 't' then some '\t'
  else if c = 'r' then some '\r'
  else if c.isAlphanum then none
  else some c

/-- The name of a reference up to the closing brace, with the references in it evaluated, and the
text behind the brace. -/
def refName (look : RefKind → Text → Text) : ℕ → Text → Option (Text × Text)
  | 0, _ => none
  | _ + 1, [] => none
  | n + 1, c :: t =>
    if c = '\x7d' then some ([], t)
    else if c = '\\' then
      match t with
      | [] => none
      | e :: t => (escapeChar e).bind fun x => (refName look n t).map fun p => (x :: p.1, p.2)
    else if c = '$' then
      match refHead t with
      | none => (refName look n t).map fun p => ('$' :: p.1, p.2)
      | some h => (refKind h.1).bind fun k =>
        (refName look n h.2).bind fun p => (refName look n p.2).map fun q =>
          (look k p.1 ++ q.1, q.2)
    else if isNameChar c then (refName look n t).map fun p => (c :: p.1, p.2)
    else none

/-- The first piece of a text: what it gives, and the text behind it. -/
def expandToken (look : RefKind → Text → Text) : Text → Option (Text × Text)
  | [] => none
  | c :: t =>
    if c = '\\' then
      match t with
      | [] => none
      | e :: t => if e = ';' then some (['\\', ';'], t) else (escapeChar e).map fun x => ([x], t)
    else if c = '$' then
      match refHead t with
      | none => some (['$'], t)
      | some h => (refKind h.1).bind fun k =>
        (refName look h.2.length h.2).map fun p => (look k p.1, p.2)
    else some ([c], t)

/-- The evaluation of a text with at most `n` pieces. -/
def expandPieces (look : RefKind → Text → Text) : ℕ → Text → Option Text
  | _, [] => some []
  | 0, _ :: _ => none
  | n + 1, c :: t =>
    (expandToken look (c :: t)).bind fun p => (expandPieces look n p.2).map (p.1 ++ ·)

/-- The evaluation of the text of an argument. -/
def expand (look : RefKind → Text → Text) (s : Text) : Option Text := expandPieces look s.length s

/-- Nothing in the text is evaluated. -/
def inert : Text → Bool
  | [] => true
  | c :: t =>
    if c = '\\' then
      match t with
      | [] => false
      | e :: t => e = ';' && inert t
    else if c = '$' then (refHead t).isNone && inert t
    else inert t

example : expand (fun _ name => name ++ name) "a\\\"$\x7bb\x7d$ \\;".toList =
    some "a\"bb$ \\;".toList := by decide +kernel

variable {look : RefKind → Text → Text} {s t o r v : Text} {c : Char}

/-! ## Inert texts -/

theorem inert_backslash (e : Char) (t : Text) :
    inert ('\\' :: e :: t) = (decide (e = ';') && inert t) := by
  rw [inert.eq_def]
  rfl

theorem inert_dollar (t : Text) : inert ('$' :: t) = ((refHead t).isNone && inert t) := by
  rw [inert.eq_def]
  rfl

theorem inert_cons (hc : c ≠ '\\') (hd : c ≠ '$') (t : Text) : inert (c :: t) = inert t := by
  rw [inert.eq_def]
  simp only [if_neg hc, if_neg hd]

theorem inert_of_cons (h : inert (c :: t) = true) : inert t = true := by
  by_cases hc : c = '\\'
  · subst hc
    cases t with
    | nil => cases h
    | cons e t =>
      -- what is behind the backslash is a semicolon
      rw [inert_backslash, Bool.and_eq_true, decide_eq_true_eq] at h
      rw [h.1, inert_cons (by decide) (by decide)]
      exact h.2
  · by_cases hd : c = '$'
    · subst hd
      rw [inert_dollar, Bool.and_eq_true] at h
      exact h.2
    · rwa [inert_cons hc hd] at h

theorem inert_of_append (p : Text) (h : inert (p ++ t) = true) : inert t = true := by
  induction p with
  | nil => exact h
  | cons c p ih => exact ih (inert_of_cons h)

theorem refHead_eq_some_iff {word : Text} :
    refHead t = some (word, r) ↔
      t = word ++ '\x7b' :: r ∧ ∀ c ∈ word, isNameChar c = true := by
  have hbrace : isNameChar '\x7b' = false := by decide
  unfold refHead
  constructor
  · intro h
    split at h
    · rename_i rest hrest
      obtain ⟨rfl, rfl⟩ := Prod.mk.inj (Option.some.inj h)
      refine ⟨?_, fun c hc => List.mem_takeWhile_imp hc⟩
      rw [← hrest, List.takeWhile_append_dropWhile]
    · cases h
  · rintro ⟨rfl, hword⟩
    rw [List.dropWhile_append_of_pos hword, List.takeWhile_append_of_pos hword]
    simp [hbrace]

/-- A reference does not stand in an inert text. -/
theorem not_infix_of_inert (h : inert v = true) {word : Text}
    (hword : ∀ c ∈ word, isNameChar c = true) (r : Text) :
    ¬ '$' :: (word ++ '\x7b' :: r) <:+: v := by
  rintro ⟨p, q, rfl⟩
  rw [List.append_assoc] at h
  have href := inert_of_append p h
  rw [List.cons_append, inert_dollar, List.append_assoc, List.cons_append,
    refHead_eq_some_iff.mpr ⟨rfl, hword⟩] at href
  cases href

/-! ## The pieces -/

theorem refName_spec {n : ℕ} {nm : Text} (h : refName look n s = some (nm, r)) :
    ∃ p, s = p ++ '\x7d' :: r := by
  induction n generalizing s nm r with
  | zero => cases h
  | succ n ih =>
    have hrest : ∀ (u : Text) (f : Text → Text),
        (refName look n u).map (fun p => (f p.1, p.2)) = some (nm, r) → ∃ p, u = p ++ '\x7d' :: r := by
      intro u f hu
      obtain ⟨⟨nm', r'⟩, hname, hp⟩ := Option.map_eq_some_iff.mp hu
      obtain ⟨-, rfl⟩ := Prod.mk.inj hp
      exact ih hname
    cases s with
    | nil => cases h
    | cons c t =>
      rw [refName.eq_def] at h
      simp only at h
      split at h
      · rename_i hc
        obtain ⟨-, rfl⟩ := Prod.mk.inj (Option.some.inj h)
        exact ⟨[], by rw [hc]; rfl⟩
      · split at h
        · cases t with
          | nil => cases h
          | cons e t =>
            obtain ⟨x, -, hx⟩ := Option.bind_eq_some_iff.mp h
            obtain ⟨p, rfl⟩ := hrest t (x :: ·) hx
            exact ⟨c :: e :: p, rfl⟩
        · split at h
          · cases hhead : refHead t with
            | none =>
              rw [hhead] at h
              obtain ⟨p, rfl⟩ := hrest t ('$' :: ·) h
              exact ⟨c :: p, rfl⟩
            | some q =>
              obtain ⟨word, t'⟩ := q
              rw [hhead] at h
              obtain ⟨k, -, h⟩ := Option.bind_eq_some_iff.mp h
              obtain ⟨⟨nm1, r1⟩, hname1, htail⟩ := Option.bind_eq_some_iff.mp h
              obtain ⟨rfl, -⟩ := refHead_eq_some_iff.mp hhead
              obtain ⟨p1, hp1⟩ := ih hname1
              obtain ⟨p2, rfl⟩ := hrest r1 (look k nm1 ++ ·) htail
              simp only at hp1
              refine ⟨c :: (word ++ '\x7b' :: (p1 ++ '\x7d' :: p2)), ?_⟩
              rw [hp1]
              simp
          · split at h
            · obtain ⟨p, rfl⟩ := hrest t (c :: ·) h
              exact ⟨c :: p, rfl⟩
            · cases h

/-- What the first piece of a text can be. -/
inductive Token (look : RefKind → Text → Text) : Text → Text → Text → Prop
  | semicolon (r : Text) : Token look ('\\' :: ';' :: r) ['\\', ';'] r
  | escape (e x : Char) (r : Text) (he : e ≠ ';') (hx : escapeChar e = some x) :
      Token look ('\\' :: e :: r) [x] r
  | reference (k : RefKind) (word name p r : Text) (hword : ∀ c ∈ word, isNameChar c = true) :
      Token look ('$' :: (word ++ '\x7b' :: (p ++ '\x7d' :: r))) (look k name) r
  | plain (c : Char) (r : Text) (hc : c ≠ '\\') (hd : c = '$' → refHead r = none) :
      Token look (c :: r) [c] r

theorem expandToken_cases (h : expandToken look s = some (o, r)) : Token look s o r := by
  cases s with
  | nil => cases h
  | cons c t =>
    rw [expandToken.eq_def] at h
    simp only at h
    split at h
    · rename_i hc
      subst hc
      cases t with
      | nil => cases h
      | cons e t =>
        simp only at h
        split at h
        · rename_i he
          subst he
          obtain ⟨rfl, rfl⟩ := Prod.mk.inj (Option.some.inj h)
          exact .semicolon t
        · rename_i he
          obtain ⟨x, hx, hp⟩ := Option.map_eq_some_iff.mp h
          obtain ⟨rfl, rfl⟩ := Prod.mk.inj hp
          exact .escape e x t he hx
    · rename_i hc
      split at h
      · rename_i hd
        subst hd
        cases hhead : refHead t with
        | none =>
          rw [hhead] at h
          obtain ⟨rfl, rfl⟩ := Prod.mk.inj (Option.some.inj h)
          exact .plain '$' t hc fun _ => hhead
        | some p =>
          obtain ⟨word, t'⟩ := p
          rw [hhead] at h
          obtain ⟨k, -, h⟩ := Option.bind_eq_some_iff.mp h
          obtain ⟨⟨nm, r'⟩, hname, hp⟩ := Option.map_eq_some_iff.mp h
          obtain ⟨rfl, rfl⟩ := Prod.mk.inj hp
          obtain ⟨rfl, hword⟩ := refHead_eq_some_iff.mp hhead
          obtain ⟨p, hp⟩ := refName_spec hname
          simp only at hp
          rw [hp]
          exact .reference k word nm p r' hword
      · rename_i hd
        obtain ⟨rfl, rfl⟩ := Prod.mk.inj (Option.some.inj h)
        exact .plain c t hc fun hd' => absurd hd' hd

theorem Token.suffix (h : Token look s o r) : r <:+ s := by
  cases h with
  | semicolon => exact ⟨['\\', ';'], rfl⟩
  | escape e _ => exact ⟨['\\', e], rfl⟩
  | reference _ word _ p _ _ => exact ⟨'$' :: (word ++ '\x7b' :: (p ++ ['\x7d'])), by simp⟩
  | plain c _ _ _ => exact ⟨[c], rfl⟩

/-! ## Whole texts -/

/-- A text gives what its pieces give. -/
inductive Expands (look : RefKind → Text → Text) : Text → Text → Prop
  | nil : Expands look [] []
  | piece (s o r v : Text) (htoken : Token look s o r) (hrest : Expands look r v) :
      Expands look s (o ++ v)

theorem expands_of_expandPieces {n : ℕ} (h : expandPieces look n s = some v) :
    Expands look s v := by
  induction n generalizing s v with
  | zero =>
    cases s with
    | nil => cases h; exact .nil
    | cons c t => cases h
  | succ n ih =>
    cases s with
    | nil => cases h; exact .nil
    | cons c t =>
      obtain ⟨⟨o, r⟩, htoken, h⟩ := Option.bind_eq_some_iff.mp h
      obtain ⟨v', hv', rfl⟩ := Option.map_eq_some_iff.mp h
      exact .piece _ o r v' (expandToken_cases htoken) (ih hv')

theorem expands_of_expand (h : expand look s = some v) : Expands look s v :=
  expands_of_expandPieces h

/-- The first piece of an inert text gives itself. -/
theorem expandToken_of_inert (look : RefKind → Text → Text) (h : inert (c :: t) = true) :
    ∃ p r, expandToken look (c :: t) = some (p, r) ∧ c :: t = p ++ r ∧ inert r = true ∧
      r.length ≤ t.length := by
  by_cases hc : c = '\\'
  · subst hc
    cases t with
    | nil => cases h
    | cons e t =>
      rw [inert_backslash, Bool.and_eq_true, decide_eq_true_eq] at h
      obtain ⟨rfl, ht⟩ := h
      refine ⟨['\\', ';'], t, ?_, rfl, ht, by simp⟩
      rw [expandToken.eq_def]
      rfl
  · by_cases hd : c = '$'
    · subst hd
      rw [inert_dollar, Bool.and_eq_true, Option.isNone_iff_eq_none] at h
      refine ⟨['$'], t, ?_, rfl, h.2, le_rfl⟩
      rw [expandToken.eq_def]
      simp [h.1]
    · rw [inert_cons hc hd] at h
      refine ⟨[c], t, ?_, rfl, h, le_rfl⟩
      rw [expandToken.eq_def]
      simp [hc, hd]

theorem expandPieces_of_inert (look : RefKind → Text → Text) {n : ℕ} (hn : s.length ≤ n)
    (h : inert s = true) : expandPieces look n s = some s := by
  induction n generalizing s with
  | zero =>
    rw [List.eq_nil_of_length_eq_zero (Nat.le_zero.mp hn)]
    rfl
  | succ n ih =>
    cases s with
    | nil => rfl
    | cons c t =>
      obtain ⟨p, r, htoken, hs, hr, hlen⟩ := expandToken_of_inert look h
      rw [List.length_cons] at hn
      rw [expandPieces, htoken, Option.bind_some, ih (by omega) hr, Option.map_some, hs]

/-- An inert text gives itself. -/
theorem expand_of_inert (look : RefKind → Text → Text) (h : inert s = true) :
    expand look s = some s := expandPieces_of_inert look le_rfl h

/-! ### What a text cannot give -/

section Values

/-- A piece gives itself, or something in which it does not occur. -/
theorem Token.inert_or_not_infix (hlook : ∀ k name, inert (look k name) = true)
    (h : Token look s o r) : ∃ p, p ≠ [] ∧ s = p ++ r ∧
      (o = p ∧ (inert r = true → inert s = true) ∨ ¬ p <:+: o) := by
  cases h with
  | semicolon => exact ⟨['\\', ';'], by simp, rfl, Or.inl ⟨rfl, fun hr => by
      rw [inert_backslash, hr]; rfl⟩⟩
  | escape e x =>
    refine ⟨['\\', e], by simp, rfl, Or.inr fun hinf => ?_⟩
    exact absurd hinf.length_le (by simp)
  | reference k word name p _ hword =>
    refine ⟨'$' :: (word ++ '\x7b' :: (p ++ ['\x7d'])), by simp, by simp, Or.inr ?_⟩
    exact not_infix_of_inert (hlook k name) hword _
  | plain c _ hc hd =>
    refine ⟨[c], by simp, rfl, Or.inl ⟨rfl, fun hr => ?_⟩⟩
    by_cases hdollar : c = '$'
    · rw [hdollar, inert_dollar, hd hdollar, hr]
      rfl
    · rw [inert_cons hc hdollar, hr]

/-- Once the output is behind the text, by `d`, it does not catch up. -/
theorem Expands.ne_append (hlook : ∀ k name, inert (look k name) = true) (h : Expands look s v)
    {d : Text} (hd : d ≠ []) : v ≠ d ++ s := by
  induction h generalizing d with
  | nil => exact fun heq => hd (List.append_eq_nil_iff.mp heq.symm).1
  | piece s o r v htoken _ ih =>
    obtain ⟨p, hp, rfl, hpiece⟩ := htoken.inert_or_not_infix hlook
    intro heq
    rw [← List.append_assoc] at heq
    rcases List.append_eq_append_iff.mp heq with ⟨d', hd', hv⟩ | ⟨q, hq, -⟩
    · by_cases hnil : d' = []
      · -- the output has caught up, so the piece stands in what it gives
        rw [hnil, List.append_nil] at hd'
        rcases hpiece with ⟨rfl, -⟩ | hnot
        · exact hd (List.append_left_eq_self.mp hd')
        · exact hnot (hd' ▸ (List.suffix_append d p).isInfix)
      · exact ih hnil hv
    · rcases hpiece with ⟨rfl, -⟩ | hnot
      · have hlen := congrArg List.length hq
        simp only [List.length_append] at hlen
        have := List.length_pos_iff.mpr hd
        omega
      · exact hnot ⟨d, q, hq.symm⟩

/-- **Only an inert text gives itself.** -/
theorem inert_of_expand_eq (hlook : ∀ k name, inert (look k name) = true)
    (h : expand look s = some s) : inert s = true := by
  have hall : ∀ s v, Expands look s v → v = s → inert s = true := by
    intro s v hv
    induction hv with
    | nil => exact fun _ => rfl
    | piece s o r v htoken hrest ih =>
      obtain ⟨p, hp, rfl, hpiece⟩ := htoken.inert_or_not_infix hlook
      intro heq
      rcases hpiece with ⟨rfl, hinert⟩ | hnot
      · exact hinert (ih (List.append_cancel_left heq))
      · rcases List.append_eq_append_iff.mp heq with ⟨d, hd, hv⟩ | ⟨q, hq, -⟩
        · by_cases hnil : d = []
          · rw [hnil, List.append_nil] at hd
            exact absurd (hd ▸ List.infix_rfl) hnot
          · exact absurd hv (hrest.ne_append hlook hnil)
        · exact absurd (hq ▸ (List.prefix_append p q).isInfix) hnot
  exact hall s s (expands_of_expand h) rfl

/-- An evaluation makes no quotes out of values without quotes. -/
theorem Expands.count_quote_le (hlook : ∀ k name, '"' ∉ look k name) (h : Expands look s v) :
    v.count '"' ≤ s.count '"' := by
  induction h with
  | nil => exact le_rfl
  | piece s o r v htoken _ ih =>
    rw [List.count_append]
    cases htoken with
    | semicolon => simpa using ih
    | escape e x _ _ hx =>
      have hquote : x = '"' → e = '"' := by
        rintro rfl
        unfold escapeChar at hx
        split_ifs at hx <;> simp_all
      simp only [List.count_cons, List.count_nil]
      by_cases hx' : x = '"'
      · simp [hx', hquote hx']
        omega
      · simp [hx']
        omega
    | reference k word name p _ _ =>
      rw [List.count_eq_zero_of_not_mem (hlook k name)]
      simp only [List.count_cons, List.count_append]
      omega
    | plain c _ _ _ =>
      simp only [List.count_cons, List.count_nil]
      omega

/-- A quote at the end of a text stays there. -/
theorem Expands.getLast?_quote (h : Expands look s v) (hs : s.getLast? = some '"') :
    v.getLast? = some '"' := by
  induction h with
  | nil => exact hs
  | piece s o r v htoken hrest ih =>
    cases hr : r with
    | cons c t =>
      have hrlast : r.getLast? = some '"' := by
        obtain ⟨p, hp⟩ := htoken.suffix
        rw [← hp, List.getLast?_append, hr, List.getLast?_cons] at hs
        rw [hr, List.getLast?_cons]
        exact hs
      rw [List.getLast?_append, ih hrlast, Option.some_or]
    | nil =>
      subst hr
      cases hrest with
      | nil =>
        rw [List.append_nil]
        cases htoken with
        | semicolon => simp at hs
        | escape e x _ _ hx =>
          have he : e = '"' := by simpa using hs
          rw [he] at hx
          cases hx
          rfl
        | reference k word name p _ _ =>
          have hend : '$' :: (word ++ '\x7b' :: (p ++ ['\x7d'])) =
              '$' :: (word ++ '\x7b' :: p) ++ ['\x7d'] := by simp
          rw [hend, List.getLast?_concat] at hs
          exact absurd (Option.some.inj hs) (by decide)
        | plain c _ _ _ => exact hs
      | piece _ _ _ _ htoken' _ => cases htoken'

end Values

end Common.CMake
