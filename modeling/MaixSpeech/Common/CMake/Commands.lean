import MaixSpeech.Common.CMake.Lex

/-!
# Lines with one `set` command

The values of a command and what `set` makes of them, then files in which every line is a command
`set(name ...)`. Such a file changes no variable but those its lines name, however its commands turn
out to be read (`readLines_frame`): a command begins only behind a newline.
-/

namespace Common.CMake

variable {look : RefKind → Text → Text} {s t v x name body : Text} {c : Char}
  {values vs : List Text} {args : List RawArg} {vars vars' : Vars}

/-! ## Quotes in values -/

/-- The number of quotes in some texts. -/
def quoteSum (vs : List Text) : ℕ := (vs.map (List.count '"')).sum

@[simp] theorem quoteSum_nil : quoteSum [] = 0 := rfl

@[simp] theorem quoteSum_cons (v : Text) (vs : List Text) :
    quoteSum (v :: vs) = v.count '"' + quoteSum vs := by
  simp [quoteSum]

@[simp] theorem quoteSum_append (vs ws : List Text) :
    quoteSum (vs ++ ws) = quoteSum vs + quoteSum ws := by
  simp [quoteSum]

/-- The elements of a list have no more quotes than its text. -/
theorem quoteSum_expandList_le (nest : ℤ) (cur s : Text) :
    quoteSum (expandList nest cur s) ≤ cur.count '"' + s.count '"' := by
  fun_induction expandList nest cur s <;>
    simp only [quoteSum_nil, quoteSum_cons, List.count_append, List.count_cons,
      List.count_nil] at * <;> omega

/-- A quote at the end of a list ends its last element. -/
theorem expandList_getLast?_quote (nest : ℤ) {cur s : Text}
    (h : s.getLast?.or cur.getLast? = some '"') :
    ∃ e, (expandList nest cur s).getLast? = some e ∧ e.getLast? = some '"' := by
  -- behind a separator the quote is in the rest
  have hrest : ∀ {c : Char} {t : Text}, c = ';' → t.getLast?.getD c = '"' →
      t.getLast? = some '"' := by
    intro c t hc ht
    cases hl : t.getLast? with
    | none =>
      rw [hl, hc] at ht
      exact absurd ht (by decide)
    | some d => rw [hl] at ht; exact congrArg some ht
  fun_induction expandList nest cur s with
  | case1 => cases h
  | case2 _ cur _ => exact ⟨cur, rfl, h⟩
  | case3 _ cur => simp at h
  | case4 nest cur t ih => exact ih (by simpa [List.getLast?_cons] using h)
  | case5 nest cur e t _ ih => exact ih (by simpa [List.getLast?_cons] using h)
  | case6 nest cur t _ ih => exact ih (by simpa [List.getLast?_cons] using h)
  | case7 nest cur t _ _ ih => exact ih (by simpa [List.getLast?_cons] using h)
  | case8 nest c t _ _ _ hc ih =>
    simp only [List.getLast?_cons, Option.some_or, Option.some.injEq] at h
    simp only [Bool.and_eq_true, decide_eq_true_eq] at hc
    exact ih (by simpa using hrest hc.1 h)
  | case9 nest cur c t _ _ _ hc _ ih =>
    simp only [List.getLast?_cons, Option.some_or, Option.some.injEq] at h
    simp only [Bool.and_eq_true, decide_eq_true_eq] at hc
    obtain ⟨e, he, hq⟩ := ih (by simpa using hrest hc.1 h)
    exact ⟨e, by rw [List.getLast?_cons, he]; rfl, hq⟩
  | case10 nest cur c t _ _ _ _ ih => exact ih (by simpa [List.getLast?_cons] using h)

/-! ## The values of a command -/

theorem quoteSum_evalArgs_le (hlook : ∀ k name, '"' ∉ look k name)
    (h : evalArgs look args = some vs) :
    quoteSum vs ≤ (args.map RawArg.quotes).sum ∧
      ((∃ raw, RawArg.quoted raw ∈ args) → quoteSum vs + 2 ≤ (args.map RawArg.quotes).sum) := by
  induction args generalizing vs with
  | nil =>
    cases h
    refine ⟨le_rfl, ?_⟩
    rintro ⟨raw, hmem⟩
    exact absurd hmem List.not_mem_nil
  | cons a args ih =>
    obtain ⟨ws, ha, h⟩ := Option.bind_eq_some_iff.mp h
    obtain ⟨us, hargs, rfl⟩ := Option.map_eq_some_iff.mp h
    obtain ⟨hle, hlt⟩ := ih hargs
    rw [quoteSum_append, List.map_cons, List.sum_cons]
    cases a with
    | quoted raw =>
      obtain ⟨v, hv, rfl⟩ := Option.map_eq_some_iff.mp ha
      have hcount := (expands_of_expand hv).count_quote_le hlook
      simp only [quoteSum_cons, quoteSum_nil, RawArg.quotes]
      omega
    | unquoted raw =>
      obtain ⟨v, hv, rfl⟩ := Option.map_eq_some_iff.mp ha
      have hcount := (expands_of_expand hv).count_quote_le hlook
      have hlist := quoteSum_expandList_le 0 [] v
      rw [List.count_nil] at hlist
      simp only [RawArg.quotes, listElements]
      refine ⟨by omega, ?_⟩
      rintro ⟨raw', hmem⟩
      have hargs := hlt ⟨raw', by simpa using hmem⟩
      omega

/-- A quote at the end of the last argument, when it is unquoted, ends the last value. -/
theorem evalArgs_getLast?_quote {raw : Text} (h : evalArgs look args = some vs)
    (hlast : args.getLast? = some (.unquoted raw)) (hraw : raw.getLast? = some '"') :
    ∃ v, vs.getLast? = some v ∧ v.getLast? = some '"' := by
  induction args generalizing vs with
  | nil => cases hlast
  | cons a args ih =>
    obtain ⟨ws, ha, h⟩ := Option.bind_eq_some_iff.mp h
    obtain ⟨us, hargs, rfl⟩ := Option.map_eq_some_iff.mp h
    cases hl : args.getLast? with
    | some b =>
      rw [List.getLast?_cons, hl] at hlast
      obtain rfl := Option.some.inj hlast
      obtain ⟨v, hv, hq⟩ := ih hargs hl
      exact ⟨v, by rw [List.getLast?_append, hv, Option.some_or], hq⟩
    | none =>
      rw [List.getLast?_cons, hl] at hlast
      obtain rfl : a = .unquoted raw := Option.some.inj hlast
      rw [List.getLast?_eq_none_iff.mp hl] at hargs
      cases hargs
      obtain ⟨w, hw, rfl⟩ := Option.map_eq_some_iff.mp ha
      rw [List.append_nil]
      refine expandList_getLast?_quote 0 ?_
      rw [(expands_of_expand hw).getLast?_quote hraw]
      rfl

theorem count_quote_intercalate (vs : List Text) :
    ([';'].intercalate vs).count '"' = quoteSum vs := by
  induction vs with
  | nil => rfl
  | cons v vs ih =>
    cases vs with
    | nil => simp [List.intercalate_singleton]
    | cons w vs =>
      rw [List.intercalate_cons_cons, List.count_append, List.count_append, ih, quoteSum_cons]
      rfl

theorem intercalate_getLast?_quote (hlast : vs.getLast? = some v)
    (hv : v.getLast? = some '"') : ([';'].intercalate vs).getLast? = some '"' := by
  induction vs with
  | nil => cases hlast
  | cons u vs ih =>
    cases vs with
    | nil =>
      obtain rfl : u = v := Option.some.inj hlast
      rwa [List.intercalate_singleton]
    | cons w vs =>
      rw [List.getLast?_cons_cons] at hlast
      rw [List.intercalate_cons_cons, List.getLast?_append, ih hlast, Option.some_or]

/-! ## `set` -/

theorem setCommand_frame (h : setCommand vars (name :: values) = some vars') {w : Text}
    (hw : w ≠ name) : vars' w = vars w := by
  rw [setCommand] at h
  split at h
  · cases h
  · split at h
    · obtain rfl := Option.some.inj h
      rw [Function.update_of_ne hw]
    · split at h
      · rw [Option.some.inj h]
      · split at h
        · cases h
        · obtain rfl := Option.some.inj h
          rw [Function.update_of_ne hw]

/-- A variable gets a value from a command by joining the values it has. -/
theorem setCommand_eq (h : setCommand vars (name :: values) = some vars') (hnone : vars name = none)
    (hx : vars' name = some x) :
    values ≠ [] ∧ values.getLast? ≠ some "PARENT_SCOPE".toList ∧
      x = [';'].intercalate values ∧ vars' = Function.update vars name (some x) := by
  rw [setCommand] at h
  split at h
  · cases h
  · split at h
    · obtain rfl := Option.some.inj h
      rw [Function.update_self] at hx
      cases hx
    · rename_i hne
      split at h
      · rw [← Option.some.inj h, hnone] at hx
        cases hx
      · rename_i hparent
        split at h
        · cases h
        · obtain rfl := Option.some.inj h
          rw [Function.update_self] at hx
          obtain rfl := Option.some.inj hx
          exact ⟨hne, hparent, rfl, rfl⟩

/-! ## Words -/

/-- The characters of a word; a dollar sign is one of its own where no reference can follow. -/
def isWordChar (c : Char) : Bool := isNameChar c || c = '$'

/-- A text that can be a name: an unquoted argument that stands for itself. -/
structure IsWord (w : Text) : Prop where
  ne_nil : w ≠ []
  chars : ∀ c ∈ w, isWordChar c = true

theorem ne_of_isWordChar (hc : isWordChar c = true) {d : Char} (hd : isWordChar d = false) :
    c ≠ d := by
  rintro rfl
  rw [hc] at hd
  cases hd

theorem IsWord.not_env {w : Text} (hw : IsWord w) : ¬ "ENV\x7b".toList <+: w := by
  rintro ⟨q, rfl⟩
  exact absurd (hw.chars '\x7b' (by simp)) (by decide)

/-- The characters that neither end an unquoted argument nor are evaluated in it. -/
def isUnquotedChar (c : Char) : Bool := c ≠ '\\' && c ≠ '\x7b' && !endsUnquoted c

theorem isUnquotedChar_of_isWordChar (hc : isWordChar c = true) : isUnquotedChar c = true := by
  have h := fun d hd => ne_of_isWordChar hc (d := d) hd
  simp [isUnquotedChar, endsUnquoted, isBlank, h '\\' (by decide), h '\x7b' (by decide),
    h ' ' (by decide), h '\t' (by decide), h '\r' (by decide), h '\n' (by decide),
    h '(' (by decide), h ')' (by decide), h '#' (by decide), h '"' (by decide)]

theorem isUnquotedChar_spec (hc : isUnquotedChar c = true) :
    c ≠ '\\' ∧ c ≠ '\x7b' ∧ endsUnquoted c = false := by
  simpa [isUnquotedChar, and_assoc] using hc

theorem IsWord.unquoted {w : Text} (hw : IsWord w) : ∀ c ∈ w, isUnquotedChar c = true :=
  fun c hc => isUnquotedChar_of_isWordChar (hw.chars c hc)

theorem unquotedBody_of_forall {w : Text} (hw : ∀ c ∈ w, isUnquotedChar c = true)
    (hc : c ≠ '\\') (hend : endsUnquoted c = true) (t : Text) :
    unquotedBody (w ++ c :: t) = (w, c :: t) := by
  induction w with
  | nil => exact unquotedBody_end hc hend t
  | cons d w ih =>
    obtain ⟨hb, -, hd⟩ := isUnquotedChar_spec (hw d List.mem_cons_self)
    rw [List.cons_append, unquotedBody_cons hb hd, ih fun c hc => hw c (List.mem_cons_of_mem d hc)]

/-- Without a brace there is no reference. -/
theorem inert_of_forall {w : Text} (hw : ∀ c ∈ w, isUnquotedChar c = true) : inert w = true := by
  induction w with
  | nil => rfl
  | cons c w ih =>
    have hrest := fun d hd => hw d (List.mem_cons_of_mem c hd)
    obtain ⟨hb, -, -⟩ := isUnquotedChar_spec (hw c List.mem_cons_self)
    by_cases hd : c = '$'
    · have hnone : refHead w = none := by
        rw [Option.eq_none_iff_forall_ne_some]
        rintro ⟨word, r⟩ hhead
        obtain ⟨rfl, -⟩ := refHead_eq_some_iff.mp hhead
        exact absurd rfl (isUnquotedChar_spec (hrest '\x7b' (by simp))).2.1
      rw [hd, inert_dollar, hnone, ih hrest]
      rfl
    · rw [inert_cons hb hd]
      exact ih hrest

/-- Behind part of an element a word is added to it. -/
theorem expandList_word {w : Text} (hw : ∀ c ∈ w, isWordChar c = true) (cur t : Text) :
    expandList 0 cur (w ++ t) = expandList 0 (cur ++ w) t := by
  induction w generalizing cur with
  | nil => rw [List.nil_append, List.append_nil]
  | cons c w ih =>
    have h := fun d hd => ne_of_isWordChar (hw c List.mem_cons_self) (d := d) hd
    rw [List.cons_append, expandList.eq_def]
    simp only [if_neg (h '\\' (by decide)), if_neg (h '[' (by decide)), if_neg (h ']' (by decide)),
      h ';' (by decide), decide_false, Bool.false_and, Bool.false_eq_true, if_false]
    rw [ih fun d hd => hw d (List.mem_cons_of_mem c hd), List.append_assoc]
    rfl

/-- A list of words joined with semicolons is a list of these words. -/
theorem listElements_intercalate (hvs : ∀ w ∈ vs, IsWord w) :
    listElements ([';'].intercalate vs) = vs := by
  have hsemi : ∀ {w : Text} (t : Text), w ≠ [] →
      expandList 0 w (';' :: t) = w :: expandList 0 [] t := by
    intro w t hw
    rw [expandList.eq_def]
    simp [hw]
  unfold listElements
  induction vs with
  | nil => rfl
  | cons v vs ih =>
    have hv := hvs v List.mem_cons_self
    cases vs with
    | nil =>
      have hword := expandList_word hv.chars [] []
      rw [List.append_nil] at hword
      rw [List.intercalate_singleton, hword, List.nil_append, expandList, if_neg hv.ne_nil]
    | cons w vs =>
      rw [List.intercalate_cons_cons, List.append_assoc, expandList_word hv.chars, List.nil_append,
        List.singleton_append, hsemi _ hv.ne_nil, ih fun u hu => hvs u (List.mem_cons_of_mem v hu)]

/-! ## Lines -/

/-- The line `set(name body)`. -/
def setLine (name body : Text) : Text :=
  "set(".toList ++ (name ++ ' ' :: (body ++ ')' :: ['\n']))

/-- The text of some lines. -/
def linesText (ls : List (Text × Text)) : Text := ls.flatMap fun l => setLine l.1 l.2

@[simp] theorem linesText_cons (l : Text × Text) (ls : List (Text × Text)) :
    linesText (l :: ls) = setLine l.1 l.2 ++ linesText ls := rfl

theorem setLine_append (name body t : Text) : setLine name body ++ t =
    's' :: 'e' :: 't' :: '(' :: (name ++ ' ' :: (body ++ ')' :: '\n' :: t)) := by
  simp [setLine]

/-- A text without special characters is an argument. -/
theorem lexArgs_unquoted {w : Text} (hne : w ≠ []) (hw : ∀ c ∈ w, isUnquotedChar c = true)
    (hc : c ≠ '\\') (hend : endsUnquoted c = true) (n depth : ℕ) (t : Text) :
    lexArgs (n + 1) depth (w ++ c :: t) =
      (lexArgs n depth (c :: t)).map fun p => (.unquoted w :: p.1, p.2) := by
  have hbody := unquotedBody_of_forall hw hc hend t
  obtain ⟨d, w, rfl⟩ := List.exists_cons_of_ne_nil hne
  obtain ⟨-, -, hends⟩ := isUnquotedChar_spec (hw d List.mem_cons_self)
  simp only [endsUnquoted, Bool.or_eq_false_iff, decide_eq_false_iff_not] at hends
  obtain ⟨⟨⟨⟨⟨hblank, hnl⟩, hopen⟩, hclose⟩, hhash⟩, hquote⟩ := hends
  rw [List.cons_append] at hbody ⊢
  rw [lexArgs, if_neg (by simp [hnl, hblank]), if_neg hhash, if_neg hopen, if_neg hclose,
    if_neg hquote, hbody, if_neg (List.cons_ne_nil d w)]

theorem evalArgs_unquoted {w : Text} (hw : ∀ c ∈ w, isUnquotedChar c = true)
    (args : List RawArg) : evalArgs look (.unquoted w :: args) =
      (evalArgs look args).map (listElements w ++ ·) := by
  rw [evalArgs, evalArg, expand_of_inert look (inert_of_forall hw)]
  rfl

theorem listElements_word {w : Text} (hw : IsWord w) : listElements w = [w] := by
  have h := listElements_intercalate (List.forall_mem_singleton.mpr hw)
  rwa [List.intercalate_singleton] at h

/-- The arguments of a line's command are its name and what the body holds. -/
theorem readCommand_setLine (outer : Outer) (vars : Vars) (hname : IsWord name) (body t : Text) :
    readCommand outer vars (setLine name body ++ t) =
      (lexArgs (name.length + body.length + t.length + 1) 0
          (body ++ ')' :: '\n' :: t)).bind fun p =>
        (evalArgs (CMake.look outer vars) p.1).bind fun values =>
          (setCommand vars (name :: values)).bind fun vars' =>
            (lineEnd p.2).map fun r => (vars', r) := by
  have hlen : (name ++ ' ' :: (body ++ ')' :: '\n' :: t)).length =
      name.length + body.length + t.length + 1 + 1 + 1 := by
    simp only [List.length_append, List.length_cons]
    omega
  have hdrop : ((setLine name body ++ t).dropWhile fun c => c.isAlphanum || c = '_').dropWhile
      isBlank = '(' :: (name ++ ' ' :: (body ++ ')' :: '\n' :: t)) := by
    rw [setLine_append]
    rfl
  have htake : ((setLine name body ++ t).takeWhile fun c => c.isAlphanum || c = '_').map
      Char.toLower = "set".toList := by
    rw [setLine_append]
    rfl
  rw [readCommand, hdrop]
  simp only
  rw [if_pos htake, hlen, lexArgs_unquoted hname.ne_nil hname.unquoted (by decide) (by decide)]
  rw [show lexArgs (name.length + body.length + t.length + 1 + 1) 0
    (' ' :: (body ++ ')' :: '\n' :: t)) = lexArgs (name.length + body.length + t.length + 1) 0
      (body ++ ')' :: '\n' :: t) from rfl]
  rw [Option.bind_map]
  simp only [Function.comp_def, evalArgs_unquoted hname.unquoted, listElements_word hname,
    Option.bind_map, List.singleton_append]

/-- What a line's command that gets through has done. -/
theorem readCommand_setLine_inv {outer : Outer} {x t : Text} (hname : IsWord name)
    (h : readCommand outer vars (setLine name body ++ x) = some (vars', t)) :
    ∃ args u values, Lexes 0 (body ++ ')' :: '\n' :: x) args u ∧
      evalArgs (CMake.look outer vars) args = some values ∧
      setCommand vars (name :: values) = some vars' ∧ lineEnd u = some t := by
  rw [readCommand_setLine outer vars hname] at h
  obtain ⟨⟨args, u⟩, hargs, h⟩ := Option.bind_eq_some_iff.mp h
  obtain ⟨values, hvalues, h⟩ := Option.bind_eq_some_iff.mp h
  obtain ⟨vars1, hset, h⟩ := Option.bind_eq_some_iff.mp h
  obtain ⟨t', hend, hp⟩ := Option.map_eq_some_iff.mp h
  obtain ⟨rfl, rfl⟩ := Prod.mk.inj hp
  exact ⟨args, u, values, lexes_of_lexArgs hargs, hvalues, hset, hend⟩

theorem readLines_setLine (outer : Outer) (n : ℕ) (vars : Vars) (name body t : Text) :
    readLines outer (n + 1) vars (setLine name body ++ t) =
      (readCommand outer vars (setLine name body ++ t)).bind fun p =>
        readLines outer n p.1 p.2 := by
  rw [setLine_append]
  rfl

theorem readLines_comment (outer : Outer) (n : ℕ) (vars : Vars) {p : Text} (hp : '\n' ∉ p)
    (t : Text) :
    readLines outer (n + 2) vars ('#' :: (p ++ '\n' :: t)) = readLines outer n vars t := by
  have hdrop : (p ++ '\n' :: t).dropWhile (· ≠ '\n') = '\n' :: t := by
    rw [List.dropWhile_append_of_pos fun c hc => by simpa using ne_of_mem_of_not_mem hc hp]
    rfl
  rw [readLines, if_neg (by decide), if_pos rfl, hdrop, readLines, if_pos (by decide)]

theorem length_le_linesText (ls : List (Text × Text)) : ls.length ≤ (linesText ls).length := by
  induction ls with
  | nil => exact le_rfl
  | cons l ls ih =>
    rw [linesText_cons, List.length_append, List.length_cons, setLine, List.length_append,
      List.length_append, List.length_cons]
    omega

theorem lineEnd_spec (h : lineEnd s = some t) : t = [] ∨ ∃ p, s = p ++ '\n' :: t := by
  induction s with
  | nil =>
    obtain rfl := Option.some.inj h
    exact Or.inl rfl
  | cons c s ih =>
    rw [lineEnd] at h
    split at h
    · rename_i hc
      obtain rfl := Option.some.inj h
      exact Or.inr ⟨[], by rw [hc]; rfl⟩
    · split at h
      · rcases ih h with hnil | ⟨p, rfl⟩
        · exact Or.inl hnil
        · exact Or.inr ⟨c :: p, rfl⟩
      · split at h
        · obtain rfl := Option.some.inj h
          rcases dropWhile_ne_newline s with hnil | hhead
          · exact Or.inl (by rw [hnil]; rfl)
          · obtain ⟨u, hu⟩ := List.head?_eq_some_iff.mp hhead
            refine Or.inr ⟨c :: s.takeWhile (· ≠ '\n'), ?_⟩
            rw [hu, List.tail_cons, List.cons_append, ← hu, List.takeWhile_append_dropWhile]
        · cases h

/-- A newline behind a line without one is the line's, or behind it. -/
theorem newline_split {w p x : Text} (hw : '\n' ∉ w) (h : w ++ '\n' :: x = p ++ '\n' :: t) :
    t = x ∨ ∃ q, x = q ++ '\n' :: t := by
  rcases List.append_eq_append_iff.mp h with ⟨q, -, hq⟩ | ⟨q, hwq, hq⟩
  · cases q with
    | nil => exact Or.inl (List.cons.inj hq).2.symm
    | cons b q => exact Or.inr ⟨q, (List.cons.inj hq).2⟩
  · cases q with
    | nil => exact Or.inl (List.cons.inj hq).2
    | cons b q =>
      have hb : '\n' = b := (List.cons.inj hq).1
      exact absurd (by rw [hwq, hb]; simp) hw

/-- Behind a newline in a text of lines there are lines. -/
theorem linesText_of_newline {ls : List (Text × Text)}
    (hls : ∀ l ∈ ls, IsWord l.1 ∧ '\n' ∉ l.2) {w p : Text} (hw : '\n' ∉ w)
    (h : w ++ '\n' :: linesText ls = p ++ '\n' :: t) : ∃ k, t = linesText (ls.drop k) := by
  induction ls generalizing w p with
  | nil =>
    rcases newline_split hw h with rfl | ⟨q, hq⟩
    · exact ⟨0, rfl⟩
    · simp [linesText] at hq
  | cons l ls ih =>
    rcases newline_split hw h with rfl | ⟨q, hq⟩
    · exact ⟨0, rfl⟩
    · obtain ⟨hname, hbody⟩ := hls l List.mem_cons_self
      have hline : "set(".toList ++ (l.1 ++ ' ' :: (l.2 ++ [')'])) ++ '\n' :: linesText ls =
          q ++ '\n' :: t := by
        rw [← hq, linesText_cons, setLine]
        simp
      have hword : '\n' ∉ "set(".toList ++ (l.1 ++ ' ' :: (l.2 ++ [')'])) := by
        have hnl : '\n' ∉ l.1 := fun hc => absurd (hname.chars _ hc) (by decide)
        simp [hnl, hbody]
      obtain ⟨k, hk⟩ := ih (fun l' hl' => hls l' (List.mem_cons_of_mem l hl')) hword hline
      exact ⟨k + 1, hk⟩

/-- A line's command sets at most the line's variable, and ends in front of a later line. -/
theorem readCommand_line {outer : Outer} {ls : List (Text × Text)}
    (hls : ∀ l ∈ ls, IsWord l.1 ∧ '\n' ∉ l.2) (hname : IsWord name) (hbody : '\n' ∉ body)
    (h : readCommand outer vars (setLine name body ++ linesText ls) = some (vars', t)) :
    (∀ w, w ≠ name → vars' w = vars w) ∧ ∃ k, t = linesText (ls.drop k) := by
  obtain ⟨args, u, values, hargs, -, hset, hend⟩ := readCommand_setLine_inv hname h
  refine ⟨fun w hw => setCommand_frame hset hw, ?_⟩
  rcases lineEnd_spec hend with rfl | ⟨q, hq⟩
  · exact ⟨ls.length, by rw [List.drop_length]; rfl⟩
  · obtain ⟨p, hp, -⟩ := hargs.spec
    have hw : '\n' ∉ body ++ [')'] := by simp [hbody]
    refine linesText_of_newline hls hw (p := p ++ ')' :: q) ?_
    rw [List.append_assoc, List.singleton_append, hp, List.append_assoc, List.cons_append, ← hq]

/-- One command of a file of lines: it changes at most its line's variable, and the reader goes on
with a later line. -/
theorem readLines_step {outer : Outer} {n : ℕ} {l : Text × Text} {ls : List (Text × Text)}
    (hls : ∀ l' ∈ l :: ls, IsWord l'.1 ∧ '\n' ∉ l'.2)
    (h : readLines outer (n + 1) vars (linesText (l :: ls)) = some vars') :
    ∃ vars1 k, readCommand outer vars (setLine l.1 l.2 ++ linesText ls) =
        some (vars1, linesText (ls.drop k)) ∧
      (∀ w, w ≠ l.1 → vars1 w = vars w) ∧
      readLines outer n vars1 (linesText (ls.drop k)) = some vars' := by
  rw [linesText_cons, readLines_setLine] at h
  obtain ⟨⟨vars1, t⟩, hcommand, h⟩ := Option.bind_eq_some_iff.mp h
  obtain ⟨hname, hbody⟩ := hls l List.mem_cons_self
  obtain ⟨hframe, k, rfl⟩ := readCommand_line (fun l' hl' => hls l' (List.mem_cons_of_mem l hl'))
    hname hbody hcommand
  exact ⟨vars1, k, hcommand, hframe, h⟩

/-- **A file of lines changes no variable but those of its lines.** -/
theorem readLines_frame {outer : Outer} {n : ℕ} {ls : List (Text × Text)}
    (hls : ∀ l ∈ ls, IsWord l.1 ∧ '\n' ∉ l.2)
    (h : readLines outer n vars (linesText ls) = some vars') {w : Text}
    (hw : ∀ l ∈ ls, w ≠ l.1) : vars' w = vars w := by
  induction n generalizing ls vars with
  | zero =>
    cases ls with
    | nil => rw [Option.some.inj h]
    | cons l ls =>
      rw [linesText_cons, setLine_append] at h
      cases h
  | succ n ih =>
    cases ls with
    | nil => rw [Option.some.inj h]
    | cons l ls =>
      obtain ⟨vars1, k, -, hframe, h⟩ := readLines_step hls h
      have hdrop := List.drop_subset k ls
      rw [ih (fun l' hl' => hls l' (List.mem_cons_of_mem l (hdrop hl'))) h
        fun l' hl' => hw l' (List.mem_cons_of_mem l (hdrop hl')),
        hframe w (hw l List.mem_cons_self)]

/-- When the next line's variable has a value in the end, the command of a line ends on it, and
its variable stays as it is then. -/
theorem readLines_cons_inv {outer : Outer} {n : ℕ} {l m : Text × Text} {ls : List (Text × Text)}
    (hls : ∀ l' ∈ l :: m :: ls, IsWord l'.1 ∧ '\n' ∉ l'.2)
    (hnodup : ((l :: m :: ls).map (·.1)).Nodup)
    (h : readLines outer (n + 1) vars (linesText (l :: m :: ls)) = some vars')
    (hnone : vars m.1 = none) (hsome : vars' m.1 ≠ none) :
    ∃ vars1, readCommand outer vars (setLine l.1 l.2 ++ linesText (m :: ls)) =
        some (vars1, linesText (m :: ls)) ∧
      readLines outer n vars1 (linesText (m :: ls)) = some vars' ∧ vars' l.1 = vars1 l.1 := by
  obtain ⟨vars1, k, hcommand, hframe, h⟩ := readLines_step hls h
  have hls' := fun l' hl' => hls l' (List.mem_cons_of_mem l hl')
  rw [List.map_cons, List.map_cons, List.nodup_cons, List.nodup_cons] at hnodup
  obtain ⟨hl, hm, -⟩ := hnodup
  cases k with
  | zero =>
    have hkeep := readLines_frame hls' h (w := l.1) fun l' hl' heq =>
      hl (heq ▸ List.mem_map_of_mem hl')
    exact ⟨vars1, hcommand, h, hkeep⟩
  | succ k =>
    -- the next line is skipped, and no other one has its variable
    have hdrop := List.drop_subset k ls
    simp only [List.drop_succ_cons] at h
    have hskip := readLines_frame (fun l' hl' => hls' l' (List.mem_cons_of_mem m (hdrop hl'))) h
      (w := m.1) fun l' hl' heq => hm (heq ▸ List.mem_map_of_mem (hdrop hl'))
    have hne : m.1 ≠ l.1 := fun heq => hl (heq ▸ List.mem_cons_self)
    rw [hskip, hframe m.1 hne, hnone] at hsome
    exact absurd rfl hsome

end Common.CMake
