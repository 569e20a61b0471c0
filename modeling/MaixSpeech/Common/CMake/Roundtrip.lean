import MaixSpeech.Common.CMake.Commands

/-!
# Values between quotes

The line `set(name "value")` gives the variable the value between the quotes exactly when that value
is plain: nothing in it is evaluated, it has no quote and it is not the one word that `set` takes
for an option. The rest of the file may be anything, as long as the line's command ends on the line
(`readCommand_plain`, `plain_of_readCommand`).
-/

namespace Common.CMake

variable {look : RefKind → Text → Text} {s t x name val : Text} {vars vars' : Vars} {outer : Outer}

/-- The values that survive between quotes. -/
structure PlainValue (val : Text) : Prop where
  inert : inert val = true
  noQuote : '"' ∉ val
  noOption : val ≠ "PARENT_SCOPE".toList

instance (val : Text) : Decidable (PlainValue val) :=
  decidable_of_iff (inert val = true ∧ '"' ∉ val ∧ val ≠ "PARENT_SCOPE".toList)
    ⟨fun h => ⟨h.1, h.2.1, h.2.2⟩, fun h => ⟨h.inert, h.noQuote, h.noOption⟩⟩

/-- The line `set(name "val")`. -/
def quotedLine (name val : Text) : Text := setLine name ('"' :: (val ++ ['"']))

/-! ## Plain values -/

theorem quotedBody_of_inert (h : inert s = true) (hq : '"' ∉ s) (x : Text) :
    quotedBody (s ++ '"' :: x) = some (s, x) := by
  fun_induction inert s with
  | case1 => exact quotedBody_quote x
  | case2 => cases h
  | case3 e t ih =>
    simp only [Bool.and_eq_true, decide_eq_true_eq] at h
    simp only [List.mem_cons, not_or] at hq
    rw [List.cons_append, List.cons_append, quotedBody_escape, ih h.2 hq.2.2, Option.map_some,
      h.1, if_neg (by decide)]
  | case4 t hb ih =>
    simp only [Bool.and_eq_true] at h
    simp only [List.mem_cons, not_or] at hq
    rw [List.cons_append, quotedBody_cons (by decide) (by decide), ih h.2 hq.2]
    rfl
  | case5 c t hb hd ih =>
    simp only [List.mem_cons, not_or] at hq
    rw [List.cons_append, quotedBody_cons (Ne.symm hq.1) hb, ih h hq.2]
    rfl

/-- In an inert text the first quote closes the argument. -/
theorem notMem_quote_of_inert (h : inert s = true) (hopen : quotedBody s = none) : '"' ∉ s := by
  fun_induction inert s with
  | case1 => exact List.not_mem_nil
  | case2 => cases h
  | case3 e t ih =>
    simp only [Bool.and_eq_true, decide_eq_true_eq] at h
    rw [quotedBody_escape, Option.map_eq_none_iff] at hopen
    simp [h.1, ih h.2 hopen]
  | case4 t hb ih =>
    simp only [Bool.and_eq_true] at h
    rw [quotedBody_cons (by decide) (by decide), Option.map_eq_none_iff] at hopen
    simp [ih h.2 hopen]
  | case5 c t hb hd ih =>
    have hc : c ≠ '"' := by
      rintro rfl
      rw [quotedBody_quote] at hopen
      cases hopen
    rw [quotedBody_cons hc hb, Option.map_eq_none_iff] at hopen
    simp [Ne.symm hc, ih h hopen]

theorem lexArgs_quoted (h : quotedBody s = some (x, t)) (n depth : ℕ) :
    lexArgs (n + 1) depth ('"' :: s) =
      (lexArgs n depth t).map fun p => (.quoted x :: p.1, p.2) := by
  rw [lexArgs, if_neg (by decide), if_neg (by decide), if_neg (by decide), if_neg (by decide),
    if_pos rfl, h]
  rfl

/-- The line of a plain value sets its variable. -/
theorem readCommand_plain (outer : Outer) (vars : Vars) (hname : IsWord name)
    (hval : PlainValue val) (t : Text) : readCommand outer vars (quotedLine name val ++ t) =
      some (Function.update vars name (some val), t) := by
  have hbody := quotedBody_of_inert hval.inert hval.noQuote (')' :: '\n' :: t)
  have hparent : [val].getLast? ≠ some "PARENT_SCOPE".toList := by
    simpa using hval.noOption
  have hcache : cacheForm [val] = false := rfl
  have hargs : lexArgs (name.length + ('"' :: (val ++ ['"'])).length + t.length + 1) 0
      ('"' :: (val ++ ['"']) ++ ')' :: '\n' :: t) = some ([.quoted val], '\n' :: t) := by
    have hassoc : '"' :: (val ++ ['"']) ++ ')' :: '\n' :: t =
        '"' :: (val ++ '"' :: ')' :: '\n' :: t) := by simp
    have hlen : name.length + ('"' :: (val ++ ['"'])).length + t.length =
        name.length + val.length + t.length + 1 + 1 := by
      simp only [List.length_cons, List.length_append, List.length_nil]
      omega
    rw [hassoc, hlen, lexArgs_quoted hbody]
    rfl
  have heval : evalArgs (CMake.look outer vars) [.quoted val] = some [val] := by
    rw [evalArgs, evalArg, expand_of_inert _ hval.inert]
    rfl
  have hset : setCommand vars [name, val] = some (Function.update vars name (some val)) := by
    rw [setCommand, if_neg hname.not_env, if_neg (List.cons_ne_nil val []), if_neg hparent, hcache,
      if_neg Bool.false_ne_true, List.intercalate_singleton]
  rw [quotedLine, readCommand_setLine outer vars hname, hargs, Option.bind_some, heval,
    Option.bind_some, hset]
  rfl

/-! ## Values that survive -/

theorem Lexes.quote_inv {u : Text} {args : List RawArg} (h : Lexes 0 ('"' :: s) args u) :
    ∃ raw r more, quotedBody s = some (raw, r) ∧ args = .quoted raw :: more ∧ Lexes 0 r more u := by
  cases h with
  | space _ _ _ _ _ hc _ => exact absurd hc (by decide)
  | quoted _ _ raw r more _ hraw h => exact ⟨raw, r, more, hraw, rfl, h⟩
  | unquoted _ _ _ _ _ hraw _ =>
    rw [unquotedBody_end (by decide) (by decide)] at hraw
    exact absurd rfl hraw

theorem evalArgs_quoted {raw : Text} {args : List RawArg} {values : List Text}
    (h : evalArgs look (.quoted raw :: args) = some values) :
    ∃ v vs, expand look raw = some v ∧ evalArgs look args = some vs ∧ values = v :: vs := by
  obtain ⟨ws, ha, h⟩ := Option.bind_eq_some_iff.mp h
  obtain ⟨vs, hvs, rfl⟩ := Option.map_eq_some_iff.mp h
  obtain ⟨v, hv, rfl⟩ := Option.map_eq_some_iff.mp ha
  exact ⟨v, vs, hv, hvs, rfl⟩

/-- Behind a parenthesis in a text that ends with a quote and one there is a quote, or nothing. -/
theorem eq_nil_of_quoteEnd {R q e : Text} (h : R ++ ['"', ')'] = q ++ ')' :: e) (he : '"' ∉ e) :
    e = [] := by
  rcases List.eq_nil_or_concat e with rfl | ⟨e', c, rfl⟩
  · rfl
  rw [List.concat_eq_append] at h he
  have hlast : R ++ ['"'] ++ [')'] = q ++ ')' :: e' ++ [c] := by simpa using h
  obtain ⟨hbefore, -⟩ := List.append_inj' hlast rfl
  rcases List.eq_nil_or_concat e' with rfl | ⟨e'', d, rfl⟩
  · exact absurd (List.append_inj' hbefore rfl).2 (by decide)
  · have hlast' : R ++ ['"'] = q ++ ')' :: e'' ++ [d] := by simpa using hbefore
    obtain ⟨-, hd⟩ := List.append_inj' hlast' rfl
    rw [← (List.cons.inj hd).1] at he
    simp at he

/-- When the value closes its argument before its end, the values of the line do not join to it:
the quotes that are left would have to be in them, and the last one would have to end them. -/
theorem ne_intercalate_of_early {A R e v : Text} {more : List RawArg} {vs : List Text}
    (hlook : ∀ k name, '"' ∉ look k name) (hearly : quotedBody val = some (A, R))
    (hnl : '\n' ∉ val) (hmore : Lexes 0 (R ++ '"' :: ')' :: '\n' :: t) more (e ++ '\n' :: t))
    (hv : expand look A = some v) (hvs : evalArgs look more = some vs) :
    val ≠ [';'].intercalate (v :: vs) := by
  intro hval
  obtain ⟨p, rfl, -, hp⟩ := quotedBody_spec hearly
  simp only [List.mem_append, List.mem_cons, not_or] at hnl
  obtain rfl := hp hnl.1
  obtain ⟨q, hq, hquotes⟩ := hmore.spec
  have hline : R ++ ['"', ')'] = q ++ ')' :: e := by
    have hassoc : (R ++ ['"', ')']) ++ '\n' :: t = (q ++ ')' :: e) ++ '\n' :: t := by
      simpa using hq
    exact List.append_cancel_right hassoc
  have hline' := congrArg (List.count '"') hline
  have hjoin := congrArg (List.count '"') hval
  have hfirst := (expands_of_expand hv).count_quote_le hlook
  obtain ⟨hle, hlt⟩ := quoteSum_evalArgs_le hlook hvs
  rw [count_quote_intercalate, quoteSum_cons] at hjoin
  simp only [List.count_append, List.count_cons, List.count_nil, beq_self_eq_true, if_true,
    beq_iff_eq, (by decide : (')' : Char) ≠ '"'), if_false] at hline' hjoin
  -- no quote is left behind the command, and none makes a quoted argument
  have hnone : ∀ raw, RawArg.quoted raw ∉ more := by
    intro raw hmem
    have := hlt ⟨raw, hmem⟩
    omega
  have hcount : e.count '"' = 0 := by omega
  have he : e = [] := eq_nil_of_quoteEnd hline (List.count_eq_zero.mp hcount)
  rw [he, List.nil_append] at hmore
  obtain ⟨hR, raw, hraw, hend⟩ := hmore.final_quote rfl (fun h => hnl.2.2 h) hnone
  obtain ⟨w, hw, hwq⟩ := evalArgs_getLast?_quote hvs hraw hend
  have hlast : (v :: vs).getLast? = some w := by
    rw [List.getLast?_cons, hw]
    rfl
  have hquote := intercalate_getLast?_quote hlast hwq
  rw [← hval, List.getLast?_append, List.getLast?_cons, hR, Option.getD_some,
    Option.some_or] at hquote
  exact absurd hquote (by decide)

/-- **Only a plain value is the value its line sets.** -/
theorem plain_of_readCommand (hinert : ∀ k name, CMake.inert (CMake.look outer vars k name) = true)
    (hquote : ∀ k name, '"' ∉ CMake.look outer vars k name) (hname : IsWord name)
    (hnl : '\n' ∉ val) (ht : t ≠ []) (hnone : vars name = none)
    (h : readCommand outer vars (quotedLine name val ++ t) = some (vars', t))
    (hval : vars' name = some val) :
    PlainValue val ∧ vars' = Function.update vars name (some val) := by
  obtain ⟨args, u, values, hargs, heval, hset, hend⟩ := readCommand_setLine_inv hname h
  obtain ⟨-, hparent, hjoin, hupdate⟩ := setCommand_eq hset hnone hval
  refine ⟨?_, hupdate⟩
  obtain ⟨e, rfl⟩ := (lineEnd_spec hend).resolve_left ht
  have hassoc : '"' :: (val ++ ['"']) ++ ')' :: '\n' :: t =
      '"' :: (val ++ '"' :: ')' :: '\n' :: t) := by simp
  rw [hassoc] at hargs
  obtain ⟨raw, rest, more, hraw, rfl, hmore⟩ := hargs.quote_inv
  obtain ⟨v, vs, hv, hvs, rfl⟩ := evalArgs_quoted heval
  cases hbody : quotedBody val with
  | some q =>
    rw [quotedBody_append hbody] at hraw
    obtain ⟨rfl, rfl⟩ := Prod.mk.inj (Option.some.inj hraw)
    exact absurd hjoin (ne_intercalate_of_early hquote hbody hnl hmore hv hvs)
  | none =>
    rcases quotedBody_open hbody hnl with hclosed | hdangling
    · rw [hclosed] at hraw
      obtain ⟨rfl, rfl⟩ := Prod.mk.inj (Option.some.inj hraw)
      have he : e = [] := by
        have hlen := hmore.length_lt
        simp only [List.length_append, List.length_cons] at hlen
        exact List.eq_nil_of_length_eq_zero (by omega)
      rw [he, List.nil_append] at hmore
      rw [hmore.close_eq] at hvs
      cases hvs
      rw [List.intercalate_singleton] at hjoin
      rw [← hjoin] at hv
      have hinertVal := inert_of_expand_eq hinert hv
      exact ⟨hinertVal, notMem_quote_of_inert hinertVal hbody, fun hopt =>
        hparent (by rw [← hjoin, hopt]; rfl)⟩
    · -- the argument goes on behind the line, and the command with it
      rw [hdangling] at hraw
      obtain ⟨⟨raw', rest'⟩, hraw', hp⟩ := Option.map_eq_some_iff.mp hraw
      obtain ⟨-, rfl⟩ := Prod.mk.inj hp
      obtain ⟨q, hq, -⟩ := quotedBody_spec hraw'
      have hlen := congrArg List.length hq
      have hlt := hmore.length_lt
      simp only [List.length_append, List.length_cons] at hlen hlt
      omega

/-! ## Lists of names -/

theorem intercalate_ne_nil {ws : List Text} (hne : ws ≠ []) (hws : ∀ w ∈ ws, w ≠ []) :
    [';'].intercalate ws ≠ [] := by
  obtain ⟨w, ws, rfl⟩ := List.exists_cons_of_ne_nil hne
  have hw := hws w List.mem_cons_self
  cases ws with
  | nil => rwa [List.intercalate_singleton]
  | cons u ws =>
    rw [List.intercalate_cons_cons]
    simp

theorem cacheForm_of_notMem {values : List Text} (h : "CACHE".toList ∉ values) :
    cacheForm values = false := by
  have hback : ∀ back : List Text, (∀ v ∈ back, v ∈ values) →
      back[2]? ≠ some "CACHE".toList := by
    intro back hsub hcache
    exact h (hsub _ (List.mem_of_getElem? hcache))
  unfold cacheForm
  simp only [Bool.and_eq_false_iff, decide_eq_false_iff_not]
  right
  split
  · exact hback _ fun v hv => List.mem_reverse.mp (List.mem_of_mem_tail hv)
  · exact hback _ fun v hv => List.mem_reverse.mp hv

/-- The line of a list of names sets its variable to them, or takes it away when there are none. -/
theorem readCommand_list (outer : Outer) (vars : Vars) (hname : IsWord name) {ws : List Text}
    (hws : ∀ w ∈ ws, IsWord w) (hparent : "PARENT_SCOPE".toList ∉ ws) (hcache : "CACHE".toList ∉ ws)
    (t : Text) : readCommand outer vars (setLine name ([';'].intercalate ws) ++ t) =
      some (Function.update vars name
        (if ws = [] then none else some ([';'].intercalate ws)), t) := by
  rw [readCommand_setLine outer vars hname]
  by_cases hnil : ws = []
  · subst hnil
    rw [if_pos rfl]
    have hset : setCommand vars [name] = some (Function.update vars name none) := by
      rw [setCommand, if_neg hname.not_env, if_pos rfl]
    simp only [List.intercalate_nil, List.nil_append, List.length_nil, Nat.add_zero]
    rw [show lexArgs (name.length + t.length + 1) 0 (')' :: '\n' :: t) = some ([], '\n' :: t)
      from rfl, Option.bind_some]
    rw [show evalArgs (CMake.look outer vars) [] = some [] from rfl, Option.bind_some, hset]
    rfl
  · have hbody := intercalate_ne_nil hnil fun w hw => (hws w hw).ne_nil
    have hchars : ∀ c ∈ [';'].intercalate ws, isUnquotedChar c = true := by
      intro c hc
      rcases mem_intercalate hc with rfl | ⟨w, hw, hcw⟩
      · decide
      · exact (hws w hw).unquoted c hcw
    have hset : setCommand vars (name :: ws) =
        some (Function.update vars name (some ([';'].intercalate ws))) := by
      rw [setCommand, if_neg hname.not_env, if_neg hnil,
        if_neg fun h => hparent (List.mem_of_getLast? h), cacheForm_of_notMem hcache,
        if_neg Bool.false_ne_true]
    obtain ⟨n, hn⟩ : ∃ n, name.length + ([';'].intercalate ws).length + t.length = n + 1 :=
      ⟨_, (Nat.succ_pred_eq_of_pos (by have := List.length_pos_iff.mpr hbody; omega)).symm⟩
    rw [if_neg hnil, hn, lexArgs_unquoted hbody hchars (by decide) (by decide)]
    rw [show lexArgs (n + 1) 0 (')' :: '\n' :: t) = some ([], '\n' :: t) from rfl, Option.map_some,
      Option.bind_some, evalArgs_unquoted hchars, listElements_intercalate hws]
    rw [show evalArgs (CMake.look outer vars) [] = some [] from rfl, Option.map_some,
      List.append_nil, Option.bind_some, hset]
    rfl

/-! ## Files -/

/-- The lines of some variables and their values. -/
def quotedLines (vals : List (Text × Text)) : List (Text × Text) :=
  vals.map fun l => (l.1, '"' :: (l.2 ++ ['"']))

theorem linesText_quotedLines_cons (l : Text × Text) (vals : List (Text × Text)) (t : Text) :
    linesText (quotedLines (l :: vals)) ++ t =
      quotedLine l.1 l.2 ++ (linesText (quotedLines vals) ++ t) :=
  List.append_assoc _ _ _

/-- The variables behind some assignments. -/
def setAll (vars : Vars) (vals : List (Text × Text)) : Vars :=
  vals.foldl (fun vars l => Function.update vars l.1 (some l.2)) vars

theorem setAll_of_notMem {vals : List (Text × Text)} {w : Text} (hw : w ∉ vals.map (·.1))
    (vars : Vars) : setAll vars vals w = vars w := by
  induction vals generalizing vars with
  | nil => rfl
  | cons l vals ih =>
    rw [List.map_cons, List.mem_cons, not_or] at hw
    exact (ih hw.2 _).trans (Function.update_of_ne hw.1 _ _)

theorem setAll_of_mem {vals : List (Text × Text)} (hnodup : (vals.map (·.1)).Nodup)
    {l : Text × Text} (hl : l ∈ vals) (vars : Vars) : setAll vars vals l.1 = some l.2 := by
  induction vals generalizing vars with
  | nil => cases hl
  | cons m vals ih =>
    rw [List.map_cons, List.nodup_cons] at hnodup
    rcases List.mem_cons.mp hl with rfl | hl
    · exact (setAll_of_notMem hnodup.1 _).trans (Function.update_self _ _ _)
    · exact ih hnodup.2 hl _

/-- **Lines of plain values set their variables.** -/
theorem readLines_plain (outer : Outer) (vars : Vars) {vals : List (Text × Text)}
    (hvals : ∀ l ∈ vals, IsWord l.1 ∧ PlainValue l.2) (n : ℕ) (t : Text) :
    readLines outer (n + vals.length) vars (linesText (quotedLines vals) ++ t) =
      readLines outer n (setAll vars vals) t := by
  induction vals generalizing vars with
  | nil => rfl
  | cons l vals ih =>
    obtain ⟨hname, hval⟩ := hvals l List.mem_cons_self
    have hline := readCommand_plain outer vars hname hval (linesText (quotedLines vals) ++ t)
    rw [linesText_quotedLines_cons, List.length_cons, ← Nat.add_assoc]
    rw [quotedLine] at hline ⊢
    rw [readLines_setLine, hline, Option.bind_some]
    exact ih _ fun l' hl' => hvals l' (List.mem_cons_of_mem l hl')

/-- The values that references can have evaluate to themselves. -/
def Harmless (outer : Outer) (vars : Vars) : Prop :=
  ∀ k name, inert (CMake.look outer vars k name) = true ∧ '"' ∉ CMake.look outer vars k name

theorem Harmless.update (h : Harmless outer vars) (hval : PlainValue val) (name : Text) :
    Harmless outer (Function.update vars name (some val)) := by
  intro k w
  have hk := h k w
  cases k with
  | var =>
    by_cases hw : w = name
    · rw [hw, CMake.look, Function.update_self]
      exact ⟨hval.inert, hval.noQuote⟩
    · rwa [CMake.look, Function.update_of_ne hw]
  | env => exact hk
  | cache => exact hk

theorem map_quotedLines (vals : List (Text × Text)) (last : Text × Text) :
    (quotedLines vals ++ [last]).map (·.1) = vals.map (·.1) ++ [last.1] := by
  simp [quotedLines]

theorem words_quotedLines {vals : List (Text × Text)} {last : Text × Text}
    (hvals : ∀ l ∈ vals, IsWord l.1 ∧ '\n' ∉ l.2) (hlast : IsWord last.1 ∧ '\n' ∉ last.2) :
    ∀ l ∈ quotedLines vals ++ [last], IsWord l.1 ∧ '\n' ∉ l.2 := by
  intro l hl
  rcases List.mem_append.mp hl with hl | hl
  · obtain ⟨l0, hl0, rfl⟩ := List.mem_map.mp hl
    obtain ⟨hword, hnl⟩ := hvals l0 hl0
    exact ⟨hword, by simp [hnl]⟩
  · rw [List.mem_singleton.mp hl]
    exact hlast

/-- **Only lines of plain values set their variables**, when a last line does. -/
theorem plain_of_readLines {n : ℕ} {vals : List (Text × Text)} {last : Text × Text}
    (hharmless : Harmless outer vars) (hvals : ∀ l ∈ vals, IsWord l.1 ∧ '\n' ∉ l.2)
    (hlast : IsWord last.1 ∧ '\n' ∉ last.2) (hnodup : (vals.map (·.1) ++ [last.1]).Nodup)
    (hnone : ∀ w ∈ vals.map (·.1) ++ [last.1], vars w = none)
    (h : readLines outer n vars (linesText (quotedLines vals ++ [last])) = some vars')
    (hset : ∀ l ∈ vals, vars' l.1 = some l.2) (hsetLast : vars' last.1 ≠ none) :
    ∀ l ∈ vals, PlainValue l.2 := by
  induction vals generalizing n vars with
  | nil => exact fun l hl => absurd hl List.not_mem_nil
  | cons l vals ih =>
    cases n with
    | zero => cases h
    | succ n =>
      have hvals' := fun l' hl' => hvals l' (List.mem_cons_of_mem l hl')
      have hset' := fun l' hl' => hset l' (List.mem_cons_of_mem l hl')
      -- what is behind the line begins with a line whose variable has a value in the end
      obtain ⟨m, ls, hrest⟩ : ∃ m ls, quotedLines vals ++ [last] = m :: ls :=
        List.exists_cons_of_ne_nil (by simp)
      have hm : m.1 ∈ vals.map (·.1) ++ [last.1] := by
        rw [← map_quotedLines, hrest]
        exact List.mem_cons_self
      have hmset : vars' m.1 ≠ none := by
        rcases List.mem_append.mp hm with hm | hm
        · obtain ⟨l0, hl0, heq⟩ := List.mem_map.mp hm
          rw [← heq, hset' l0 hl0]
          exact Option.some_ne_none _
        · rwa [List.mem_singleton.mp hm]
      have hwords := words_quotedLines hvals hlast
      have hnames : ((quotedLines (l :: vals) ++ [last]).map (·.1)).Nodup := by
        rwa [map_quotedLines]
      rw [quotedLines, List.map_cons, List.cons_append, ← quotedLines, hrest] at h hwords hnames
      rw [List.map_cons, List.cons_append] at hnone hnodup
      obtain ⟨vars1, hcommand, h, hkeep⟩ := readLines_cons_inv hwords hnames h
        (hnone m.1 (List.mem_cons_of_mem _ hm)) hmset
      have hval := hset l List.mem_cons_self
      rw [hkeep] at hval
      obtain ⟨hword, hnl⟩ := hvals l List.mem_cons_self
      obtain ⟨hplain, rfl⟩ := plain_of_readCommand (fun k w => (hharmless k w).1)
        (fun k w => (hharmless k w).2) hword hnl (by simp [setLine]) (hnone l.1 List.mem_cons_self)
        hcommand hval
      refine List.forall_mem_cons.mpr ⟨hplain, ?_⟩
      refine ih (hharmless.update hplain l.1) hvals' (List.nodup_cons.mp hnodup).2 (fun w hw => ?_)
        (hrest ▸ h) hset'
      have hne : w ≠ l.1 := fun heq => (List.nodup_cons.mp hnodup).1 (heq ▸ hw)
      rw [Function.update_of_ne hne]
      exact hnone w (List.mem_cons_of_mem _ hw)

end Common.CMake
