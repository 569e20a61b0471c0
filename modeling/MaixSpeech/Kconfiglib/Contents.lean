import MaixSpeech.Kconfiglib.Dotconfig

/-!
# What the file says

Reference: `tools/kconfig/Kconfiglib/kconfiglib.py`.

The loader reads the written file line by line. `fileCalls_configContents` is the writer's half of the
round trip: the file assigns each symbol that gets written its value, in the order of the menu tree,
and nothing else; the comments for menus and the header say nothing.
-/

namespace MaixSpeech.Kconfiglib

open Common Common.Memo Build

variable {S C : Type} [DecidableEq S] [DecidableEq C] {K : Kconfig S C} {u : User K.toTables}

/-! ## Lines and their calls -/

/-- A text of whole lines that assigns what the calls say. -/
def Says (T : Tables S C) (text : Text) (calls : List (Call S C)) : Prop :=
  ∃ lines : List Text, text = lines.flatMap (· ++ ['\n']) ∧ (∀ l ∈ lines, '\n' ∉ l ∧ '\r' ∉ l) ∧
    lines.flatMap (fun l => lineCalls T (pyRstrip l)) = calls

section Says

omit [DecidableEq S] [DecidableEq C]

variable {T : Tables S C} {t t' : Text} {calls calls' : List (Call S C)}

theorem Says.nil : Says T [] [] := ⟨[], rfl, fun _ h => absurd h List.not_mem_nil, rfl⟩

theorem Says.append (h : Says T t calls) (h' : Says T t' calls') :
    Says T (t ++ t') (calls ++ calls') := by
  obtain ⟨lines, rfl, hlines, rfl⟩ := h
  obtain ⟨lines', rfl, hlines', rfl⟩ := h'
  refine ⟨lines ++ lines', List.flatMap_append.symm, fun l hl => ?_, List.flatMap_append⟩
  rcases List.mem_append.mp hl with hl | hl
  exacts [hlines l hl, hlines' l hl]

theorem Says.line {l : Text} (hnl : '\n' ∉ l) (hcr : '\r' ∉ l)
    (hcalls : lineCalls T (pyRstrip l) = calls) : Says T (l ++ ['\n']) calls :=
  ⟨[l], by simp, by simp [hnl, hcr], by simp [hcalls]⟩

theorem Says.fileCalls (h : Says T t calls) : fileCalls T t = calls := by
  obtain ⟨lines, rfl, hlines, rfl⟩ := h
  rw [Kconfiglib.fileCalls, fileLines_flatMap hlines]

/-! ## Comments -/

theorem pyRstrip_isStart (l : Text) : pyRstrip l <+: l := List.rdropWhile_prefix _ l

theorem setMatch_eq_none {l : Text} (h : ¬ configPrefix <+: l) : setMatch l = none := if_neg h

/-- A comment that does not look like an unset symbol says nothing. -/
theorem lineCalls_comment {l : Text} (h : ¬ configPrefix <+: l)
    (h' : ¬ ("# ".toList ++ configPrefix) <+: l) : lineCalls T (pyRstrip l) = [] := by
  have hset : setMatch (pyRstrip l) = none :=
    setMatch_eq_none fun hp => h (hp.trans (pyRstrip_isStart l))
  have hunset : unsetMatch (pyRstrip l) = none :=
    if_neg fun hp => h' (hp.trans (pyRstrip_isStart l))
  rw [lineCalls, hset, hunset]
  rfl

/-- A prompt of a menu or comment that fits on its line and does not look like a symbol. -/
structure PlainPrompt (p : Text) : Prop where
  noNewline : '\n' ∉ p
  noReturn : '\r' ∉ p
  noSymbol : ¬ configPrefix <+: p

instance (p : Text) : Decidable (PlainPrompt p) :=
  decidable_of_iff ('\n' ∉ p ∧ '\r' ∉ p ∧ ¬ configPrefix <+: p)
    ⟨fun h => ⟨h.1, h.2.1, h.2.2⟩, fun h => ⟨h.noNewline, h.noReturn, h.noSymbol⟩⟩

theorem says_endComment {p : Text} (hp : PlainPrompt p) :
    Says T (pyFormat "# end of {}\n".toList [p]) [] := by
  have hformat : pyFormat "# end of {}\n".toList [p] = ("# end of ".toList ++ p) ++ ['\n'] := by
    simp [pyFormat]
  rw [hformat]
  refine Says.line ?_ ?_ (lineCalls_comment ?_ ?_)
  · simp [hp.noNewline]
  · simp [hp.noReturn]
  · simp [configPrefix_eq]
  · simp [configPrefix_eq]

theorem says_promptComment {p : Text} (hp : PlainPrompt p) :
    Says T (pyFormat "\n#\n# {}\n#\n".toList [p]) [] := by
  have hformat : pyFormat "\n#\n# {}\n#\n".toList [p] =
      ([] ++ ['\n']) ++ ((['#'] ++ ['\n']) ++ ((("# ".toList ++ p) ++ ['\n']) ++
        (['#'] ++ ['\n']))) := by
    simp [pyFormat]
  have hempty : Says T ([] ++ ['\n']) [] := Says.line (by simp) (by simp) (by rfl)
  have hhash : Says T (['#'] ++ ['\n']) [] :=
    Says.line (by decide) (by decide) (lineCalls_comment (by decide) (by decide))
  have hprompt : Says T (("# ".toList ++ p) ++ ['\n']) [] := by
    refine Says.line ?_ ?_ (lineCalls_comment ?_ ?_)
    · simp [hp.noNewline]
    · simp [hp.noReturn]
    · simp [configPrefix_eq]
    · simpa using hp.noSymbol
  rw [hformat]
  exact hempty.append (hhash.append (hprompt.append hhash))

/-! ## Symbols -/

/-- A name that the patterns of the file take as a whole. -/
def PlainName (name : Text) : Prop := name ≠ [] ∧ ∀ c ∈ name, isSymbolChar c = true

theorem PlainName.not_mem {name : Text} (h : PlainName name) {c : Char}
    (hc : isSymbolChar c = false) : c ∉ name := by
  intro hmem
  rw [h.2 c hmem] at hc
  cases hc

theorem takeWhile_append_of_not_mem {name t : Text} {c : Char} (h : c ∉ name) :
    (name ++ c :: t).takeWhile (· ≠ c) = name ∧ (name ++ c :: t).dropWhile (· ≠ c) = c :: t := by
  have hall : ∀ d ∈ name, decide (d ≠ c) = true := fun d hd =>
    decide_eq_true fun hdc => h (hdc ▸ hd)
  constructor
  · rw [List.takeWhile_append_of_pos hall]
    simp
  · rw [List.dropWhile_append_of_pos hall]
    simp

theorem setMatch_line {name val : Text} (hname : PlainName name) (hval : '\n' ∉ val) :
    setMatch (configPrefix ++ (name ++ '=' :: val)) = some (name, val) := by
  obtain ⟨htake, hdrop⟩ := takeWhile_append_of_not_mem (t := val)
    (hname.not_mem (c := '=') (by decide))
  obtain ⟨c, n, rfl⟩ := List.exists_cons_of_ne_nil hname.1
  have hall : val.takeWhile (· ≠ '\n') = val :=
    List.takeWhile_eq_self_iff.mpr fun d hd => decide_eq_true fun hdc => hval (hdc ▸ hd)
  rw [setMatch, if_pos (List.prefix_append _ _)]
  simp only [List.drop_left, htake, hdrop, hall]

theorem unsetMatch_line {name : Text} (hname : PlainName name) :
    unsetMatch ("# ".toList ++ configPrefix ++ (name ++ " is not set".toList)) = some name := by
  obtain ⟨htake, hdrop⟩ := takeWhile_append_of_not_mem (t := "is not set".toList)
    (hname.not_mem (c := ' ') (by decide))
  obtain ⟨c, n, rfl⟩ := List.exists_cons_of_ne_nil hname.1
  have hsplit : (c :: n) ++ " is not set".toList = (c :: n) ++ ' ' :: "is not set".toList := rfl
  rw [unsetMatch, if_pos (List.prefix_append _ _)]
  simp only [List.drop_left, hsplit, htake, hdrop]
  exact if_pos (List.prefix_refl _)

/-- The line of an assignment. -/
theorem lineCalls_set {s : S} {name val : Text} (hname : PlainName name)
    (hlookup : T.lookup name = some s) (hval : '\n' ∉ val)
    (hend : ∀ c ∈ val.getLast?, isPySpace c = false) :
    lineCalls T (pyRstrip (configPrefix ++ (name ++ '=' :: val))) = assignCalls T s val := by
  have hstrip : pyRstrip (configPrefix ++ (name ++ '=' :: val)) =
      configPrefix ++ (name ++ '=' :: val) := by
    refine pyRstrip_of_getLast fun c hc => ?_
    have hlast : (configPrefix ++ (name ++ '=' :: val)).getLast? = ('=' :: val).getLast? := by
      rw [← List.append_assoc, List.getLast?_append_of_ne_nil _ (List.cons_ne_nil _ _)]
    rw [hlast, List.getLast?_cons] at hc
    cases hv : val.getLast? with
    | none =>
      rw [hv] at hc
      obtain rfl := Option.mem_some_iff.mp hc
      decide
    | some d =>
      rw [hv] at hc
      obtain rfl := Option.mem_some_iff.mp hc
      exact hend d hv
  rw [hstrip, lineCalls, setMatch_line hname hval]
  simp only [hlookup]

/-- The line of an unset symbol. -/
theorem lineCalls_unset {s : S} {name : Text} (hname : PlainName name)
    (hlookup : T.lookup name = some s) (htype : isBoolTristate (T.sym s).origType = true) :
    lineCalls T (pyRstrip ("# ".toList ++ configPrefix ++ (name ++ " is not set".toList))) =
      [.setValue s (.str ['n'])] := by
  have hstrip : pyRstrip ("# ".toList ++ configPrefix ++ (name ++ " is not set".toList)) =
      "# ".toList ++ configPrefix ++ (name ++ " is not set".toList) := by
    refine pyRstrip_of_getLast fun c hc => ?_
    rw [← List.append_assoc, List.getLast?_append_of_ne_nil _ (by decide)] at hc
    obtain rfl := Option.mem_some_iff.mp hc
    decide
  have hset : setMatch ("# ".toList ++ configPrefix ++ (name ++ " is not set".toList)) = none :=
    setMatch_eq_none (by simp [configPrefix_eq])
  rw [hstrip, lineCalls, hset, unsetMatch_line hname]
  simp only [Option.bind_some, hlookup, htype, if_true]

/-- What the file says about a symbol with this value. -/
def valueCalls (T : Tables S C) (s : S) (val : Text) : List (Call S C) :=
  if isBoolTristate (T.sym s).origType then
    match (T.sym s).choice with
    | some c =>
      if val ≠ ['n'] then [.setChoice c (.str val), .setValue s (.str val)]
      else [.setValue s (.str val)]
    | none => [.setValue s (.str val)]
  else [.setValue s (.str val)]

/-- A value that its line gives back: a tristate that the symbol takes, a string on one line, or a
number on one line without spaces behind it. -/
structure PlainEntry (d : SymbolDef S C) (val : Text) : Prop where
  tri : isBoolTristate d.origType = true → ∃ t : Tristate, val = t.toStr ∧
    (t = .m → d.origType = .tristate)
  noNewline : '\n' ∉ val
  noReturn : '\r' ∉ val
  noSpace : d.origType ≠ .string → ∀ c ∈ val.getLast?, isPySpace c = false
  known : d.origType ≠ .unknown

theorem mem_escape {c : Char} {s : Text} (hc : c ≠ '\\') (h : c ∈ escape s) : c ∈ s := by
  rw [escape_eq, List.mem_flatMap] at h
  obtain ⟨d, hd, hcd⟩ := h
  unfold escapeChar at hcd
  split at hcd
  · simp [hc] at hcd
  · split at hcd
    · next hq => simp_all
    · rwa [List.mem_singleton.mp hcd]

/-- **The line of a symbol** says its value. -/
theorem says_configString {s : S} {val : Text} (hname : PlainName (T.sym s).name)
    (hlookup : T.lookup (T.sym s).name = some s) (h : PlainEntry (T.sym s) val) :
    Says T (configString (T.sym s) val) (valueCalls T s val) := by
  have hformat : ∀ v : Text, pyFormat "{}{}={}\n".toList [configPrefix, (T.sym s).name, v] =
      (configPrefix ++ ((T.sym s).name ++ '=' :: v)) ++ ['\n'] := by
    intro v
    simp [pyFormat]
  have hsays : ∀ v : Text, '\n' ∉ v → '\r' ∉ v → (∀ c ∈ v.getLast?, isPySpace c = false) →
      assignCalls T s v = valueCalls T s val →
      Says T ((configPrefix ++ ((T.sym s).name ++ '=' :: v)) ++ ['\n']) (valueCalls T s val) := by
    intro v hnl hcr hend hcalls
    refine Says.line ?_ ?_ (hcalls ▸ lineCalls_set hname hlookup hnl hend)
    · simp [configPrefix_eq, hnl, hname.not_mem (c := '\n') (by decide)]
    · simp [configPrefix_eq, hcr, hname.not_mem (c := '\r') (by decide)]
  unfold configString
  by_cases htype : isBoolTristate (T.sym s).origType = true
  · obtain ⟨t, rfl, hm⟩ := h.tri htype
    rw [if_pos htype]
    split
    · next hn =>
      rw [hformat]
      refine hsays _ h.noNewline h.noReturn (fun c hc => ?_) ?_
      · cases t <;> obtain rfl := Option.mem_some_iff.mp hc <;> decide
      · have htakes : ∃ c, t.toStr = [c] ∧ c ≠ 'n' ∧ takesLetter (T.sym s).origType c = true := by
          cases t with
          | n => exact absurd rfl hn
          | m => exact ⟨'m', rfl, by decide, by rw [hm rfl]; rfl⟩
          | y => exact ⟨'y', rfl, by decide, rfl⟩
        obtain ⟨c, hc, hne, htakes⟩ := htakes
        rw [hc]
        cases hchoice : (T.sym s).choice <;>
          simp [assignCalls, valueCalls, htype, htakes, hne, hchoice]
    · next hn =>
      rw [not_not] at hn
      have hunset : pyFormat "# {}{} is not set\n".toList [configPrefix, (T.sym s).name] =
          ("# ".toList ++ configPrefix ++ ((T.sym s).name ++ " is not set".toList)) ++ ['\n'] := by
        simp [pyFormat]
      have hcalls : valueCalls T s t.toStr = [.setValue s (.str ['n'])] := by
        rw [valueCalls, if_pos htype, hn]
        split <;> rfl
      rw [hunset, hcalls]
      refine Says.line ?_ ?_ (lineCalls_unset hname hlookup htype)
      · simp [configPrefix_eq, hname.not_mem (c := '\n') (by decide)]
      · simp [configPrefix_eq, hname.not_mem (c := '\r') (by decide)]
  · rw [if_neg htype]
    have hvalue : valueCalls T s val = [.setValue s (.str val)] := if_neg htype
    split
    · next hnum =>
      have hstring : (T.sym s).origType ≠ .string := by
        rcases hnum with hnum | hnum <;> rw [hnum] <;> decide
      rw [hformat]
      refine hsays _ h.noNewline h.noReturn (h.noSpace hstring) ?_
      simp [assignCalls, htype, hstring, hvalue]
    · next hnum =>
      have hstring : (T.sym s).origType = .string := by
        have hknown := h.known
        revert htype hnum hknown
        cases (T.sym s).origType <;> simp [isBoolTristate]
      have hquoted : pyFormat "{}{}=\"{}\"\n".toList
          [configPrefix, (T.sym s).name, escape val] =
          (configPrefix ++ ((T.sym s).name ++ '=' :: ('"' :: (escape val ++ ['"'])))) ++ ['\n'] := by
        simp [pyFormat]
      rw [hquoted]
      refine hsays _ ?_ ?_ (fun c hc => ?_) ?_
      · have hnl : '\n' ∉ escape val := fun hmem => h.noNewline (mem_escape (by decide) hmem)
        simp [hnl]
      · have hcr : '\r' ∉ escape val := fun hmem => h.noReturn (mem_escape (by decide) hmem)
        simp [hcr]
      · rw [← List.cons_append, List.getLast?_concat] at hc
        obtain rfl := Option.mem_some_iff.mp hc
        decide
      · have hmatch := confStringMatch_escape val []
        simp [assignCalls, hstring, isBoolTristate, hmatch, unescape_escape, hvalue]

theorem configString_ne_nil (d : SymbolDef S C) (val : Text) : configString d val ≠ [] := by
  unfold configString
  split
  · split <;> simp [pyFormat, configPrefix_eq]
  · split <;> simp [pyFormat, configPrefix_eq]

/-- The defined symbols have plain names, and no two share one. -/
structure WellNamed (T : Tables S C) : Prop where
  plain : ∀ s ∈ T.uniqueDefinedSyms, PlainName (T.sym s).name
  unique : ∀ s ∈ T.uniqueDefinedSyms, ∀ t ∈ T.uniqueDefinedSyms,
    (T.sym s).name = (T.sym t).name → s = t

theorem WellNamed.lookup (h : WellNamed T) {s : S} (hs : s ∈ T.uniqueDefinedSyms) :
    T.lookup (T.sym s).name = some s := by
  unfold Tables.lookup
  cases hfind : T.uniqueDefinedSyms.find? fun t => (T.sym t).name = (T.sym s).name with
  | none => simpa using List.find?_eq_none.mp hfind s hs
  | some t =>
    have hname : (T.sym t).name = (T.sym s).name := by simpa using List.find?_some hfind
    rw [h.unique t (List.mem_of_find?_eq_some hfind) s hs hname]

end Says

/-! ## The walk -/

/-- The symbols that a walk comes to, each once. -/
def entered : List (Visit S C) → List S → List S
  | [], _ => []
  | .enter (.sym s) _ _ _ :: visits, visited =>
    if s ∈ visited then entered visits visited else s :: entered visits (s :: visited)
  | _ :: visits, visited => entered visits visited

/-- What a walk may come to: defined symbols, and menus and comments with plain prompts. -/
def PlainVisit (T : Tables S C) : Visit S C → Prop
  | .enter (.sym s) _ _ _ => s ∈ T.uniqueDefinedSyms
  | .enter .menu prompt _ _ => PlainPrompt prompt
  | .enter .comment prompt _ _ => PlainPrompt prompt
  | .leave .menu prompt _ _ => PlainPrompt prompt
  | _ => True

instance (T : Tables S C) (v : Visit S C) : Decidable (PlainVisit T v) := by
  unfold PlainVisit
  split <;> infer_instance

omit [DecidableEq C] in
theorem mem_entered_of_mem {visits : List (Visit S C)} {s : S} {p : Text} {dep visibility : Expr S C}
    (h : .enter (.sym s) p dep visibility ∈ visits) (visited : List S) :
    s ∈ entered visits visited ∨ s ∈ visited := by
  induction visits generalizing visited with
  | nil => exact absurd h List.not_mem_nil
  | cons v visits ih =>
    rcases List.mem_cons.mp h with rfl | hmem
    · rw [entered]
      split
      · next hs => exact Or.inr hs
      · exact Or.inl List.mem_cons_self
    · rcases v with ⟨t | c | _ | _, _, _, _⟩ | ⟨item, _, _, _⟩
      · rw [entered]
        split
        · exact ih hmem visited
        · rcases ih hmem (t :: visited) with hs | hs
          · exact Or.inl (List.mem_cons_of_mem t hs)
          · rcases List.mem_cons.mp hs with rfl | hs
            · exact Or.inl List.mem_cons_self
            · exact Or.inr hs
      all_goals exact ih hmem visited

omit [DecidableEq C] in
theorem mem_of_mem_entered {T : Tables S C} {visits : List (Visit S C)}
    (h : ∀ v ∈ visits, PlainVisit T v) {visited : List S} {s : S} (hs : s ∈ entered visits visited) :
    s ∈ T.uniqueDefinedSyms := by
  induction visits generalizing visited with
  | nil => exact absurd hs List.not_mem_nil
  | cons v visits ih =>
    have hrest := fun w hw => h w (List.mem_cons_of_mem v hw)
    rcases v with ⟨t | c | _ | _, _, _, _⟩ | ⟨item, _, _, _⟩
    · unfold entered at hs
      split at hs
      · exact ih hrest hs
      · rcases List.mem_cons.mp hs with rfl | hs
        · exact h _ List.mem_cons_self
        · exact ih hrest hs
    all_goals exact ih hrest hs

section Loop

variable {T : Tables S C} {inp : ∀ r, Read.Val T r} {val : ∀ k : Key S C, k.Val}

omit [DecidableEq C] in
/-- What the loop writes says the values of the symbols that it comes to and that get written. -/
theorem says_contentsLoop (hnamed : WellNamed T) {visits : List (Visit S C)}
    (hvisits : ∀ v ∈ visits, PlainVisit T v)
    (hplain : ∀ s ∈ T.uniqueDefinedSyms, writesOf val s = true →
      PlainEntry (T.sym s) (strOf val s)) (visited : List S) (afterEnd : Bool) :
    Says T ((contentsLoop visits visited afterEnd : Attr T Text).eval inp val)
      (((entered visits visited).filter (writesOf val)).flatMap fun s =>
        valueCalls T s (strOf val s)) := by
  have hblank : Says T (['\n'] : Text) [] := Says.line (l := []) (by simp) (by simp) (by rfl)
  induction visits generalizing visited afterEnd with
  | nil => exact Says.nil
  | cons v visits ih =>
    have hv := hvisits v List.mem_cons_self
    have hrest := ih fun w hw => hvisits w (List.mem_cons_of_mem v hw)
    -- A comment in front of the rest, or none.
    have hcomment : ∀ (shows : Attr T Bool) (text : Text) (afterEnd' : Bool), Says T text [] →
        Says T ((shows >>= fun b =>
          if b then contentsLoop visits visited afterEnd' >>= fun rest => pure (text ++ rest)
          else contentsLoop visits visited afterEnd : Attr T Text).eval inp val)
          (((entered visits visited).filter (writesOf val)).flatMap fun s =>
            valueCalls T s (strOf val s)) := by
      intro shows text afterEnd' htext
      rw [Query.eval_bind, Query.eval_ite, Query.eval_bind]
      split
      · exact htext.append (hrest visited afterEnd')
      · exact hrest visited afterEnd
    rcases v with ⟨s | c | - | -, p, dep, visibility⟩ | ⟨s | c | - | -, p, dep, visibility⟩
    · unfold contentsLoop entered
      split
      · exact hrest visited afterEnd
      · rw [Query.eval_bind, Query.eval_ite]
        have hconf : (symConfigString s : Attr T Text).eval inp val =
          if writesOf val s then configString (T.sym s) (strOf val s) else [] := rfl
        rw [hconf]
        by_cases hwrite : writesOf val s = true
        · rw [List.filter_cons_of_pos hwrite, List.flatMap_cons, if_pos hwrite,
            if_neg (configString_ne_nil _ _), Query.eval_bind]
          have hline := says_configString (hnamed.plain s hv) (hnamed.lookup hv) (hplain s hv hwrite)
          have hspace : Says T (if afterEnd then ['\n'] else [] : Text) [] := by
            split
            exacts [hblank, Says.nil]
          exact (hspace.append hline).append (hrest (s :: visited) false)
        · rw [List.filter_cons_of_neg hwrite, if_neg hwrite, if_pos rfl]
          exact hrest (s :: visited) afterEnd
    · have hchoice : (showsPrompt (.choice c) dep visibility : Attr T Bool).eval inp val = false := by
        unfold showsPrompt
        rw [Query.eval_bind, Query.eval_ite]
        split <;> rfl
      unfold contentsLoop
      rw [Query.eval_bind, hchoice]
      exact hrest visited afterEnd
    · exact hcomment _ _ false (says_promptComment hv)
    · exact hcomment _ _ false (says_promptComment hv)
    · exact hrest visited afterEnd
    · exact hrest visited afterEnd
    · exact hcomment _ _ true (says_endComment hv)
    · exact hrest visited afterEnd

end Loop

/-! ## The file -/

/-- The header that `write_config` writes by default. -/
def configHeader : Text :=
  "# Generated by Kconfiglib (https://github.com/ulfalizer/Kconfiglib)\n".toList

omit [DecidableEq S] [DecidableEq C] in
theorem says_configHeader (T : Tables S C) : Says T configHeader [] := by
  have hline : configHeader =
      "# Generated by Kconfiglib (https://github.com/ulfalizer/Kconfiglib)".toList ++ ['\n'] := by
    decide
  rw [hline]
  exact Says.line (by decide) (by decide) (lineCalls_comment (by decide) (by decide))

/-- A menu tree that shows each defined symbol somewhere, and whose texts fit the file. -/
structure Kconfig.Tree (K : Kconfig S C) (top : List (MenuNode S C)) : Prop where
  named : WellNamed K.toTables
  plain : ∀ v ∈ walkList top, PlainVisit K.toTables v
  covers : ∀ s ∈ K.uniqueDefinedSyms, ∃ prompt dep visibility,
    .enter (.sym s) prompt dep visibility ∈ walkList top

/-- The symbols with a line in the file, in its order. -/
def Kconfig.lines (K : Kconfig S C) (u : User K.toTables) (top : List (MenuNode S C)) : List S :=
  (entered (walkList top) []).filter (K.written u)

theorem Kconfig.Tree.mem_lines {top : List (MenuNode S C)} (h : K.Tree top) {s : S} :
    s ∈ K.lines u top ↔ s ∈ K.uniqueDefinedSyms ∧ K.written u s = true := by
  rw [lines, List.mem_filter]
  refine and_congr_left fun _ => ⟨mem_of_mem_entered h.plain, fun hs => ?_⟩
  obtain ⟨p, dep, visibility, hmem⟩ := h.covers s hs
  exact (mem_entered_of_mem hmem []).resolve_right List.not_mem_nil

/-- **What the file says.** Loading the file sets each symbol that got written to its value. -/
theorem Kconfig.Tree.fileCalls_configContents {top : List (MenuNode S C)} (h : K.Tree top)
    (hplain : ∀ s ∈ K.uniqueDefinedSyms, K.written u s = true →
      PlainEntry (K.sym s) (K.str u s)) :
    fileCalls K.toTables ((configContents configHeader top : Attr K.toTables Text).eval u.inputs
      (K.vals u)) = (K.lines u top).flatMap fun s => valueCalls K.toTables s (K.str u s) := by
  have hbody : Says K.toTables ((contentsLoop (walkList top) [] false : Attr K.toTables Text).eval
      u.inputs (K.vals u)) _ := says_contentsLoop h.named h.plain hplain [] false
  have hfile := ((says_configHeader K.toTables).append hbody).fileCalls
  rw [configContents, Query.eval_bind]
  exact hfile

end MaixSpeech.Kconfiglib
