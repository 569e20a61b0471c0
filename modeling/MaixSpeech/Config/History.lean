import MaixSpeech.Config.Correct
import Mathlib.Data.List.DropRight

/-!
# A second call

Reference: `components/utils/src/opts.c`.

`content` is static and not cleared, and `fread` puts no NUL behind the text. A text that ends
without a newline is read on in what the last call has left there, up to a newline that it has not
ended: that of a comment, or of a line behind an unsupported value. `parseOpts_historyFree_iff` says
when this shows.
-/

namespace MaixSpeech.Config

open Common

variable {F : Type*} {lib : CNum F}

/-! ## Calls one after the other -/

/-- The options of a call, with the strings at their offsets. -/
def ParseResult.values (r : ParseResult F) : Opts F (List UInt8) :=
  { r.opts with str := fun k => (r.opts.str k).map fun q => cstr (r.content.drop q) }

/-- A text that fits and does not make the parser look in front of `content`. -/
structure CfgInput (text : List UInt8) : Prop where
  short : text.length < 1000
  noNul : 0 ∉ text
  noEmptyFirst : text.head? ≠ some newline

/-- A call on `textB` after one on `textA` returns and sets what it does as the first call. -/
def HistoryFree (lib : CNum F) (before : UInt8) (textA textB : List UInt8) : Prop :=
  let first := parseOpts lib (List.replicate 1000 0) before (some textA)
  let second := parseOpts lib first.content first.before (some textB)
  let fresh := parseOpts lib (List.replicate 1000 0) before (some textB)
  second.ret = fresh.ret ∧ second.values = fresh.values

/-! ## What a text makes of the bytes behind it -/

/-- The text behind the last newline. -/
def lastLine (text : List UInt8) : List UInt8 := text.rtakeWhile (· ≠ newline)

/-- The line that byte `n` is in, from there on. -/
def lineFrom : List (List UInt8) → ℕ → Option (List UInt8)
  | [], _ => none
  | l :: ls, n => if n ≤ l.length then some (l.drop n) else lineFrom ls (n - (l.length + 1))

/-- The same for the lines that keep their newlines: comments, and what comes behind an unsupported
value. -/
def keptFrom : List (List UInt8) → ℕ → Option (List UInt8)
  | [], _ => none
  | l :: ls, n =>
    if n ≤ l.length then if l.head? = some hash then some (l.drop n) else none
    else if ∃ e ∈ lineEntry l, Unsupported e then lineFrom ls (n - (l.length + 1))
    else keptFrom ls (n - (l.length + 1))

/-- The line that the end of `textB` becomes part of. -/
def joinedLine (textA textB : List UInt8) : Option (List UInt8) :=
  if lastLine textB = [] then none
  else (keptFrom (fileLines textA) textB.length).map (lastLine textB ++ ·)

/-- The lines of `textB` are all read, and then the joined line gives an option another value. -/
def Leaks (lib : CNum F) (textA textB : List UInt8) : Prop :=
  (∀ e ∈ entries (fileLines textB), ¬ Unsupported e) ∧
    ∃ e ∈ (joinedLine textA textB).bind lineEntry,
      (setOpt lib e.1 e.2 e.2 (described lib (Opts.cleared lib) (entries (fileLines textB)))).1 ≠
        described lib (Opts.cleared lib) (entries (fileLines textB))

/-! ## What a call leaves -/

section Left

variable {st : ParseSt F} {pre l s t text : List UInt8} {z : List UInt8} {a : Opts F (List UInt8)}

theorem parseEntry_content (lib : CNum F) (st : ParseSt F) (pn : ℕ) :
    (parseEntry lib st pn).content =
      match strchr colon (st.content.drop st.p) with
      | none => st.content
      | some k => st.content.set (st.p + k) 0 := by
  cases hchr : strchr colon (st.content.drop st.p) with
  | none => simp only [parseEntry, hchr]
  | some k =>
    simp only [parseEntry, hchr]
    split
    · rfl
    · split <;> rfl

/-- A line with its end and its colon replaced has no newline left, and NUL at its end. -/
theorem LineEnded.parseEntry_left (lib : CNum F) (h : LineEnded st pre l t s z a)
    (hnl : newline ∉ l) (pn : ℕ) :
    ∃ x, (parseEntry lib st pn).content = pre ++ (x ++ 0 :: t) ∧ x.length = l.length ∧
      newline ∉ x := by
  have hs : newline ∉ s := fun hm => hnl (by
    rcases stripCr_eq l with hl | hl
    · rwa [hl, ← h.text]
    · rw [hl, ← h.text]
      exact List.mem_append_left _ hm)
  have hz : ∃ z', 0 :: z = z' ++ [0] ∧ z'.length = z.length ∧ newline ∉ z' := by
    rcases h.nuls with rfl | rfl
    · exact ⟨[], rfl, rfl, List.not_mem_nil⟩
    · exact ⟨[0], rfl, rfl, by decide⟩
  obtain ⟨z', hz', hzlen, hznl⟩ := hz
  have hlen := h.length
  rw [parseEntry_content]
  by_cases hcol : colon ∈ s
  · obtain ⟨k, v, hkv, hk⟩ := List.eq_append_cons_of_mem hcol
    have hchr : strchr colon (st.content.drop st.p) = some k.length := by
      rw [h.content, h.pos, List.drop_left, hkv, List.append_assoc, List.cons_append]
      exact strchr_append hk (fun hm => h.noNul (by simp [hkv, hm])) _
    obtain ⟨hset, -, -⟩ := h.split hkv
    refine ⟨k ++ 0 :: (v ++ z'), ?_, ?_, ?_⟩
    · simp only [hchr]
      rw [hset, hz']
      simp
    · rw [← hlen, hkv]
      simp only [List.length_append, List.length_cons, hzlen]
      omega
    · rw [hkv] at hs
      simp only [List.mem_append, List.mem_cons, not_or] at hs ⊢
      exact ⟨hs.1, by decide, hs.2.2, hznl⟩
  · have hchr : strchr colon (st.content.drop st.p) = none := by
      rw [h.content, h.pos, List.drop_left]
      exact strchr_append_nul hcol (by decide) _
    refine ⟨s ++ z', ?_, ?_, ?_⟩
    · have hassoc : s ++ 0 :: (z ++ t) = s ++ (0 :: z ++ t) := rfl
      simp only [hchr]
      rw [h.content, hassoc, hz']
      simp
    · rw [← hlen, List.length_append, hzlen]
    · exact fun hm => (List.mem_append.mp hm).elim hs hznl

/-- **What one turn leaves of a line**: a comment keeps its newline, every other line ends with
NUL. -/
theorem parseLine_left (lib : CNum F) (hinv : LoopInv st pre (l ++ newline :: t) a)
    (hs : st.stopped = false) (hnl : newline ∉ l) (h0 : 0 ∉ l) {mid : List UInt8}
    (hmid : (parseLine lib st).content = pre ++ mid ++ t) (hlen : mid.length = l.length + 1) {n : ℕ}
    (hn : n ≤ l.length) (r : List UInt8) :
    strBefore newline ((mid ++ r).drop n) =
      if l.head? = some hash then some (l.drop n) else none := by
  have heq : ∀ x, (parseLine lib st).content = pre ++ (x ++ t) → x.length = l.length + 1 →
      mid = x := by
    intro x hx hxlen
    rw [hmid, List.append_assoc] at hx
    exact (List.append_inj (List.append_cancel_left hx) (hlen.trans hxlen.symm)).1
  by_cases hhash : l.head? = some hash
  · obtain ⟨hcontent, -⟩ := parseLine_comment lib hinv hs hnl h0 hhash
    obtain rfl := heq (l ++ [newline]) (by rw [hcontent, hinv.content]; simp) (by simp)
    rw [if_pos hhash, List.append_assoc, List.singleton_append, List.drop_append_of_le_length hn]
    exact strBefore_append (fun hm => hnl (List.mem_of_mem_drop hm))
      (fun hm => h0 (List.mem_of_mem_drop hm)) r
  · obtain ⟨st', z, hended, hturn⟩ := parseLine_ended lib hinv hs hnl h0 hhash
    obtain ⟨x, hx, hxlen, hxnl⟩ := hended.parseEntry_left lib hnl (pre.length + l.length)
    obtain rfl := heq (x ++ [0]) (by rw [hturn, hx]; simp) (by simp [hxlen])
    rw [if_neg hhash, List.append_assoc, List.singleton_append,
      List.drop_append_of_le_length (by omega)]
    exact strBefore_append_nul (fun hm => hxnl (List.mem_of_mem_drop hm)) (by decide) r

/-- In front of NULs the lines of a text are there as they are. -/
theorem strBefore_drop (h0 : 0 ∉ text) (k n : ℕ) :
    strBefore newline ((text ++ List.replicate k 0).drop n) = lineFrom (fileLines text) n := by
  induction text using line_induction generalizing n with
  | rest l hl =>
    rw [fileLines_of_notMem hl, lineFrom]
    refine strBefore_of_notMem (fun hm => ?_) (by decide)
    rcases List.mem_append.mp (List.mem_of_mem_drop hm) with hm | hm
    · exact hl hm
    · exact absurd (List.eq_of_mem_replicate hm) (by decide)
  | line l b hl ih =>
    have hl0 : 0 ∉ l := fun hm => h0 (List.mem_append_left _ hm)
    have hb0 : 0 ∉ b := fun hm => h0 (by simp [hm])
    rw [fileLines_cons hl, lineFrom, List.append_assoc, List.cons_append]
    split
    · rename_i hn
      rw [List.drop_append_of_le_length hn]
      exact strBefore_append (fun hm => hl (List.mem_of_mem_drop hm))
        (fun hm => hl0 (List.mem_of_mem_drop hm)) _
    · rename_i hn
      have hdrop : (l ++ newline :: (b ++ List.replicate k 0)).drop n =
          (b ++ List.replicate k 0).drop (n - (l.length + 1)) := by
        rw [List.append_cons, List.drop_append, List.drop_of_length_le (by simp; omega)]
        simp
      rw [hdrop]
      exact ih hb0 _

/-- A line that is left as the first of some lines. -/
theorem strBefore_left {mid rest : List UInt8} {ls : List (List UInt8)}
    (hlen : mid.length = l.length + 1)
    (hline : ∀ n ≤ l.length, strBefore newline ((mid ++ rest).drop n) =
      if l.head? = some hash then some (l.drop n) else none)
    (hrest : ∀ n, strBefore newline (rest.drop n) =
      if ∃ e ∈ lineEntry l, Unsupported e then lineFrom ls n else keptFrom ls n) (n : ℕ) :
    strBefore newline ((mid ++ rest).drop n) = keptFrom (l :: ls) n := by
  rw [keptFrom]
  by_cases hn : n ≤ l.length
  · rw [if_pos hn, hline n hn]
  · rw [if_neg hn, List.drop_append, List.drop_of_length_le (by omega), List.nil_append, hlen]
    exact hrest _

/-- **What the loop leaves of a text** with NULs behind it: of its newlines only those that
`keptFrom` counts. -/
theorem parseLoop_left {k turns : ℕ} (hinv : LoopInv st pre (text ++ List.replicate k 0) a)
    (hs : st.stopped = false) (h0 : 0 ∉ text) (hturns : text.length ≤ turns) :
    ∃ rest, (parseLoop lib (pre.length + text.length) turns st).content = pre ++ rest ∧
      ∀ n, strBefore newline (rest.drop n) = keptFrom (fileLines text) n := by
  have hp := (hinv.pos hs).1
  induction text using line_induction generalizing st pre a turns with
  | rest l hl =>
    have hnone : newline ∉ l ++ List.replicate k 0 := fun hm =>
      (List.mem_append.mp hm).elim hl fun hm => absurd (List.eq_of_mem_replicate hm) (by decide)
    refine ⟨l ++ List.replicate k 0, ?_, fun n => ?_⟩
    · have hchr : strchr newline (l ++ List.replicate k 0) = none :=
        (strchr_eq_none_iff (by decide)).mpr fun hm => hnone ((List.takeWhile_prefix _).subset hm)
      exact (parseLoop_no_line hinv hs hchr turns).content
    · rw [fileLines_of_notMem hl]
      exact strBefore_of_notMem (fun hm => hnone (List.mem_of_mem_drop hm)) (by decide)
  | line l b hl ih =>
    have hl0 : 0 ∉ l := fun hm => h0 (List.mem_append_left _ hm)
    have hb0 : 0 ∉ b := fun hm => h0 (by simp [hm])
    rw [List.append_assoc, List.cons_append] at hinv
    obtain ⟨mid, hlen, hdone, hbreak⟩ := parseLine_line lib hinv hs hl hl0
    have hcontent := hdone.content
    have hsize : pre.length + (l ++ newline :: b).length = (pre ++ mid).length + b.length := by
      simp only [List.length_append, List.length_cons, hlen]
      omega
    have hline : ∀ r, ∀ n ≤ l.length, strBefore newline ((mid ++ r).drop n) =
        if l.head? = some hash then some (l.drop n) else none :=
      fun r n hn => parseLine_left lib hinv hs hl hl0 hcontent hlen hn r
    obtain ⟨turns, rfl, hmore⟩ : ∃ m, turns = m + 1 ∧ b.length ≤ m := by
      simp only [List.length_append, List.length_cons] at hturns
      exact ⟨turns - 1, by omega, by omega⟩
    rw [hsize, parseLoop_of_running hs (by rw [hp, List.length_append, hlen]; omega),
      fileLines_cons hl]
    by_cases hun : ∃ e ∈ lineEntry l, Unsupported e
    · -- the loop is left, and what follows is not touched
      rw [parseLoop_of_stopped (Or.inl (hbreak.mpr hun))]
      refine ⟨mid ++ (b ++ List.replicate k 0), by rw [hcontent, List.append_assoc],
        strBefore_left hlen (hline _) fun n => ?_⟩
      rw [if_pos hun]
      exact strBefore_drop hb0 k n
    · have hgo : (parseLine lib st).stopped = false := by
        rw [← Bool.not_eq_true, hbreak]
        exact hun
      obtain ⟨rest, hrest, hkept⟩ := ih hdone hgo hb0 hmore (hdone.pos hgo).1
      refine ⟨mid ++ rest, by rw [hrest, List.append_assoc],
        strBefore_left hlen (hline _) fun n => ?_⟩
      rw [if_neg hun]
      exact hkept n

end Left

/-! ## What the second call reads -/

section Read

variable {text textA textB l : List UInt8}

theorem lastLine_of_notMem (h : newline ∉ l) : lastLine l = l := by
  rw [lastLine, List.rtakeWhile_eq_self_iff]
  exact fun b hb => decide_eq_true fun hnl => h (hnl ▸ hb)

theorem lastLine_append (l b : List UInt8) : lastLine (l ++ newline :: b) = lastLine b := by
  induction b using List.reverseRecOn with
  | nil =>
    rw [lastLine, List.rtakeWhile_concat, if_neg (by simp)]
    rfl
  | append_singleton b c ih =>
    rw [lastLine, lastLine] at ih
    rw [← List.cons_append, ← List.append_assoc, lastLine, lastLine, List.rtakeWhile_concat,
      List.rtakeWhile_concat, ih]

/-- The lines of a buffer behind a text: those of the text, and the one that its end is part of. -/
theorem bufferLines_append (h0 : 0 ∉ text) (r : List UInt8) :
    bufferLines text.length (text ++ r) = fileLines text ++
      (if lastLine text = [] then none
        else (strBefore newline r).map (lastLine text ++ ·)).toList := by
  induction text using line_induction with
  | rest l hl =>
    rw [fileLines_of_notMem hl, lastLine_of_notMem hl, List.nil_append]
    by_cases hnil : l = []
    · rw [if_pos hnil, hnil, List.length_nil, bufferLines_zero]
      rfl
    · rw [if_neg hnil, strBefore]
      have hpos := List.length_pos_iff.mpr hnil
      cases hr : strchr newline r with
      | none =>
        have hnone : strchr newline (l ++ r) = none := by
          rw [strchr_eq_none_iff (by decide), cstr_append h0, List.mem_append, not_or]
          exact ⟨hl, (strchr_eq_none_iff (by decide)).mp hr⟩
        rw [bufferLines_of_strchr hnone]
        rfl
      | some m =>
        obtain ⟨w, t, rfl, rfl, hw, hw0⟩ := strchr_eq_some_iff.mp hr
        have hnl : newline ∉ l ++ w := by simp [hl, hw]
        have hnul : 0 ∉ l ++ w := by simp [h0, hw0]
        have hover : l.length - ((l ++ w).length + 1) = 0 := by
          rw [List.length_append]
          omega
        rw [← List.append_assoc, bufferLines_cons hnl hnul hpos, hover, bufferLines_zero,
          Option.map_some, Option.map_some, List.take_left]
        rfl
  | line l b hl ih =>
    have hl0 : 0 ∉ l := fun hm => h0 (List.mem_append_left _ hm)
    have hb0 : 0 ∉ b := fun hm => h0 (by simp [hm])
    have hlong : (l ++ newline :: b).length = l.length + 1 + b.length := by
      rw [List.length_append, List.length_cons]
      omega
    have hlen : (l ++ newline :: b).length - (l.length + 1) = b.length := by omega
    rw [List.append_assoc, List.cons_append, bufferLines_cons hl hl0 (by omega), hlen, ih hb0,
      fileLines_cons hl, lastLine_append, List.cons_append]

/-- **The second call reads the lines of its text and the joined line.** -/
theorem readEntries_left (before : UInt8) (hA : CfgInput textA) (hB : CfgInput textB) :
    readEntries (parseOpts lib (List.replicate 1000 0) before (some textA)).content textB =
      entries (fileLines textB) ++ ((joinedLine textA textB).bind lineEntry).toList := by
  have hAlt := hA.short
  have hBlt := hB.short
  have hA31 : textA.length < 2 ^ 31 := by omega
  have hB31 : textB.length < 2 ^ 31 := by omega
  have hsize : cfgSize textA < 1000 := by
    rw [cfgSize_of_lt hA31]
    omega
  have hstart := loopInv_start lib (List.replicate 1000 0) before textA
  rw [List.drop_replicate] at hstart
  obtain ⟨rest, hrest, hkept⟩ := parseLoop_left hstart rfl hA.noNul le_rfl
  have hcontent : (parseOpts lib (List.replicate 1000 0) before (some textA)).content = rest := by
    rw [parseOpts_of_lt lib _ before hsize, cfgRead_of_lt hA31, cfgSize_of_lt hA31,
      Int.toNat_natCast]
    rw [List.length_nil, Nat.zero_add] at hrest
    exact hrest
  rw [readEntries, cfgRead_of_lt hB31, cfgSize_of_lt hB31, Int.toNat_natCast, hcontent,
    bufferLines_append hB.noNul, hkept, ← joinedLine, entries, List.filterMap_append, ← entries]
  cases joinedLine textA textB with
  | none => rfl
  | some l => rfl

end Read

/-! ## Independence -/

section Independence

variable {content text textA textB : List UInt8} {es fs : List (Key × List UInt8)}

theorem Shows.values_eq {mem : List UInt8} {o : Opts F ℕ} {a : Opts F (List UInt8)}
    (h : Shows mem o a) :
    ({ o with str := fun k => (o.str k).map fun q => cstr (mem.drop q) } : Opts F (List UInt8)) = a := by
  have hstr : (fun k => (o.str k).map fun q => cstr (mem.drop q)) = a.str := by
    funext k
    have hk := h.str k
    generalize o.str k = x, a.str k = y at hk ⊢
    cases hk with
    | none => rfl
    | some hs => rw [Option.map_some, hs.cstr_drop]
  rw [hstr, h.deviceType, h.phoneType, h.int, h.float]

/-- What a call returns and sets is determined by the entries it reads. -/
theorem parseOpts_values (lib : CNum F) (content : List UInt8) (before : UInt8)
    (hsize : cfgSize text < 1000) :
    (parseOpts lib content before (some text)).values =
        applyEntries lib (Opts.cleared lib) (readEntries content text) ∧
      (parseOpts lib content before (some text)).ret =
        if (applyEntries lib (Opts.cleared lib) (readEntries content text)).rejected lib then -1
        else 0 := by
  have hshows := parseOpts_shows lib content before hsize
  refine ⟨hshows.values_eq, ?_⟩
  rw [← hshows.rejected_eq, parseOpts_of_lt lib content before hsize]

/-- Entries behind an unsupported value are not applied. -/
theorem applyEntries_append_of_unsupported (o : Opts F (List UInt8))
    (h : ∃ e ∈ es, Unsupported e) : applyEntries lib o (es ++ fs) = applyEntries lib o es := by
  induction es generalizing o with
  | nil => exact absurd h (by simp)
  | cons e es ih =>
    rw [List.cons_append, applyEntries, applyEntries]
    split
    · rfl
    · rename_i hun
      exact ih _ (by simpa [hun] using h)

theorem applyEntries_append_of_supported (o : Opts F (List UInt8))
    (h : ∀ e ∈ es, ¬ Unsupported e) :
    applyEntries lib o (es ++ fs) = applyEntries lib (described lib o es) fs := by
  rw [← applyEntries_eq_described lib o h]
  induction es generalizing o with
  | nil => rfl
  | cons e es ih =>
    rw [List.cons_append, applyEntries, applyEntries, if_neg (h e (by simp)),
      if_neg (h e (by simp))]
    exact ih _ fun e' he' => h e' (by simp [he'])

/-- A text with a newline at its end has nothing to be joined. -/
theorem not_leaks_of_terminated (h : textB = [] ∨ textB.getLast? = some newline) :
    ¬ Leaks lib textA textB := by
  have hlast : lastLine textB = [] := by
    rcases h with rfl | h
    · rfl
    · rw [← List.dropLast_append_getLast? newline h]
      exact lastLine_append _ []
  rintro ⟨-, e, he, -⟩
  rw [joinedLine, if_pos hlast] at he
  cases he

/-- **A call depends on the one before it exactly when the joined line shows**: the text ends without
a newline, its lines have supported values only, and its end makes an entry with a new value together
with a line that the first call has left behind it. -/
theorem parseOpts_historyFree_iff (lib : CNum F) (before : UInt8) (hA : CfgInput textA)
    (hB : CfgInput textB) : HistoryFree lib before textA textB ↔ ¬ Leaks lib textA textB := by
  have hBlt := hB.short
  have hsize : cfgSize textB < 1000 := by
    rw [cfgSize_of_lt (by omega)]
    omega
  have hsecond := fun content before => parseOpts_values lib content before hsize
  have hvalues : HistoryFree lib before textA textB ↔
      applyEntries lib (Opts.cleared lib)
          (entries (fileLines textB) ++ ((joinedLine textA textB).bind lineEntry).toList) =
        applyEntries lib (Opts.cleared lib) (entries (fileLines textB)) := by
    simp only [HistoryFree, hsecond, readEntries_left before hA hB,
      readEntries_cleared hB.short hB.noNul]
    exact ⟨fun h => h.2, fun h => ⟨by rw [h], h⟩⟩
  rw [hvalues, Leaks]
  by_cases hun : ∃ e ∈ entries (fileLines textB), Unsupported e
  · rw [applyEntries_append_of_unsupported _ hun]
    obtain ⟨e, he, heun⟩ := hun
    simp only [true_iff, not_and]
    exact fun h => absurd heun (h e he)
  have hsup : ∀ e ∈ entries (fileLines textB), ¬ Unsupported e := fun e he heun =>
    hun ⟨e, he, heun⟩
  rw [applyEntries_append_of_supported _ hsup, applyEntries_eq_described lib _ hsup]
  rw [and_iff_right hsup]
  cases (joinedLine textA textB).bind lineEntry with
  | none => simp [applyEntries]
  | some e => simp [applyEntries]

/-- A text with a comment, and a shorter one that ends with a number. -/
def commentText : List UInt8 := bytes "device_name:a\n# 12345\n"

def openText : List UInt8 := bytes "device_name:b\nagc:1"

theorem cfgInput_commentText : CfgInput commentText := ⟨by decide, by decide, by decide⟩

theorem cfgInput_openText : CfgInput openText := ⟨by decide, by decide, by decide⟩

/-- The number is read on in the comment. -/
theorem parseOpts_historyFree_iff_openText :
    HistoryFree CNum.decimal 0 commentText openText ↔
      ¬ Leaks CNum.decimal commentText openText :=
  parseOpts_historyFree_iff CNum.decimal 0 cfgInput_commentText cfgInput_openText

theorem not_historyFree_openText : CfgInput commentText ∧ CfgInput openText ∧
    ¬ HistoryFree CNum.decimal 0 commentText openText := by
  refine ⟨cfgInput_commentText, cfgInput_openText, fun h => ?_⟩
  have hagc := congrArg (fun o => o.int .agc) h.2
  revert hagc
  decide +kernel

end Independence

end MaixSpeech.Config
