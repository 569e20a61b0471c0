import MaixSpeech.Config.Parse
import MaixSpeech.Config.Reference

/-!
# The parser computes the reference reading

Reference: `components/utils/src/opts.c`.

The invariant of the parsing loop splits `content` at the position: `pre`, which is finished, and
`rest`, which no turn has touched yet. Every string handed out lies in `pre` and every turn only
extends `pre`, so it stays as it is (`LoopInv.shows`). The one store that could reach back, the one
at `p_n-1` when the line is empty, asks for a CR there, and `pre` never ends with one.
-/

namespace MaixSpeech.Config

open Common

variable {F : Type*}

/-- In the memory `mem` the options `o`, with their offsets, say what `a` says. -/
structure Shows (mem : List UInt8) (o : Opts F ℕ) (a : Opts F (List UInt8)) : Prop where
  deviceType : o.deviceType = a.deviceType
  phoneType : o.phoneType = a.phoneType
  int : o.int = a.int
  float : o.float = a.float
  str : ∀ k, Option.Rel (HoldsStr mem) (o.str k) (a.str k)

/-- The invariant of the parsing loop: `pre` is finished, `rest` is untouched, and the options say
what the entries so far, `a`, say. -/
structure LoopInv (st : ParseSt F) (pre rest : List UInt8) (a : Opts F (List UInt8)) : Prop where
  content : st.content = pre ++ rest
  shows : Shows pre st.opts a
  pos : st.stopped = false → st.p = pre.length ∧ pre.getLast? ≠ some cr

section Shows

variable {mem mem' : List UInt8} {o : Opts F ℕ} {a : Opts F (List UInt8)}

theorem Shows.of_prefix (h : Shows mem o a) (hp : mem <+: mem') : Shows mem' o a where
  deviceType := h.deviceType
  phoneType := h.phoneType
  int := h.int
  float := h.float
  str k := by
    have hk := h.str k
    generalize o.str k = x, a.str k = y at hk ⊢
    cases hk with
    | none => exact .none
    | some hs => exact .some (hs.of_prefix hp)

theorem Shows.setOpt (lib : CNum F) (h : Shows mem o a) (k : Key) {v : List UInt8} {q : ℕ}
    (hv : HoldsStr mem q v) :
    Shows mem (setOpt lib k v q o).1 (Config.setOpt lib k v v a).1 := by
  cases k with
  | deviceType => exact ⟨rfl, h.phoneType, h.int, h.float, h.str⟩
  | phoneType => exact ⟨h.deviceType, rfl, h.int, h.float, h.str⟩
  | int k =>
    refine ⟨h.deviceType, h.phoneType, ?_, h.float, h.str⟩
    simp only [Config.setOpt, h.int]
  | float k =>
    refine ⟨h.deviceType, h.phoneType, h.int, ?_, h.str⟩
    simp only [Config.setOpt, h.float]
  | str k =>
    refine ⟨h.deviceType, h.phoneType, h.int, h.float, fun j => ?_⟩
    simp only [Config.setOpt, update_eq_ite]
    split
    · exact .some hv
    · exact h.str j

/-- The loop breaks exactly at an unsupported value. -/
theorem setOpt_break {S : Type*} (lib : CNum F) (k : Key) (v : List UInt8) (ref : S) (o : Opts F S) :
    (setOpt lib k v ref o).2 = decide (Unsupported (k, v)) := by
  cases k with
  | deviceType =>
    show decide (getDeviceType v < 0) = _
    rw [getDeviceType_eq_codeOf]
    exact decide_eq_decide.mpr Iff.rfl
  | phoneType =>
    show decide (getPhoneType v < 0) = _
    rw [getPhoneType_eq_codeOf]
    exact decide_eq_decide.mpr Iff.rfl
  | str _ => rfl
  | int _ => rfl
  | float _ => rfl

end Shows

/-! ## One line -/

section Line

variable {st : ParseSt F} {pre l t : List UInt8} {a : Opts F (List UInt8)}

/-- What the stores at the end of a line make of `content`. -/
theorem endLine_content (st : ParseSt F) (pn : ℕ) :
    (endLine st pn).content =
      if pn ≠ 0 ∧ (st.content.set pn 0)[pn - 1]? = some cr
      then (st.content.set pn 0).set (pn - 1) 0 else st.content.set pn 0 := by
  unfold endLine
  by_cases h0 : pn = 0
  · simp [h0]
  · simp only [h0, ite_false, not_false_iff, true_and, ne_eq]
    split <;> rfl

theorem endLine_frame (st : ParseSt F) (pn : ℕ) :
    (endLine st pn).opts = st.opts ∧ (endLine st pn).p = st.p ∧
      (endLine st pn).stopped = st.stopped := by
  unfold endLine
  simp only
  split
  · exact ⟨rfl, rfl, rfl⟩
  · split <;> exact ⟨rfl, rfl, rfl⟩

/-- Ending a line leaves its text up to a CR, then NULs; nothing in front of the line changes. -/
theorem endLine_line (st : ParseSt F) (hc : st.content = pre ++ (l ++ newline :: t))
    (hlast : pre.getLast? ≠ some cr) :
    ∃ z, (stripCr l).length + z.length = l.length ∧ (z = [] ∨ z = [0]) ∧
      (endLine st (pre.length + l.length)).content = pre ++ (stripCr l ++ 0 :: (z ++ t)) := by
  have hset : st.content.set (pre.length + l.length) 0 = pre ++ l ++ 0 :: t := by
    rw [hc, ← List.append_assoc, ← List.length_append, set_length_append]
  rw [endLine_content, hset, ← List.length_append]
  by_cases hcr : l.getLast? = some cr
  · -- the CR in front of the newline goes as well
    obtain ⟨l', rfl⟩ : ∃ l', l = l' ++ [cr] := ⟨_, (List.dropLast_append_getLast? cr hcr).symm⟩
    have hstrip : stripCr (l' ++ [cr]) = l' := by simp [stripCr]
    refine ⟨[0], by simp [hstrip], Or.inr rfl, ?_⟩
    have hlen : (pre ++ (l' ++ [cr])).length - 1 = (pre ++ l').length := by simp
    have hget : (pre ++ (l' ++ [cr]) ++ 0 :: t)[(pre ++ (l' ++ [cr])).length - 1]? = some cr := by
      rw [getElem?_length_sub_one (by simp)]
      simp
    rw [if_pos ⟨by simp, hget⟩, hstrip, hlen]
    have hsplit : pre ++ (l' ++ [cr]) ++ 0 :: t = pre ++ l' ++ cr :: (0 :: t) := by simp
    rw [hsplit, set_length_append, List.append_assoc]
    rfl
  · -- the byte there is the line's last, or for an empty line the last one of `pre`
    have hstrip : stripCr l = l := by simp [stripCr, hcr]
    refine ⟨[], by simp [hstrip], Or.inl rfl, ?_⟩
    have hget : ¬ ((pre ++ l).length ≠ 0 ∧
        (pre ++ l ++ 0 :: t)[(pre ++ l).length - 1]? = some cr) := by
      rintro ⟨hne, h⟩
      rw [getElem?_length_sub_one (List.length_pos_iff.mp (by omega)), List.getLast?_append] at h
      cases hl : l.getLast? with
      | none =>
        rw [hl, Option.none_or] at h
        exact hlast h
      | some b =>
        rw [hl, Option.some_or] at h
        exact hcr (hl.trans h)
    rw [if_neg hget, hstrip, List.append_assoc]
    rfl

/-- A turn on the line `l` has applied the line's entry, finished the line's bytes and nothing else,
and left the loop exactly at an unsupported value. -/
def LineDone (lib : CNum F) (st' : ParseSt F) (pre l t : List UInt8) (a : Opts F (List UInt8)) :
    Prop :=
  ∃ mid, mid.length = l.length + 1 ∧
    LoopInv st' (pre ++ mid) t ((lineEntry l).elim a fun e => (setOpt lib e.1 e.2 e.2 a).1) ∧
    (st'.stopped = true ↔ ∃ e, lineEntry l = some e ∧ Unsupported e)

/-- The state behind `endLine` on the line `l`: its text `s`, and behind it `0 :: z` in place of the
line's end. -/
structure LineEnded (st : ParseSt F) (pre l t s z : List UInt8) (a : Opts F (List UInt8)) : Prop where
  content : st.content = pre ++ (s ++ 0 :: (z ++ t))
  pos : st.p = pre.length
  running : st.stopped = false
  shows : Shows pre st.opts a
  text : s = stripCr l
  noNul : 0 ∉ s
  nuls : z = [] ∨ z = [0]
  length : s.length + z.length = l.length

section Entry

variable {s z : List UInt8}

/-- Whatever replaces the line ends with a NUL. -/
theorem LineEnded.getLast?_ne_cr (h : LineEnded st pre l t s z a) (x : List UInt8) :
    (pre ++ (x ++ 0 :: z)).getLast? ≠ some cr := by
  have h0cr : (0 : UInt8) ≠ cr := by decide
  rcases h.nuls with rfl | rfl <;> simp [h0cr]

/-- Behind the NUL that replaces the colon, the key and the value are strings of their own. -/
theorem LineEnded.split (h : LineEnded st pre l t s z a) {k v : List UInt8}
    (hkv : s = k ++ colon :: v) :
    st.content.set (st.p + k.length) 0 = pre ++ (k ++ 0 :: (v ++ 0 :: z)) ++ t ∧
      HoldsStr (pre ++ (k ++ 0 :: (v ++ 0 :: z))) st.p k ∧
      HoldsStr (pre ++ (k ++ 0 :: (v ++ 0 :: z))) (st.p + k.length + 1) v := by
  have hk0 : 0 ∉ k := fun hm => h.noNul (by simp [hkv, hm])
  have hv0 : 0 ∉ v := fun hm => h.noNul (by simp [hkv, hm])
  refine ⟨?_, ?_, ?_⟩
  · have hsplit : st.content = pre ++ k ++ colon :: (v ++ 0 :: (z ++ t)) := by
      simp [h.content, hkv]
    rw [hsplit, h.pos, ← List.length_append, set_length_append]
    simp
  · rw [h.pos]
    exact holdsStr_append pre hk0 _
  · have hval := holdsStr_append (pre ++ (k ++ [0])) hv0 z
    have hlen : (pre ++ (k ++ [0])).length = st.p + k.length + 1 := by
      simp only [List.length_append, List.length_cons, List.length_nil, h.pos]
      omega
    rw [hlen] at hval
    simpa using hval

/-- The part of a turn behind the end of the line, on a line with a colon. -/
theorem parseEntry_colon (lib : CNum F) (h : LineEnded st pre l t s z a)
    (hhash : l.head? ≠ some hash) (hcol : colon ∈ s) :
    LineDone lib (parseEntry lib st (pre.length + l.length)) pre l t a := by
  obtain ⟨k, v, hkv, hk⟩ := List.eq_append_cons_of_mem hcol
  obtain ⟨hset, hkey, hval⟩ := h.split hkv
  have hchr : strchr colon (st.content.drop st.p) = some k.length := by
    rw [h.content, h.pos, List.drop_left, hkv, List.append_assoc, List.cons_append]
    exact strchr_append hk (fun hm => h.noNul (by simp [hkv, hm])) _
  have hmidlen : (k ++ 0 :: (v ++ 0 :: z)).length = l.length + 1 := by
    have hlen := h.length
    rw [hkv] at hlen
    simp only [List.length_append, List.length_cons] at hlen ⊢
    omega
  have hentry : lineEntry l = (keyOf k).map fun key => (key, v) := by
    rw [keyOf_eq_keyNamed]
    exact lineEntry_colon hhash (h.text.symm.trans hkv) hk
  have hshows : Shows (pre ++ (k ++ 0 :: (v ++ 0 :: z))) st.opts a :=
    h.shows.of_prefix (List.prefix_append _ _)
  have hpos : pre.length + l.length + 1 = (pre ++ (k ++ 0 :: (v ++ 0 :: z))).length := by
    rw [List.length_append, hmidlen]
    omega
  have hcr : (pre ++ (k ++ 0 :: (v ++ 0 :: z))).getLast? ≠ some cr := by
    simpa using h.getLast?_ne_cr (k ++ 0 :: v)
  refine ⟨k ++ 0 :: (v ++ 0 :: z), hmidlen, ?_⟩
  rw [hentry]
  simp only [parseEntry, hchr, hset, (hkey.append t).cstr_drop, (hval.append t).cstr_drop]
  cases hkeyOf : keyOf k with
  | none =>
    simp only [Option.map_none, Option.elim_none]
    exact ⟨⟨rfl, hshows, fun _ => ⟨hpos, hcr⟩⟩, by simp [h.running]⟩
  | some key =>
    simp only [Option.map_some, Option.elim_some, setOpt_break, decide_eq_true_eq,
      Option.some.injEq]
    by_cases hun : Unsupported (key, v)
    · rw [if_pos hun]
      refine ⟨⟨rfl, hshows.setOpt lib key hval, fun hs => ?_⟩, fun _ => ⟨_, rfl, hun⟩, fun _ => rfl⟩
      cases hs
    · rw [if_neg hun]
      refine ⟨⟨rfl, hshows.setOpt lib key hval, fun _ => ⟨hpos, hcr⟩⟩, fun hs => ?_, ?_⟩
      · rw [show st.stopped = false from h.running] at hs
        cases hs
      · rintro ⟨e, rfl, he⟩
        exact absurd he hun

/-- The part of a turn behind the end of the line, on a line without a colon. -/
theorem parseEntry_no_colon (lib : CNum F) (h : LineEnded st pre l t s z a) (hcol : colon ∉ s) :
    LineDone lib (parseEntry lib st (pre.length + l.length)) pre l t a := by
  have hchr : strchr colon (st.content.drop st.p) = none := by
    rw [h.content, h.pos, List.drop_left]
    exact strchr_append_nul hcol (by decide) _
  have hentry : lineEntry l = none := lineEntry_no_colon (h.text ▸ hcol)
  have hmidlen : (s ++ 0 :: z).length = l.length + 1 := by
    have hlen := h.length
    simp only [List.length_append, List.length_cons]
    omega
  have hpos : pre.length + l.length + 1 = (pre ++ (s ++ 0 :: z)).length := by
    rw [List.length_append, hmidlen]
    omega
  refine ⟨s ++ 0 :: z, hmidlen, ?_⟩
  rw [hentry]
  simp only [parseEntry, hchr]
  exact ⟨⟨by simp [h.content], h.shows.of_prefix (List.prefix_append _ _),
    fun _ => ⟨hpos, h.getLast?_ne_cr s⟩⟩, by simp [h.running]⟩

theorem parseEntry_line (lib : CNum F) (h : LineEnded st pre l t s z a)
    (hhash : l.head? ≠ some hash) :
    LineDone lib (parseEntry lib st (pre.length + l.length)) pre l t a := by
  by_cases hcol : colon ∈ s
  · exact parseEntry_colon lib h hhash hcol
  · exact parseEntry_no_colon lib h hcol

end Entry

/-- The newline that a turn finds. -/
theorem LoopInv.strchr_newline (hinv : LoopInv st pre (l ++ newline :: t) a)
    (hs : st.stopped = false) (hnl : newline ∉ l) (h0 : 0 ∉ l) :
    strchr newline (st.content.drop st.p) = some l.length ∧
      st.content[st.p]? = (l ++ newline :: t).head? := by
  have hdrop : st.content.drop st.p = l ++ newline :: t := by
    rw [hinv.content, (hinv.pos hs).1, List.drop_left]
  refine ⟨?_, by rw [← hdrop, List.head?_drop]⟩
  rw [hdrop]
  exact strchr_append hnl h0 t

/-- On a comment a turn goes on behind the newline. -/
theorem parseLine_comment (lib : CNum F) (hinv : LoopInv st pre (l ++ newline :: t) a)
    (hs : st.stopped = false) (hnl : newline ∉ l) (h0 : 0 ∉ l) (hhash : l.head? = some hash) :
    (parseLine lib st).content = st.content ∧ (parseLine lib st).opts = st.opts ∧
      (parseLine lib st).p = st.p + l.length + 1 ∧ (parseLine lib st).stopped = false := by
  obtain ⟨hchr, hhead⟩ := hinv.strchr_newline hs hnl h0
  have hcomment : st.content[st.p]? = some hash := by
    rw [hhead, List.head?_append, hhash, Option.some_or]
  simp only [parseLine, hchr, hcomment, if_true]
  exact ⟨trivial, trivial, trivial, hs⟩

/-- On another line a turn ends the line and goes on with its entry. -/
theorem parseLine_ended (lib : CNum F) (hinv : LoopInv st pre (l ++ newline :: t) a)
    (hs : st.stopped = false) (hnl : newline ∉ l) (h0 : 0 ∉ l) (hhash : l.head? ≠ some hash) :
    ∃ st' z, LineEnded st' pre l t (stripCr l) z a ∧
      parseLine lib st = parseEntry lib st' (pre.length + l.length) := by
  obtain ⟨hp, hlast⟩ := hinv.pos hs
  obtain ⟨hchr, hhead⟩ := hinv.strchr_newline hs hnl h0
  have hnothash : st.content[st.p]? ≠ some hash := by
    rw [hhead, List.head?_append]
    cases hl : l.head? with
    | none => simp [newline, hash]
    | some b =>
      rw [hl] at hhash
      simpa using hhash
  set st₁ : ParseSt F := { st with
    used := (st.p, st.p + strchrReads newline (st.content.drop st.p)) :: st.used } with hst₁
  obtain ⟨z, hlen, hz, hcontent⟩ := endLine_line st₁ hinv.content hlast
  obtain ⟨hopts, hpos, hstop⟩ := endLine_frame st₁ (pre.length + l.length)
  have hstrip0 : 0 ∉ stripCr l := by
    rcases stripCr_eq l with h | h
    · rwa [← h]
    · exact fun hm => h0 (h ▸ List.mem_append_left _ hm)
  refine ⟨endLine st₁ (pre.length + l.length), z, ⟨hcontent, hpos.trans hp, hstop.trans hs,
    hopts ▸ hinv.shows, rfl, hstrip0, hz, hlen⟩, ?_⟩
  have hturn : parseLine lib st = parseEntry lib (endLine st₁ (st.p + l.length)) (st.p + l.length) := by
    simp only [parseLine, hchr, if_neg hnothash, hst₁]
  rw [hturn, hp]

/-- **One turn of the loop on a whole line**: it applies the line's entry, finishes the line's bytes
and leaves the loop exactly at an unsupported value. -/
theorem parseLine_line (lib : CNum F) (hinv : LoopInv st pre (l ++ newline :: t) a)
    (hs : st.stopped = false) (hnl : newline ∉ l) (h0 : 0 ∉ l) :
    LineDone lib (parseLine lib st) pre l t a := by
  by_cases hhash : l.head? = some hash
  · -- a comment stays as it is
    obtain ⟨hcontent, hopts, hp, hgo⟩ := parseLine_comment lib hinv hs hnl h0 hhash
    have hnlcr : newline ≠ cr := by decide
    refine ⟨l ++ [newline], by simp, ?_, ?_⟩
    · rw [lineEntry_comment hhash]
      refine ⟨by simp [hcontent, hinv.content], ?_, fun _ => ⟨?_, by simp [hnlcr]⟩⟩
      · rw [hopts]
        exact hinv.shows.of_prefix (List.prefix_append _ _)
      · rw [hp, (hinv.pos hs).1, List.length_append, List.length_append, List.length_singleton]
        omega
    · rw [lineEntry_comment hhash, hgo]
      simp
  · obtain ⟨st', z, hended, hturn⟩ := parseLine_ended lib hinv hs hnl h0 hhash
    rw [hturn]
    exact parseEntry_line lib hended hhash

end Line

/-! ## The loop -/

section Loop

variable {lib : CNum F} {st : ParseSt F} {pre rest : List UInt8} {a : Opts F (List UInt8)}
  {size : ℕ}

theorem parseLoop_of_stopped (h : st.stopped = true ∨ size ≤ st.p) (n : ℕ) :
    parseLoop lib size n st = st := by
  refine Function.iterate_fixed ?_ n
  rw [parseStep, if_neg]
  rintro ⟨hs, hp⟩
  rcases h with h | h
  · rw [h] at hs
    cases hs
  · omega

theorem parseLoop_add (m n : ℕ) :
    parseLoop lib size (m + n) st = parseLoop lib size n (parseLoop lib size m st) := by
  rw [parseLoop, Nat.add_comm, Function.iterate_add_apply]
  rfl

theorem parseStep_of_running (hs : st.stopped = false) (hp : st.p < size) :
    parseStep lib size st = parseLine lib st := if_pos ⟨hs, hp⟩

theorem parseLoop_of_running (hs : st.stopped = false) (hp : st.p < size) (n : ℕ) :
    parseLoop lib size (n + 1) st = parseLoop lib size n (parseLine lib st) := by
  rw [parseLoop, Function.iterate_succ_apply, parseStep_of_running hs hp]
  rfl

/-- Without another newline in front of the first NUL the loop is left. -/
theorem parseLine_no_line (lib : CNum F) (hinv : LoopInv st pre rest a) (hs : st.stopped = false)
    (h : strchr newline rest = none) :
    LoopInv (parseLine lib st) pre rest a ∧ (parseLine lib st).stopped = true := by
  have hdrop : st.content.drop st.p = rest := by
    rw [hinv.content, (hinv.pos hs).1, List.drop_left]
  simp only [parseLine, hdrop, h, and_true]
  refine ⟨hinv.content, hinv.shows, fun hc => ?_⟩
  cases hc

/-- So the loop changes nothing there. -/
theorem parseLoop_no_line (hinv : LoopInv st pre rest a) (hs : st.stopped = false)
    (h : strchr newline rest = none) (n : ℕ) : LoopInv (parseLoop lib size n st) pre rest a := by
  cases n with
  | zero => exact hinv
  | succ n =>
    by_cases hdone : size ≤ st.p
    · rwa [parseLoop_of_stopped (Or.inr hdone)]
    · obtain ⟨hline, hstop⟩ := parseLine_no_line lib hinv hs h
      rwa [parseLoop_of_running hs (by omega), parseLoop_of_stopped (Or.inl hstop)]

/-- The invariant holds after any number of turns, and what was finished stays as it is. -/
theorem parseLoop_inv (n : ℕ) (hinv : LoopInv st pre rest a) :
    ∃ mid rest' a', LoopInv (parseLoop lib size n st) (pre ++ mid) rest' a' := by
  induction n generalizing st pre rest a with
  | zero => exact ⟨[], rest, a, by rwa [List.append_nil]⟩
  | succ n ih =>
    by_cases hdone : st.stopped = true ∨ size ≤ st.p
    · refine ⟨[], rest, a, ?_⟩
      rwa [parseLoop_of_stopped hdone, List.append_nil]
    · rw [not_or, Bool.not_eq_true, not_le] at hdone
      rw [parseLoop_of_running hdone.1 hdone.2]
      cases hchr : strchr newline rest with
      | none => exact ih (parseLine_no_line lib hinv hdone.1 hchr).1
      | some m =>
        obtain ⟨l, t, rfl, -, hnl, h0⟩ := strchr_eq_some_iff.mp hchr
        obtain ⟨mid, -, hline, -⟩ := parseLine_line lib hinv hdone.1 hnl h0
        obtain ⟨mid', rest', a', h⟩ := ih hline
        exact ⟨mid ++ mid', rest', a', by rwa [← List.append_assoc]⟩

/-- The reference reading of a line and those behind it. -/
theorem applyEntries_line (a : Opts F (List UInt8)) (l : List UInt8) (ls : List (List UInt8)) :
    applyEntries lib a (entries (l :: ls)) =
      if ∃ e ∈ lineEntry l, Unsupported e then
        (lineEntry l).elim a fun e => (setOpt lib e.1 e.2 e.2 a).1
      else applyEntries lib ((lineEntry l).elim a fun e => (setOpt lib e.1 e.2 e.2 a).1)
        (entries ls) := by
  rw [entries, List.filterMap_cons]
  cases lineEntry l with
  | none =>
    rw [if_neg (by rintro ⟨e, he, -⟩; cases he)]
    rfl
  | some e => simp [applyEntries, entries]

/-- **The loop computes the reference reading** of the lines it has in front of it, and is over when
it has had a turn for every byte of them. -/
theorem parseLoop_refines {n : ℕ} (hinv : LoopInv st pre rest a) (hs : st.stopped = false)
    (hn : size ≤ pre.length + n) :
    ((parseLoop lib size n st).stopped = true ∨ size ≤ (parseLoop lib size n st).p) ∧
      ∃ pre' rest', LoopInv (parseLoop lib size n st) pre' rest'
        (applyEntries lib a (entries (bufferLines (size - pre.length) rest))) := by
  induction n generalizing st pre rest a with
  | zero =>
    refine ⟨Or.inr (by rw [(show parseLoop lib size 0 st = st from rfl), (hinv.pos hs).1]; omega),
      pre, rest, ?_⟩
    rwa [show size - pre.length = 0 by omega, bufferLines_zero]
  | succ n ih =>
    have hpos := (hinv.pos hs).1
    by_cases hdone : size ≤ st.p
    · rw [parseLoop_of_stopped (Or.inr hdone)]
      refine ⟨Or.inr hdone, pre, rest, ?_⟩
      rwa [show size - pre.length = 0 by omega,
        bufferLines_zero]
    rw [not_le] at hdone
    rw [parseLoop_of_running hs hdone]
    cases hchr : strchr newline rest with
    | none =>
      obtain ⟨hline, hstop⟩ := parseLine_no_line lib hinv hs hchr
      rw [parseLoop_of_stopped (Or.inl hstop)]
      refine ⟨Or.inl hstop, pre, rest, ?_⟩
      rwa [bufferLines_of_strchr hchr]
    | some m =>
      obtain ⟨l, t, rfl, -, hnl, h0⟩ := strchr_eq_some_iff.mp hchr
      obtain ⟨mid, hmid, hline, hbreak⟩ := parseLine_line lib hinv hs hnl h0
      have hsize : size - pre.length - (l.length + 1) = size - (pre ++ mid).length := by
        rw [List.length_append]
        omega
      have hturns : size ≤ (pre ++ mid).length + n := by
        rw [List.length_append]
        omega
      rw [bufferLines_cons hnl h0 (by omega), hsize, applyEntries_line]
      by_cases hun : ∃ e ∈ lineEntry l, Unsupported e
      · -- the value is assigned and the loop is over
        have hstop := hbreak.mpr hun
        rw [if_pos hun, parseLoop_of_stopped (Or.inl hstop)]
        exact ⟨Or.inl hstop, _, _, hline⟩
      · have hgo : (parseLine lib st).stopped = false := by
          rw [← Bool.not_eq_true, hbreak]
          exact hun
        rw [if_neg hun]
        exact ih hline hgo hturns

end Loop

end MaixSpeech.Config
