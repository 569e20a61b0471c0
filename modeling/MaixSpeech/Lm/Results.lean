import MaixSpeech.Lm.Lines

/-!
# The results of the lines

Reference: `components/utils/src/lm_benchmark.c`.

The decoder hands the words of a line to `test_lvcsrcb`, which copies them into one static buffer,
and the loop writes that buffer out after each line. Nothing clears it in between, so a line without
a callback repeats what an earlier line left there. The invariant of the loop says that the buffer
holds the last words of all calls so far; `lmBenchmark_results_iff` reads off when that is what the
line said.
-/

namespace MaixSpeech.Lm

open Common Config

variable {P : Type*} [Zero P] [One P] {env : LmEnv} {st st' : LmSt P}

/-- The words of the last callback of a list of them, nothing if there is none. -/
def lastWords (calls : List CStr) : List UInt8 := calls.getLast?.elim [] Subtype.val

theorem lastWords_append (xs ys : List CStr) :
    lastWords (xs ++ ys) = if ys = [] then lastWords xs else lastWords ys := by
  unfold lastWords
  rw [List.getLast?_append]
  cases hy : ys.getLast? with
  | none => rw [List.getLast?_eq_none_iff.mp hy, if_pos rfl, Option.none_or]
  | some y =>
    rw [if_neg, Option.some_or]
    rintro rfl
    cases hy

/-- The callbacks of a line leave the last words in the buffer. -/
theorem foldlM_testLvcsrcb {calls : List CStr} {han han' : List UInt8}
    (h : calls.foldlM testLvcsrcb han = some han') :
    cstr han' = if calls = [] then cstr han else lastWords calls := by
  induction calls generalizing han with
  | nil =>
    obtain rfl := Option.some.inj h
    rw [if_pos rfl]
  | cons w calls ih =>
    rw [List.foldlM_cons, Option.bind_eq_bind] at h
    obtain ⟨han₁, h₁, h₂⟩ := Option.bind_eq_some_iff.mp h
    have hw : cstr han₁ = lastWords [w] := (strcpy_spec h₁ w.2).1
    rw [ih h₂, hw, ← lastWords_append, List.singleton_append, if_neg (List.cons_ne_nil w calls)]

/-! ## The loop -/

/-- The calls are those of the decoder, line by line; the buffer holds the last words of all of
them, and so did it at each line that was written. -/
structure LmInv (env : LmEnv) (st : LmSt P) : Prop where
  decoder : ∀ i < st.calls.length, ∃ n,
    st.calls[i]? = some ((List.range n).flatMap (env.callbacks i))
  buffer : cstr st.hanResult = lastWords st.calls.flatten
  count : st.written.length ≤ st.calls.length
  written : ∀ i < st.written.length,
    st.written[i]? = some (lastWords (st.calls.take (i + 1)).flatten)

/-- What a turn does to the results: the calls of the line update the buffer, and the line is
written unless the loop is left. -/
theorem lmTurn_results {p : ℕ} {exit : Bool} (h : lmTurn env p st = some (st', exit)) :
    ∃ n calls, calls = (List.range n).flatMap (env.callbacks st.calls.length) ∧
      calls.foldlM testLvcsrcb st.hanResult = some st'.hanResult ∧
      st'.calls = st.calls ++ [calls] ∧
      st'.written = if exit then st.written else st.written ++ [cstr st'.hanResult] := by
  obtain ⟨⟨mem, next⟩, -, h⟩ := Option.bind_eq_some_iff.mp h
  obtain ⟨r, -, h⟩ := Option.bind_eq_some_iff.mp h
  obtain ⟨han, hhan, h⟩ := Option.map_eq_some_iff.mp h
  split at h
  · obtain ⟨rfl, rfl⟩ := Prod.mk.inj h
    exact ⟨_, _, rfl, hhan, rfl, rfl⟩
  · obtain ⟨rfl, rfl⟩ := Prod.mk.inj h
    exact ⟨_, _, rfl, hhan, rfl, rfl⟩

/-- What holds of the elements of a list and of one behind them holds of all of them. -/
theorem forall_getElem?_concat {α : Type*} {xs : List α} {x : α} {Q : ℕ → Option α → Prop}
    (h : ∀ i < xs.length, Q i xs[i]?) (hx : Q xs.length (some x)) :
    ∀ i < (xs ++ [x]).length, Q i (xs ++ [x])[i]? := by
  intro i hi
  rw [List.length_append, List.length_singleton] at hi
  rcases Nat.lt_succ_iff_lt_or_eq.mp hi with hlt | rfl
  · rw [List.getElem?_append_left hlt]
    exact h i hlt
  · rw [List.getElem?_concat_length]
    exact hx

theorem lmTurn_inv {p : ℕ} {exit : Bool} (hinv : LmInv env st)
    (hcount : st.written.length = st.calls.length) (h : lmTurn env p st = some (st', exit)) :
    LmInv env st' ∧ (exit = false → st'.written.length = st'.calls.length) := by
  obtain ⟨n, calls, hdec, hfold, hcalls, hwritten⟩ := lmTurn_results h
  have hbuffer : cstr st'.hanResult = lastWords st'.calls.flatten := by
    rw [foldlM_testLvcsrcb hfold, hcalls, List.flatten_append, List.flatten_singleton,
      lastWords_append, hinv.buffer]
  have hdecoder : ∀ i < st'.calls.length, ∃ n,
      st'.calls[i]? = some ((List.range n).flatMap (env.callbacks i)) := by
    rw [hcalls]
    apply forall_getElem?_concat (Q := fun i o => ∃ n, o = some ((List.range n).flatMap
      (env.callbacks i))) hinv.decoder
    exact ⟨n, congrArg some hdec⟩
  -- the lines written before look at calls that are still there
  have hold : ∀ i < st.written.length,
      st.written[i]? = some (lastWords (st'.calls.take (i + 1)).flatten) := by
    intro i hi
    rw [hinv.written i hi, hcalls, List.take_append_of_le_length (by omega)]
  cases exit with
  | true =>
    rw [if_pos rfl] at hwritten
    refine ⟨⟨hdecoder, hbuffer, ?_, ?_⟩, fun hf => by cases hf⟩
    · rw [hwritten, hcalls, List.length_append]
      exact Nat.le_add_right_of_le hinv.count
    · rw [hwritten]
      exact hold
  | false =>
    rw [if_neg Bool.false_ne_true] at hwritten
    have hlen : st'.written.length = st'.calls.length := by
      rw [hwritten, hcalls, List.length_append, List.length_append, hcount]
      rfl
    refine ⟨⟨hdecoder, hbuffer, hlen.le, ?_⟩, fun _ => hlen⟩
    rw [hwritten]
    apply forall_getElem?_concat
      (Q := fun i o => o = some (lastWords (st'.calls.take (i + 1)).flatten)) hold
    -- the line written now is the last one
    have htake : st'.calls.take (st.written.length + 1) = st'.calls := by
      apply List.take_of_length_le
      rw [hcalls, List.length_append, List.length_singleton]
      omega
    rw [htake, ← hbuffer]

theorem lmLoop_inv {fuel : ℕ} (hinv : LmInv env st) (hcount : st.written.length = st.calls.length)
    (h : lmLoop env fuel st = some st') : LmInv env st' := by
  induction fuel generalizing st with
  | zero => cases h
  | succ fuel ih =>
    rw [lmLoop] at h
    split at h
    · obtain rfl := Option.some.inj h
      exact hinv
    · obtain ⟨b, -, h⟩ := Option.bind_eq_some_iff.mp h
      split at h
      · obtain rfl := Option.some.inj h
        exact hinv
      · obtain ⟨⟨st₁, exit⟩, hturn, h⟩ := Option.bind_eq_some_iff.mp h
        obtain ⟨hinv₁, hcount₁⟩ := lmTurn_inv hinv hcount hturn
        cases exit with
        | true =>
          obtain rfl := Option.some.inj h
          exact hinv₁
        | false => exact ih hinv₁ (hcount₁ rfl) h

theorem lmBenchmark_inv {list : PnypList P} {mem : List UInt8}
    (h : lmBenchmark env list mem = some st) : LmInv env st := by
  refine lmLoop_inv ⟨fun i hi => ?_, rfl, le_rfl, fun i hi => ?_⟩ rfl h
  · exact absurd hi (Nat.not_lt_zero i)
  · exact absurd hi (Nat.not_lt_zero i)

/-! ## Files of lines that fit -/

/-- Callbacks with words that fit all get through. -/
theorem foldlM_testLvcsrcb_isSome {calls : List CStr} {han : List UInt8}
    (h : ∀ w ∈ calls, w.1.length < han.length) :
    ∃ han', calls.foldlM testLvcsrcb han = some han' ∧ han'.length = han.length := by
  induction calls generalizing han with
  | nil => exact ⟨han, rfl, rfl⟩
  | cons w calls ih =>
    have hw : testLvcsrcb han w = some _ := strcpy_eq_some (h w (by simp))
    have hlen := (strcpy_spec hw w.2).2
    obtain ⟨han', h', hlen'⟩ := ih fun v hv => by rw [hlen]; exact h v (by simp [hv])
    refine ⟨han', ?_, hlen'.trans hlen⟩
    rw [List.foldlM_cons, Option.bind_eq_bind, hw, Option.bind_some]
    exact h'

/-- A test line the tables have room for. -/
structure LineFits (k : ℕ) (line : List UInt8) : Prop where
  noNul : 0 ∉ line
  noNewline : newline ∉ line
  fits : (2 * (line.splitOn space).length / k + 1) * k ≤ hanResultLen

/-- The surroundings in which every line that fits gets through. -/
structure LmEnv.Calm (env : LmEnv) (k : ℕ) : Prop where
  core : env.core = k
  pos : 1 ≤ k
  words : ∀ line chunk, ∀ w ∈ env.callbacks line chunk, w.1.length < hanResultLen
  noExit : ∀ line, env.exitFlag line = false

/-- The text of a file with these lines. -/
def linesText (lines : List (List UInt8)) : List UInt8 := lines.flatMap (· ++ [newline])

/-- The callbacks made for line `i`, chunk by chunk. -/
def lineCalls (env : LmEnv) (k i : ℕ) (line : List UInt8) : List CStr :=
  (List.range (lineChunks k line)).flatMap (env.callbacks i)

/-- One turn, on a line that fits, makes the calls of the line and moves on to the next one. -/
theorem lmTurn_line {k p : ℕ} {l t : List UInt8} {b : UInt8} (henv : env.Calm k) (hl : LineFits k l)
    (hmem : st.mem.drop p = l ++ newline :: b :: t) (hhan : st.hanResult.length = hanResultLen) :
    ∃ st', lmTurn env p st = some (st', false) ∧
      st'.cur = (if b = 0 then none else some (p + l.length + 1)) ∧
      st'.mem.drop (p + l.length + 1) = b :: t ∧ st'.hanResult.length = hanResultLen ∧
      st'.written.length = st.written.length + 1 ∧
      st'.calls = st.calls ++ [lineCalls env k st.calls.length l] := by
  obtain ⟨mem, hget, hmem'⟩ := getPny_line hmem hl.noNul hl.noNewline
  obtain ⟨r, -, hrun, hrest, hchunks, -⟩ :=
    lmLine_spec env.vocab st.list henv.pos hmem' hl.noNul hl.fits
  obtain ⟨calls, hcalls⟩ : ∃ calls, calls =
    (List.range r.frames.length).flatMap (env.callbacks st.calls.length) := ⟨_, rfl⟩
  have hwords : ∀ w ∈ calls, w.1.length < st.hanResult.length := by
    intro w hw
    rw [hcalls] at hw
    obtain ⟨chunk, -, hw⟩ := List.mem_flatMap.mp hw
    rw [hhan]
    exact henv.words _ _ w hw
  obtain ⟨han, hfold, hlen⟩ := foldlM_testLvcsrcb_isSome hwords
  refine ⟨{ mem := r.mem, cur := if b = 0 then none else some (p + l.length + 1), list := r.list
            hanResult := han, written := st.written ++ [cstr han]
            calls := st.calls ++ [calls] }, ?_, rfl, ?_, hlen.trans hhan, by simp, ?_⟩
  · rw [lmTurn, hget, Option.bind_some]
    simp only [henv.core, hrun, Option.bind_some, ← hcalls, hfold, Option.map_some, henv.noExit]
    rfl
  · show r.mem.drop (p + l.length + 1) = b :: t
    rw [← List.drop_drop, hrest, List.drop_one, List.tail_cons]
  · rw [lineCalls, ← hchunks, hcalls]

/-- The text behind a line starts with a NUL only at the end of the file. -/
theorem linesText_head {k : ℕ} {lines : List (List UInt8)} (hlines : ∀ l ∈ lines, LineFits k l)
    (tail : List UInt8) :
    ∃ b t, linesText lines ++ 0 :: tail = b :: t ∧ (b = 0 ↔ lines = []) := by
  cases lines with
  | nil => exact ⟨0, tail, rfl, by simp⟩
  | cons l lines =>
    have h0 := (hlines l (by simp)).noNul
    cases l with
    | nil => exact ⟨newline, _, rfl, by simp [newline]⟩
    | cons b l =>
      have hb : b ≠ 0 := fun h => h0 (by simp [h])
      exact ⟨b, _, rfl, by simp [hb]⟩

theorem lmLoop_lines {k fuel : ℕ} {tail : List UInt8} (henv : env.Calm k)
    {lines : List (List UInt8)} (hlines : ∀ l ∈ lines, LineFits k l) (hfuel : lines.length < fuel)
    (hhan : st.hanResult.length = hanResultLen)
    (hcur : lines = [] ∧ st.cur = none ∨
      ∃ p, st.cur = some p ∧ st.mem.drop p = linesText lines ++ 0 :: tail) :
    ∃ st', lmLoop env fuel st = some st' ∧
      st'.written.length = st.written.length + lines.length ∧
      st'.calls = st.calls ++ lines.mapIdx fun i l => lineCalls env k (st.calls.length + i) l := by
  induction lines generalizing st fuel with
  | nil =>
    obtain ⟨fuel, rfl⟩ : ∃ n, fuel = n + 1 := ⟨fuel - 1, by omega⟩
    refine ⟨st, ?_, rfl, (List.append_nil _).symm⟩
    rcases hcur with ⟨-, hnone⟩ | ⟨p, hp, hmem⟩
    · rw [lmLoop, hnone]
    · have hnul : st.mem[p]? = some 0 := by
        rw [← Nat.add_zero p, ← List.getElem?_drop, hmem]
        rfl
      rw [lmLoop, hp]
      simp only [hnul, Option.bind_some, if_true]
  | cons l lines ih =>
    obtain ⟨fuel, rfl⟩ : ∃ n, fuel = n + 1 := ⟨fuel - 1, by omega⟩
    rcases hcur with ⟨hnil, -⟩ | ⟨p, hp, hmem⟩
    · cases hnil
    have hl := hlines l (by simp)
    have hlines' : ∀ l ∈ lines, LineFits k l := fun l hl => hlines l (by simp [hl])
    obtain ⟨b, t, htext, hb⟩ := linesText_head hlines' tail
    have hmem' : st.mem.drop p = l ++ newline :: b :: t := by
      rw [hmem, ← htext]
      simp [linesText]
    obtain ⟨st₁, hturn, hcur₁, hmem₁, hhan₁, hwritten₁, hcalls₁⟩ := lmTurn_line henv hl hmem' hhan
    have hnext : lines = [] ∧ st₁.cur = none ∨
        ∃ q, st₁.cur = some q ∧ st₁.mem.drop q = linesText lines ++ 0 :: tail := by
      by_cases hb0 : b = 0
      · exact Or.inl ⟨hb.mp hb0, by rw [hcur₁, if_pos hb0]⟩
      · exact Or.inr ⟨_, by rw [hcur₁, if_neg hb0], by rw [hmem₁, htext]⟩
    obtain ⟨st₂, hloop, hwritten₂, hcalls₂⟩ := ih hlines' (by simpa using hfuel) hhan₁ hnext
    refine ⟨st₂, ?_, ?_, ?_⟩
    · have hhead : ∃ c, st.mem[p]? = some c ∧ c ≠ 0 := by
        obtain ⟨c, t', htext', hc⟩ := linesText_head hlines tail
        refine ⟨c, ?_, fun h => by cases hc.mp h⟩
        rw [← Nat.add_zero p, ← List.getElem?_drop, hmem, htext']
        rfl
      obtain ⟨c, hc, hc0⟩ := hhead
      rw [lmLoop, hp]
      simp only [hc, Option.bind_some, if_neg hc0, hturn]
      exact hloop
    · rw [hwritten₂, hwritten₁, List.length_cons]
      omega
    · have hnumber : ∀ i, st.calls.length + 1 + i = st.calls.length + (i + 1) := fun i => by omega
      rw [hcalls₂, hcalls₁, List.mapIdx_cons, List.length_append, List.length_singleton,
        List.append_assoc, List.singleton_append]
      simp only [hnumber, Nat.add_zero]

theorem length_le_linesText (lines : List (List UInt8)) :
    lines.length ≤ (linesText lines).length := by
  induction lines with
  | nil => exact Nat.le_refl 0
  | cons l lines ih =>
    simp only [linesText, List.flatMap_cons, List.length_append, List.length_cons] at ih ⊢
    omega

/-- **A file of lines that fit is worked through**: with a NUL behind the last line, every line gets
its line in the result file, and the calls are those of the lines in order. -/
theorem lmBenchmark_lines {k : ℕ} (henv : env.Calm k) {lines : List (List UInt8)}
    (hlines : ∀ l ∈ lines, LineFits k l) (list : PnypList P) (tail : List UInt8) :
    ∃ st, lmBenchmark env list (linesText lines ++ 0 :: tail) = some st ∧
      st.written.length = lines.length ∧ st.calls = lines.mapIdx (lineCalls env k) := by
  have hfuel : lines.length < (linesText lines ++ 0 :: tail).length + 1 := by
    have hlen := length_le_linesText lines
    rw [List.length_append]
    omega
  have hhan : (lmStart list (linesText lines ++ 0 :: tail)).hanResult.length = hanResultLen :=
    List.length_replicate
  obtain ⟨st, hrun, hwritten, hcalls⟩ := lmLoop_lines henv hlines hfuel hhan (Or.inr ⟨0, rfl, rfl⟩)
  refine ⟨st, hrun, ?_, ?_⟩
  · rw [hwritten]
    exact Nat.zero_add _
  · rw [hcalls]
    simp only [lmStart, List.length_nil, Nat.zero_add, List.nil_append]

/-! ## The results -/

/-- The results of the lines are not mixed: line `i` of the result file is the last words of the
calls the decoder made for line `i`. -/
def ResultsUnmixed (st : LmSt P) : Prop :=
  ∀ i < st.written.length, st.written[i]? = some (lastWords (st.calls.getD i []))

/-- Each line has a callback, or the last words before it, if there are any, are empty. -/
def NoSilentLine (st : LmSt P) : Prop :=
  ∀ i < st.written.length, st.calls.getD i [] ≠ [] ∨ lastWords (st.calls.take i).flatten = []

/-- **Lines are not mixed exactly when no line is silent behind words.** In every run that gets through,
the calls recorded for a line are those of the decoder for that line; and a file of lines that fit is
worked through to its end. -/
theorem lmBenchmark_results_iff (env : LmEnv) (list : PnypList P) (mem : List UInt8) :
    (∀ st, lmBenchmark env list mem = some st →
      (∀ i < st.calls.length, ∃ n,
        st.calls[i]? = some ((List.range n).flatMap (env.callbacks i))) ∧
      (ResultsUnmixed st ↔ NoSilentLine st)) ∧
    ∀ k lines tail, env.Calm k → (∀ l ∈ lines, LineFits k l) →
      mem = linesText lines ++ 0 :: tail →
      ∃ st, lmBenchmark env list mem = some st ∧ st.written.length = lines.length ∧
        st.calls = lines.mapIdx (lineCalls env k) := by
  refine ⟨fun st h => ?_, ?_⟩
  · have hinv := lmBenchmark_inv h
    refine ⟨hinv.decoder, forall₂_congr fun i hi => ?_⟩
    have hcalls : i < st.calls.length := hi.trans_le hinv.count
    rw [hinv.written i hi, List.take_add_one, List.getD_eq_getElem _ _ hcalls,
      List.getElem?_eq_getElem hcalls, Option.toList_some, List.flatten_append,
      List.flatten_singleton, lastWords_append, Option.some.injEq]
    by_cases hnone : st.calls[i] = []
    · rw [if_pos hnone, hnone]
      simp [lastWords]
    · rw [if_neg hnone]
      simp [hnone]
  · rintro k lines tail henv hlines rfl
    exact lmBenchmark_lines henv hlines list tail

/-- A decoder that reports words for the first line only. -/
def firstLineOnly : LmEnv where
  vocab := unaryVocab
  core := 1
  callbacks line chunk := if line = 0 ∧ chunk = 0 then [⟨bytes "ni hao", by decide⟩] else []
  exitFlag _ := false

/-- The run on two lines: the second line repeats the words of the first. -/
theorem lmBenchmark_firstLineOnly : ∃ st, lmBenchmark firstLineOnly
    (fun _ => ⟨0, 0⟩ : PnypList ℚ) (bytes "a\nb\n" ++ [0]) = some st ∧
    st.written = [bytes "ni hao", bytes "ni hao"] ∧
    st.calls = [[⟨bytes "ni hao", by decide⟩], []] := by
  have hrun : (lmBenchmark firstLineOnly (fun _ => ⟨0, 0⟩ : PnypList ℚ) (bytes "a\nb\n" ++ [0])).map
      (fun st => (st.written, st.calls)) =
      some ([bytes "ni hao", bytes "ni hao"], [[⟨bytes "ni hao", by decide⟩], []]) := by
    decide +kernel
  obtain ⟨st, hst, heq⟩ := Option.map_eq_some_iff.mp hrun
  obtain ⟨hwritten, hcalls⟩ := Prod.mk.inj heq
  exact ⟨st, hst, hwritten, hcalls⟩

theorem lmBenchmark_results_iff_firstLineOnly : ∃ st, lmBenchmark firstLineOnly
    (fun _ => ⟨0, 0⟩ : PnypList ℚ) (linesText [bytes "a", bytes "b"] ++ [0]) = some st ∧
    st.written.length = 2 ∧ (ResultsUnmixed st ↔ NoSilentLine st) := by
  have hcalm : firstLineOnly.Calm 1 := by
    refine ⟨rfl, le_rfl, fun line chunk w hw => ?_, fun _ => rfl⟩
    simp only [firstLineOnly] at hw
    split_ifs at hw
    · rw [List.mem_singleton.mp hw]
      decide
    · cases hw
  have hfits : ∀ l ∈ [bytes "a", bytes "b"], LineFits 1 l := by
    intro l hl
    rcases List.mem_pair.mp hl with rfl | rfl
    · exact ⟨by decide, by decide, by decide⟩
    · exact ⟨by decide, by decide, by decide⟩
  obtain ⟨hresults, hlines⟩ := lmBenchmark_results_iff firstLineOnly
    (fun _ => ⟨0, 0⟩ : PnypList ℚ) (linesText [bytes "a", bytes "b"] ++ [0])
  obtain ⟨st, hst, hwritten, -⟩ := hlines 1 [bytes "a", bytes "b"] [] hcalm hfits rfl
  exact ⟨st, hst, hwritten, (hresults st hst).2⟩

theorem lmBenchmark_mixes_firstLineOnly : ∃ st, lmBenchmark firstLineOnly
    (fun _ => ⟨0, 0⟩ : PnypList ℚ) (bytes "a\nb\n" ++ [0]) = some st ∧ ¬ ResultsUnmixed st := by
  obtain ⟨st, hst, hwritten, hcalls⟩ := lmBenchmark_firstLineOnly
  refine ⟨st, hst, fun h => ?_⟩
  have hsecond := h 1 (by rw [hwritten]; decide)
  rw [hwritten, hcalls] at hsecond
  exact absurd hsecond (by decide)

end MaixSpeech.Lm
