import MaixSpeech.Lm.Frames

/-!
# The lines of the test file

Reference: `components/utils/src/lm_benchmark.c`.

`lm_benchmark` walks through the file with `get_pny`, which ends a line in place and looks at the
byte behind its newline to see whether another line follows. The end of the text is expected to be a
NUL. With one, all lines are handed out in order (`lineLoop_text`). But the buffer that
`open_test_file` returns has the size of the file and ends with its last byte, so the walk reads
behind it whatever the file is (`lineLoop_overruns`).
-/

namespace MaixSpeech.Lm

open Common Config

variable {mem l t : List UInt8} {p : ℕ}

/-! ## `get_pny` -/

theorem findIdx?_line {c : UInt8} (h0 : 0 ∉ l) (hnl : newline ∉ l) (hc : c = 0 ∨ c = newline) :
    ((l ++ c :: t).findIdx? fun b => b = 0 ∨ b = newline) = some l.length := by
  have hnone : (l.findIdx? fun b => b = 0 ∨ b = newline) = none := by
    rw [List.findIdx?_eq_none_iff]
    intro a ha
    have ha0 : a ≠ 0 := fun h => h0 (h ▸ ha)
    have hanl : a ≠ newline := fun h => hnl (h ▸ ha)
    simp [ha0, hanl]
  rw [List.findIdx?_append, hnone, List.findIdx?_cons]
  simp [hc]

theorem getElem?_of_drop {c : UInt8} (hmem : mem.drop p = l ++ c :: t) :
    mem[p + l.length]? = some c ∧ mem[p + l.length + 1]? = t[0]? := by
  rw [Nat.add_assoc, ← List.getElem?_drop, ← List.getElem?_drop, hmem,
    List.getElem?_append_right le_rfl, List.getElem?_append_right (Nat.le_add_right _ _)]
  simp

/-- `get_pny` on a line with a newline behind it. -/
theorem getPny_line {b : UInt8} (hmem : mem.drop p = l ++ newline :: b :: t) (h0 : 0 ∉ l)
    (hnl : newline ∉ l) :
    ∃ mem', getPny mem p = some (mem', if b = 0 then none else some (p + l.length + 1)) ∧
      mem'.drop p = l ++ 0 :: b :: t := by
  have hfind := findIdx?_line (t := b :: t) h0 hnl (.inr rfl)
  have hget := getElem?_of_drop hmem
  have hp : (mem.take p).length = p := length_take_of_drop (by simp [hmem])
  refine ⟨mem.set (p + l.length) 0, ?_, ?_⟩
  · rw [getPny, hmem, hfind, Option.bind_some, if_pos hget.1, hget.2]
    rfl
  · have hsplit : mem = mem.take p ++ l ++ newline :: b :: t := by
      rw [List.append_assoc, ← hmem, List.take_append_drop]
    have hset : mem.set (p + l.length) 0 = mem.take p ++ (l ++ 0 :: b :: t) := by
      conv_lhs => rw [hsplit, ← hp, ← List.length_append]
      rw [hp, set_length_append, List.append_assoc]
    rw [hset]
    nth_rewrite 1 [← hp]
    exact List.drop_left

/-- `get_pny` on the last line, with the NUL behind it. -/
theorem getPny_last (hmem : mem.drop p = l ++ 0 :: t) (h0 : 0 ∉ l) (hnl : newline ∉ l) :
    getPny mem p = some (mem, none) := by
  have hget := (getElem?_of_drop hmem).1
  rw [getPny, hmem, findIdx?_line h0 hnl (.inl rfl), Option.bind_some, if_neg (by rw [hget]; decide)]

/-- Behind the last newline `get_pny` looks for another line. -/
theorem getPny_newline (hmem : mem.drop p = l ++ [newline]) (h0 : 0 ∉ l) (hnl : newline ∉ l) :
    getPny mem p = none := by
  obtain ⟨hget, hnext⟩ := getElem?_of_drop hmem
  rw [getPny, hmem, findIdx?_line h0 hnl (.inr rfl), Option.bind_some, if_pos hget, hnext]
  rfl

/-- Behind a last line with no newline it looks for the end. -/
theorem getPny_end (h0 : 0 ∉ mem.drop p) (hnl : newline ∉ mem.drop p) : getPny mem p = none := by
  have hnone : ((mem.drop p).findIdx? fun b => b = 0 ∨ b = newline) = none := by
    rw [List.findIdx?_eq_none_iff]
    intro a ha
    have ha0 : a ≠ 0 := fun h => h0 (h ▸ ha)
    have hanl : a ≠ newline := fun h => hnl (h ▸ ha)
    simp [ha0, hanl]
  rw [getPny, hnone, Option.bind_none]

/-! ## The walk -/

/-- The walk through the lines: the strings that are handed to `gen_mat_from_pny`, which leaves the
memory to the next turn with the spaces of the line replaced. It is `lmLoop` without the tables. -/
def lineLoop : ℕ → List UInt8 → Option ℕ → Option (List (List UInt8))
  | 0, _, _ => none
  | _ + 1, _, none => some []
  | fuel + 1, mem, some p =>
    mem[p]?.bind fun b =>
      if b = 0 then some []
      else (getPny mem p).bind fun (mem, next) =>
        (splitPnys p (mem.drop p)).bind fun (rest, _) =>
          (lineLoop fuel (mem.take p ++ rest) next).map (cstr (mem.drop p) :: ·)

/-- The lines of a text: what stands between the newlines, without an empty rest behind the last. -/
def testLines (text : List UInt8) : List (List UInt8) :=
  if (text.splitOn newline).getLast? = some [] then (text.splitOn newline).dropLast
  else text.splitOn newline

/-- The walk through a buffer with these bytes hands out every line once and in order, reads nothing
outside the buffer, and stops. -/
def LinesCovered (content : List UInt8) : Prop :=
  ∃ fuel, lineLoop fuel content (some 0) = some (testLines content)

theorem testLines_nil : testLines [] = [] := rfl

theorem testLines_line (hnl : newline ∉ l) (hl : l ≠ []) : testLines l = [l] := by
  rw [testLines, List.splitOn_eq_singleton hnl, List.getLast?_singleton, if_neg]
  rw [Option.some.injEq]
  exact hl

theorem testLines_cons (hnl : newline ∉ l) : testLines (l ++ newline :: t) = l :: testLines t := by
  obtain ⟨piece, pieces, ht⟩ := List.exists_cons_of_ne_nil (List.splitOn_ne_nil newline t)
  rw [testLines, testLines, List.splitOn_append_cons_self_of_not_mem hnl, ht,
    List.getLast?_cons_cons]
  split <;> rfl

/-- A text is a last line, or a line with a newline and more text behind it. -/
theorem line_cases (text : List UInt8) :
    newline ∉ text ∨ ∃ l t, text = l ++ newline :: t ∧ newline ∉ l := by
  by_cases h : newline ∈ text
  · obtain ⟨l, t, htext, hnl⟩ := List.eq_append_cons_of_mem h
    exact .inr ⟨l, t, htext, hnl⟩
  · exact .inl h

/-- The first byte of a line with its end is no NUL. -/
theorem head_ne_nul {c : UInt8} (hmem : mem.drop p = l ++ c :: t) (h0 : 0 ∉ l) (hc : c ≠ 0) :
    ∃ b, mem[p]? = some b ∧ b ≠ 0 := by
  have hget : mem[p]? = (l ++ c :: t)[0]? := by rw [← hmem, List.getElem?_drop, Nat.add_zero]
  cases l with
  | nil => exact ⟨c, hget, hc⟩
  | cons b l => exact ⟨b, hget, fun hb => h0 (hb ▸ List.mem_cons_self)⟩

/-- One turn hands out a line with a newline behind it, and leaves the bytes behind it as they
are. -/
theorem lineLoop_line {b : UInt8} (fuel : ℕ) (hmem : mem.drop p = l ++ newline :: b :: t)
    (h0 : 0 ∉ l) (hnl : newline ∉ l) :
    ∃ mem', mem'.drop (p + l.length + 1) = b :: t ∧
      lineLoop (fuel + 1) mem (some p) =
        (lineLoop fuel mem' (if b = 0 then none else some (p + l.length + 1))).map (l :: ·) := by
  obtain ⟨mem₁, hget, hmem₁⟩ := getPny_line hmem h0 hnl
  obtain ⟨l', ps, hsplit, hlen, -⟩ := splitPnys_line h0 (b :: t) p
  obtain ⟨c, hc, hc0⟩ := head_ne_nul hmem h0 (by decide)
  have hp : (mem₁.take p).length = p := length_take_of_drop (by simp [hmem₁])
  refine ⟨mem₁.take p ++ (l' ++ 0 :: b :: t), ?_, ?_⟩
  · have happ : mem₁.take p ++ (l' ++ 0 :: b :: t) = (mem₁.take p ++ l' ++ [0]) ++ b :: t := by
      simp
    rw [happ]
    apply List.drop_left'
    simp only [List.length_append, hp, hlen, List.length_singleton]
  · rw [lineLoop, hc, Option.bind_some, if_neg hc0, hget, Option.bind_some]
    simp only [hmem₁, hsplit, Option.bind_some, cstr_append_nul h0]

/-- The last line, with a NUL behind it, is handed out, and the walk ends. -/
theorem lineLoop_last (fuel : ℕ) (hmem : mem.drop p = l ++ 0 :: t) (h0 : 0 ∉ l)
    (hnl : newline ∉ l) (hl : l ≠ []) : lineLoop (fuel + 2) mem (some p) = some [l] := by
  obtain ⟨l', ps, hsplit, -⟩ := splitPnys_line h0 t p
  obtain ⟨b, l₁, rfl⟩ := List.exists_cons_of_ne_nil hl
  obtain ⟨hb, -⟩ := getElem?_of_drop (l := []) hmem
  have hb0 : b ≠ 0 := fun h => h0 (h ▸ List.mem_cons_self)
  rw [List.length_nil, Nat.add_zero] at hb
  rw [lineLoop, hb, Option.bind_some, if_neg hb0, getPny_last hmem h0 hnl, Option.bind_some]
  simp only [hmem, hsplit, Option.bind_some, cstr_append_nul h0, lineLoop, Option.map_some]

/-- With a NUL behind the text the walk hands out its lines. -/
theorem lineLoop_text {text tail : List UInt8} {fuel : ℕ} (hmem : mem.drop p = text ++ 0 :: tail)
    (h0 : 0 ∉ text) (hfuel : text.length < fuel) :
    lineLoop fuel mem (some p) = some (testLines text) := by
  induction fuel generalizing mem p text with
  | zero => exact absurd hfuel (Nat.not_lt_zero _)
  | succ fuel ih =>
    rcases line_cases text with hlast | ⟨l, t, rfl, hnl⟩
    · by_cases hempty : text = []
      · subst hempty
        obtain ⟨hb, -⟩ := getElem?_of_drop (l := []) hmem
        rw [List.length_nil, Nat.add_zero] at hb
        rw [lineLoop, hb, Option.bind_some, if_pos rfl, testLines_nil]
      · obtain ⟨n, rfl⟩ : ∃ n, fuel = n + 1 := by
          have hpos := List.length_pos_iff.mpr hempty
          exact ⟨fuel - 1, by omega⟩
        rw [lineLoop_last n hmem h0 hlast hempty, testLines_line hlast hempty]
    · rw [List.mem_append, List.mem_cons, not_or, not_or] at h0
      obtain ⟨h0l, -, h0t⟩ := h0
      rw [List.length_append, List.length_cons] at hfuel
      rw [List.append_assoc, List.cons_append] at hmem
      rw [testLines_cons hnl]
      cases t with
      | nil =>
        obtain ⟨mem', -, hturn⟩ := lineLoop_line fuel hmem h0l hnl
        obtain ⟨n, rfl⟩ : ∃ n, fuel = n + 1 := ⟨fuel - 1, by omega⟩
        rw [hturn, if_pos rfl, lineLoop, Option.map_some, testLines_nil]
      | cons b t =>
        obtain ⟨mem', hrest, hturn⟩ := lineLoop_line fuel hmem h0l hnl
        have hb : b ≠ 0 := fun h => h0t (h ▸ List.mem_cons_self)
        rw [hturn, if_neg hb, ih hrest h0t (by omega), Option.map_some]

/-- **With one NUL behind the buffer the walk would be right**: whatever the file, with or without a
newline at its end, it hands out the file's lines and stops. -/
theorem lineLoop_terminated (content tail : List UInt8) (h0 : 0 ∉ content) :
    lineLoop (content.length + 1) (content ++ 0 :: tail) (some 0) = some (testLines content) :=
  lineLoop_text rfl h0 (Nat.lt_succ_self _)

/-! ## Behind the buffer -/

theorem lineLoop_eq_none {fuel : ℕ} (h0 : 0 ∉ mem.drop p) (h : getPny mem p = none) :
    lineLoop (fuel + 1) mem (some p) = none := by
  rw [lineLoop, h, Option.bind_eq_none_iff]
  intro b hb
  have hb0 : b ≠ 0 := by
    rintro rfl
    apply h0
    rw [← Nat.add_zero p, ← List.getElem?_drop] at hb
    exact List.mem_of_getElem? hb
  rw [if_neg hb0]
  rfl

/-- A walk through bytes without a NUL reads behind them. -/
theorem lineLoop_overruns {fuel : ℕ} (h0 : 0 ∉ mem.drop p) :
    lineLoop fuel mem (some p) = none := by
  induction fuel generalizing mem p with
  | zero => rfl
  | succ fuel ih =>
    rcases line_cases (mem.drop p) with hlast | ⟨l, t, hmem, hnl⟩
    · exact lineLoop_eq_none h0 (getPny_end h0 hlast)
    · have h0' := h0
      rw [hmem, List.mem_append, List.mem_cons, not_or, not_or] at h0'
      obtain ⟨h0l, -, h0t⟩ := h0'
      cases t with
      | nil => exact lineLoop_eq_none h0 (getPny_newline hmem h0l hnl)
      | cons b t =>
        obtain ⟨mem', hrest, hturn⟩ := lineLoop_line fuel hmem h0l hnl
        have hb : b ≠ 0 := fun h => h0t (h ▸ List.mem_cons_self)
        rw [hturn, if_neg hb, ih (by rwa [hrest]), Option.map_none]

/-- **No file's lines are covered.** The buffer ends with the last byte of the file, so the walk
reads behind it, with or without a newline at the end. -/
theorem not_linesCovered (content : List UInt8) (h0 : 0 ∉ content) : ¬ LinesCovered content := by
  rintro ⟨fuel, hwalk⟩
  have hnone : lineLoop fuel content (some 0) = none := lineLoop_overruns h0
  rw [hnone] at hwalk
  cases hwalk

theorem not_linesCovered_text : ¬ LinesCovered (bytes "ni hao\n\nma\n") :=
  not_linesCovered _ (by decide)

/-- A file of two lines: behind the last newline `get_pny` looks for a third. -/
theorem lineLoop_overruns_twoLines :
    ¬ ∀ content : List UInt8, 0 ∉ content → LinesCovered content := by
  intro h
  obtain ⟨fuel, hwalk⟩ := h (bytes "a\nb\n") (by decide)
  have hnone : lineLoop fuel (bytes "a\nb\n") (some 0) = none := lineLoop_overruns (by decide)
  rw [hnone] at hwalk
  cases hwalk

/-! ## The whole loop -/

section Loop

variable {P : Type*} [Zero P] [One P] {env : LmEnv} {st st' : LmSt P}

/-- A turn that gets through makes a turn of the walk. -/
theorem lmTurn_walk {exit : Bool} (hexit : ∀ i, env.exitFlag i = false)
    (h : lmTurn env p st = some (st', exit)) :
    exit = false ∧ st'.calls.length = st.calls.length + 1 ∧
      ∃ mem next rest ps, getPny st.mem p = some (mem, next) ∧
        splitPnys p (mem.drop p) = some (rest, ps) ∧ st'.mem = mem.take p ++ rest ∧
        st'.cur = next := by
  obtain ⟨⟨mem, next⟩, hget, h₁⟩ := Option.bind_eq_some_iff.mp h
  obtain ⟨r, hline, h₂⟩ := Option.bind_eq_some_iff.mp h₁
  obtain ⟨han, -, hst⟩ := Option.map_eq_some_iff.mp h₂
  simp only [hexit, Bool.false_eq_true, if_false, Prod.mk.injEq] at hst
  obtain ⟨rfl, rfl⟩ := hst
  -- the memory that the line leaves is the tokenizer's
  obtain ⟨⟨mem', list', cnt⟩, hgen, hrun⟩ := Option.bind_eq_some_iff.mp hline
  obtain ⟨⟨rest, ps⟩, hsplit, hfill⟩ := Option.bind_eq_some_iff.mp hgen
  have hmem : mem' = mem.take p ++ rest := by
    simp only at hfill
    split_ifs at hfill
    obtain ⟨list, -, heq⟩ := Option.map_eq_some_iff.mp hfill
    exact (congrArg Prod.fst heq).symm
  have hr : r.mem = mem' := by
    simp only [Option.bind_eq_some_iff, Option.map_eq_some_iff] at hrun
    obtain ⟨_, -, _, -, _, -, _, -, _, -, rfl⟩ := hrun
    rfl
  exact ⟨rfl, List.length_append, mem, next, rest, ps, hget, hsplit, hr.trans hmem, rfl⟩

/-- A run of the loop that gets through walks through the lines, one call of the decoder's for
each. -/
theorem lmLoop_walk {fuel : ℕ} (hexit : ∀ i, env.exitFlag i = false)
    (h : lmLoop env fuel st = some st') :
    ∃ lines, lineLoop fuel st.mem st.cur = some lines ∧
      st'.calls.length = st.calls.length + lines.length := by
  induction fuel generalizing st with
  | zero => cases h
  | succ fuel ih =>
    rw [lmLoop] at h
    cases hcur : st.cur with
    | none =>
      rw [hcur] at h
      obtain rfl := Option.some.inj h
      exact ⟨[], rfl, rfl⟩
    | some p =>
      rw [hcur] at h
      obtain ⟨b, hb, h₁⟩ := Option.bind_eq_some_iff.mp h
      by_cases hb0 : b = 0
      · rw [if_pos hb0] at h₁
        obtain rfl := Option.some.inj h₁
        refine ⟨[], ?_, rfl⟩
        rw [lineLoop, hb, Option.bind_some, if_pos hb0]
      · rw [if_neg hb0] at h₁
        obtain ⟨⟨st₁, exit⟩, hturn, hrest⟩ := Option.bind_eq_some_iff.mp h₁
        obtain ⟨rfl, hcalls, mem, next, rest, ps, hget, hsplit, hmem, hnext⟩ :=
          lmTurn_walk hexit hturn
        obtain ⟨lines, hlines, hlen⟩ := ih hrest
        rw [hmem, hnext] at hlines
        refine ⟨cstr (mem.drop p) :: lines, ?_, ?_⟩
        · rw [lineLoop, hb, Option.bind_some, if_neg hb0, hget, Option.bind_some]
          simp only [hsplit, Option.bind_some, hlines, Option.map_some]
        · rw [hlen, hcalls, List.length_cons]
          omega

/-- Whatever the decoder does, `lm_benchmark` reads behind the buffer of every file, unless an exit
is requested before. -/
theorem lmBenchmark_overruns (hexit : ∀ i, env.exitFlag i = false) (list : PnypList P)
    {content : List UInt8} (h0 : 0 ∉ content) : lmBenchmark env list content = none := by
  cases h : lmBenchmark env list content with
  | none => rfl
  | some st =>
    obtain ⟨lines, hwalk, -⟩ := lmLoop_walk hexit h
    have hnone : lineLoop (content.length + 1) content (some 0) = none := lineLoop_overruns h0
    rw [lmStart, hnone] at hwalk
    cases hwalk

end Loop

end MaixSpeech.Lm
