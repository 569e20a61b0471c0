import MaixSpeech.Lm.Framing
import Mathlib.Data.List.Forall2
import Mathlib.Data.List.GetD

/-!
# The frames of a line

Reference: `components/utils/src/lm_benchmark.c`.

`lineRows` says what the decoder is to be given for a line: for each token its number and a blank,
then the padding. `lmLine_frames` shows that the frames, read one after the other, are the beams of
these rows, whatever the matrix held before: every row the chunk loop reads has been filled by the
token loop or the padding loop for this line (`HasRow`).
-/

namespace MaixSpeech.Lm

open Common Config

variable {P : Type*} [Zero P] [One P]

/-! ## What the frames are to hold -/

/-- The number of a syllable in `am_vocab`, the blank when it is not there. -/
def Vocab.indexOf (v : Vocab) (pny : List UInt8) : ℕ :=
  ((List.finRange 1250).find? fun j => (v.word j).1 = pny).elim blank Fin.val

/-- The rows of a line with these tokens and `rest` rows of padding. -/
def lineRows (v : Vocab) (tokens : List (List UInt8)) (rest : ℕ) : List ℕ :=
  (tokens.flatMap fun t => [v.indexOf t, blank]) ++ List.replicate rest blank

/-- Entry `j` of the beam with `idx` in front. -/
def rowEntry (idx j : ℕ) : Pnyp P := if j = 0 then ⟨idx, 1⟩ else ⟨j, 0⟩

/-- The beam with `idx` in front. -/
def beamRow (idx : ℕ) : List (Pnyp P) := (List.range beamCnt).map (rowEntry idx)

/-! ## The vocabulary -/

theorem foldl_last_match (v : Vocab) (pny : List UInt8) (js : List (Fin 1250)) (init : ℤ) :
    js.foldl (fun pnyi j => if (v.word j).1 = pny then (j : ℤ) else pnyi) init =
      (js.find? fun j => (v.word j).1 = pny).elim init fun j => (j : ℤ) := by
  induction js generalizing init with
  | nil => rfl
  | cons j js ih =>
    rw [List.foldl_cons, ih]
    by_cases hj : (v.word j).1 = pny
    · rw [if_pos hj, List.find?_cons_of_pos (by simpa using hj)]
      -- a second match would be the same word
      cases hf : js.find? fun j => (v.word j).1 = pny with
      | none => rfl
      | some j' =>
        have hj' : (v.word j').1 = pny := by simpa using List.find?_some hf
        rw [v.injective (Subtype.ext (hj'.trans hj.symm))]
        rfl
    · rw [if_neg hj, List.find?_cons_of_neg (by simpa using hj)]

/-- The search finds the number of the syllable. -/
theorem Vocab.find_eq_indexOf (v : Vocab) (pny : List UInt8) : v.find pny = v.indexOf pny := by
  unfold Vocab.find Vocab.indexOf
  rw [foldl_last_match]
  cases (List.finRange 1250).find? fun j => (v.word j).1 = pny with
  | none => rfl
  | some j =>
    have hne : ((j : ℕ) : ℤ) ≠ -1 := by omega
    simp [hne]

/-! ## The tokens -/

/-- The tokenizer finds the pieces of the line, ends each with a NUL and touches nothing else. -/
theorem splitPnys_line {line : List UInt8} (h0 : 0 ∉ line) (t : List UInt8) (p : ℕ) :
    ∃ line' ps, splitPnys p (line ++ 0 :: t) = some (line' ++ 0 :: t, ps) ∧
      line'.length = line.length ∧
      ∀ pre : List UInt8, pre.length = p →
        List.Forall₂ (HoldsStr (pre ++ (line' ++ 0 :: t))) (p :: ps) (line.splitOn space) := by
  induction line generalizing p with
  | nil =>
    refine ⟨[], [], rfl, rfl, fun pre hpre => ?_⟩
    rw [List.splitOn_nil, ← hpre]
    exact .cons (holdsStr_append pre List.not_mem_nil t) .nil
  | cons b line ih =>
    obtain ⟨line', ps, hsplit, hlen, hps⟩ := ih (fun h => h0 (by simp [h])) (p + 1)
    have hb : b ≠ 0 := fun h => h0 (by simp [h])
    rw [List.cons_append, splitPnys, if_neg hb, hsplit, Option.map_some]
    by_cases hsp : b = space
    · -- the token in front of the space ends here
      refine ⟨0 :: line', (p + 1) :: ps, by simp only [if_pos hsp, List.cons_append],
        by simp [hlen], fun pre hpre => ?_⟩
      have htail := hps (pre ++ [0]) (by simp [hpre])
      rw [List.append_assoc, List.singleton_append, ← List.cons_append] at htail
      have hhead : HoldsStr (pre ++ ([] ++ 0 :: (line' ++ 0 :: t))) pre.length [] :=
        holdsStr_append pre List.not_mem_nil _
      rw [hpre, List.nil_append, ← List.cons_append] at hhead
      rw [hsp, List.splitOn, List.splitOnP_cons_eq_if_modifyHead, if_pos (by simp)]
      exact .cons hhead htail
    · -- the byte belongs to the first token of the rest
      refine ⟨b :: line', ps, by simp only [if_neg hsp, List.cons_append], by simp [hlen],
        fun pre hpre => ?_⟩
      have htail := hps (pre ++ [b]) (by simp [hpre])
      rw [List.append_assoc, List.singleton_append, ← List.cons_append, List.splitOn] at htail
      rw [List.splitOn, List.splitOnP_cons_eq_if_modifyHead, if_neg (by simpa using hsp)]
      generalize line.splitOnP (· == space) = toks at htail ⊢
      cases htail with
      | cons hhead htail =>
        refine .cons ⟨by simp [hhead.1, Ne.symm hb], ?_⟩ htail
        have hdrop : (pre ++ (b :: line' ++ 0 :: t)).drop p =
            b :: (pre ++ (b :: line' ++ 0 :: t)).drop (p + 1) := by
          rw [← hpre, List.drop_left, ← List.drop_drop, List.drop_left, List.drop_one]
          rfl
        rw [hdrop]
        exact List.cons_prefix_cons.mpr ⟨rfl, hhead.2⟩

/-! ## The rows of the matrix -/

/-- Row `r` of the matrix is the beam with `idx` in front. -/
def HasRow (list : PnypList P) (r idx : ℕ) : Prop :=
  ∀ j < beamCnt, list.load (r * beamCnt + j : ℕ) = some (rowEntry idx j)

/-- Filling a row makes it the beam, and leaves the others as they are. -/
theorem fillRow_spec (list : PnypList P) {row : ℕ} (h : row < hanResultLen) (idx : ℕ) :
    ∃ list', fillRow list row idx = some list' ∧ HasRow list' row idx ∧
      ∀ r i, r ≠ row → HasRow list r i → HasRow list' r i := by
  have hsize : ((hanResultLen * beamCnt : ℕ) : ℤ) = 5120 := rfl
  simp only [fillRow, HasRow, hanResultLen, beamCnt] at h ⊢
  obtain ⟨list₀, h₀⟩ := list.store_of_mem (i := (row : ℤ) * (10 : ℕ) + 0) (⟨idx, 1⟩ : Pnyp P)
    (by omega)
  rw [h₀, Option.bind_some]
  have hloop : ∃ list', forLoop (10 - 1)
      (fun i list => list.store ((row : ℤ) * (10 : ℕ) + (i + 1 : ℕ)) ⟨i + 1, 0⟩) list₀ = some list' ∧
      (∀ j < 10, list'.load (row * 10 + j : ℕ) = some (rowEntry idx j)) ∧
      ∀ e : ℤ, e < row * 10 ∨ row * 10 + 10 ≤ e → list'.load e = list.load e := by
    apply forLoop_spec fun (i : ℕ) (l : PnypList P) =>
        (∀ j < i + 1, l.load (row * 10 + j : ℕ) = some (rowEntry idx j)) ∧
        ∀ e : ℤ, e < row * 10 ∨ row * 10 + 10 ≤ e → l.load e = list.load e
    · refine ⟨fun j hj => ?_, fun e he => ?_⟩
      · rw [Arr.load_store h₀, if_pos (by omega), show j = 0 by omega, rowEntry, if_pos rfl]
      · rw [Arr.load_store h₀, if_neg (by omega)]
    · rintro i l hi ⟨hrow, hframe⟩
      obtain ⟨l', hl'⟩ := l.store_of_mem (i := (row : ℤ) * (10 : ℕ) + (i + 1 : ℕ))
        (⟨i + 1, 0⟩ : Pnyp P) (by omega)
      refine ⟨l', hl', fun j hj => ?_, fun e he => ?_⟩
      · rw [Arr.load_store hl']
        by_cases hij : j = i + 1
        · rw [if_pos (by omega), rowEntry, if_neg (by omega), hij]
        · rw [if_neg (by omega)]
          exact hrow j (by omega)
      · rw [Arr.load_store hl', if_neg (by omega)]
        exact hframe e he
  obtain ⟨list', h', hrow, hframe⟩ := hloop
  refine ⟨list', h', hrow, fun r i hr hhas j hj => ?_⟩
  rw [hframe _ (by omega)]
  exact hhas j hj

/-- The number in front of row `r` of a line with these tokens. -/
def rowAt (v : Vocab) (tokens : List (List UInt8)) (r : ℕ) : ℕ :=
  if r % 2 = 0 ∧ r / 2 < tokens.length then v.indexOf (tokens.getD (r / 2) []) else blank

/-- `gen_mat_from_pny` on a line: the rows of its tokens, each followed by a blank. -/
theorem genMatFromPny_line (v : Vocab) {mem line t : List UInt8} {p : ℕ} (list : PnypList P)
    (hmem : mem.drop p = line ++ 0 :: t) (h0 : 0 ∉ line)
    (hlen : 2 * (line.splitOn space).length ≤ hanResultLen) :
    ∃ mem' list', genMatFromPny v mem p list =
        some (mem', list', (line.splitOn space).length * 2) ∧
      mem'.drop (p + line.length) = 0 :: t ∧
      ∀ r < 2 * (line.splitOn space).length, HasRow list' r (rowAt v (line.splitOn space) r) := by
  obtain ⟨line', ps, hsplit, hline', hps⟩ := splitPnys_line h0 t p
  have hp : (mem.take p).length = p := length_take_of_drop (by simp [hmem])
  have htokens := hps (mem.take p) hp
  set tokens := line.splitOn space with htok
  obtain ⟨hcount, hget⟩ := List.forall₂_iff_get.mp htokens
  have hloop : ∃ list', forLoop (p :: ps).length (fun i list =>
      (fillRow list (i * 2 : ℕ) (v.find (cstr ((mem.take p ++ (line' ++ 0 :: t)).drop
        ((p :: ps).getD i 0))))).bind fun list => fillRow list (i * 2 + 1 : ℕ) blank) list =
        some list' ∧ ∀ r < 2 * (p :: ps).length, HasRow list' r (rowAt v tokens r) := by
    apply forLoop_spec fun (i : ℕ) (l : PnypList P) => ∀ r < 2 * i, HasRow l r (rowAt v tokens r)
    · intro r hr
      omega
    intro i l hi hrows
    have hitok : i < tokens.length := hcount ▸ hi
    -- the search finds the token's number
    have hfind : v.find (cstr ((mem.take p ++ (line' ++ 0 :: t)).drop ((p :: ps).getD i 0))) =
        rowAt v tokens (i * 2) := by
      have hstr := (hget i hi hitok).cstr_drop
      rw [List.get_eq_getElem, List.get_eq_getElem] at hstr
      rw [List.getD_eq_getElem _ _ hi, hstr, v.find_eq_indexOf, rowAt, if_pos (by omega),
        Nat.mul_div_cancel i Nat.two_pos, List.getD_eq_getElem _ _ hitok]
    have hblank : rowAt v tokens (i * 2 + 1) = blank := by rw [rowAt, if_neg (by omega)]
    obtain ⟨l₁, h₁, hrow₁, hframe₁⟩ := fillRow_spec l (show i * 2 < hanResultLen by omega)
      (rowAt v tokens (i * 2))
    obtain ⟨l₂, h₂, hrow₂, hframe₂⟩ :=
      fillRow_spec l₁ (show i * 2 + 1 < hanResultLen by omega) blank
    refine ⟨l₂, by rw [hfind, h₁, Option.bind_some, h₂], fun r hr => ?_⟩
    by_cases hodd : r = i * 2 + 1
    · rw [hodd, hblank]
      exact hrow₂
    · apply hframe₂ r _ hodd
      by_cases heven : r = i * 2
      · rw [heven]
        exact hrow₁
      · exact hframe₁ r _ heven (hrows r (by omega))
  obtain ⟨list', hloop, hrows⟩ := hloop
  refine ⟨mem.take p ++ (line' ++ 0 :: t), list', ?_, ?_, ?_⟩
  · rw [genMatFromPny, hmem, hsplit, Option.bind_some]
    simp only [hloop, Option.map_some, ← hcount]
    rw [if_neg (by omega)]
  · rw [← hline', ← List.drop_drop]
    nth_rewrite 1 [← hp]
    rw [List.drop_left, List.drop_left]
  · rw [← hcount]
    exact hrows

/-- The padding loop fills the rows behind those of the tokens with blanks. -/
theorem padding_spec {list : PnypList P} {row : ℕ → ℕ} {cnt rest : ℕ}
    (hrows : ∀ r < cnt, HasRow list r (row r)) (hpad : ∀ r, cnt ≤ r → row r = blank)
    (hfits : cnt + rest ≤ hanResultLen) :
    ∃ list', forLoop rest (fun i list => fillRow list ((cnt : ℤ) + i) blank) list = some list' ∧
      ∀ r < cnt + rest, HasRow list' r (row r) := by
  apply forLoop_spec fun (i : ℕ) (l : PnypList P) => ∀ r < cnt + i, HasRow l r (row r)
  · exact hrows
  · intro i l hi hrows
    obtain ⟨l', h', hrow, hframe⟩ := fillRow_spec l (show cnt + i < hanResultLen by omega) blank
    refine ⟨l', by rw [← h', Nat.cast_add], fun r hr => ?_⟩
    by_cases hlast : r = cnt + i
    · rw [hlast, hpad _ (Nat.le_add_right cnt i)]
      exact hrow
    · exact hframe r _ hlast (hrows r (by omega))

/-! ## The chunks -/

/-- The chunks of `b` elements are, one after the other, all the elements. -/
theorem flatten_chunks {α : Type*} (f : ℕ → α) (b m : ℕ) :
    ((List.range m).map fun c => (List.range b).map fun e => f (c * b + e)).flatten =
      (List.range (m * b)).map f := by
  induction m with
  | zero => simp
  | succ m ih =>
    rw [List.range_succ, List.map_append, List.flatten_append, ih, Nat.succ_mul, List.range_add,
      List.map_append, List.map_map]
    simp only [List.map_singleton, List.flatten_singleton]
    rfl

/-- The beams of a list of rows, entry by entry. -/
theorem beamRows_eq (row : ℕ → ℕ) (n : ℕ) :
    ((List.range n).map row).flatMap (beamRow (P := P)) =
      (List.range (n * beamCnt)).map fun e => rowEntry (row (e / beamCnt)) (e % beamCnt) := by
  rw [← flatten_chunks, List.flatMap_def, List.map_map]
  congr 1
  refine List.map_congr_left fun r _ => ?_
  refine List.map_congr_left fun j hj => ?_
  have hj := List.mem_range.mp hj
  rw [Nat.mul_comm r, Nat.mul_add_div (by decide), Nat.mul_add_mod, Nat.div_eq_of_lt hj,
    Nat.mod_eq_of_lt hj, Nat.add_zero]

/-- The numbers in front of the rows are those the line is to have. -/
theorem map_rowAt (v : Vocab) (tokens : List (List UInt8)) (rest : ℕ) :
    (List.range (tokens.length * 2 + rest)).map (rowAt v tokens) = lineRows v tokens rest := by
  have htoken : (List.range (tokens.length * 2)).map (rowAt v tokens) =
      tokens.flatMap fun t => [v.indexOf t, blank] := by
    rw [← flatten_chunks, List.flatMap_def]
    congr 1
    apply List.ext_getElem
    · simp
    · intro c hc hc'
      have hlt : c < tokens.length := by simpa using hc'
      have heven : rowAt v tokens (c * 2) = v.indexOf tokens[c] := by
        rw [rowAt, if_pos (by omega), Nat.mul_div_cancel c Nat.two_pos,
          List.getD_eq_getElem _ _ hlt]
      have hodd : rowAt v tokens (c * 2 + 1) = blank := by rw [rowAt, if_neg (by omega)]
      simp [List.range_succ, heven, hodd]
  have hrest : ∀ r, rowAt v tokens (tokens.length * 2 + r) = blank := by
    intro r
    rw [rowAt, if_neg (by omega)]
  rw [List.range_add, List.map_append, htoken, lineRows, List.map_map]
  congr 1
  rw [List.eq_replicate_iff]
  refine ⟨by simp, fun b hb => ?_⟩
  obtain ⟨r, -, rfl⟩ := List.mem_map.mp hb
  exact hrest r

/-- The chunks read from filled rows are, one after the other, their beams. -/
theorem chunks_spec {list : PnypList P} {row : ℕ → ℕ} {k m : ℕ}
    (hrows : ∀ r < m * k, HasRow list r (row r)) :
    ∃ frames, (((List.range m).map fun c : ℕ => (0 : ℤ) + c * k).mapM fun i =>
        list.slice (beamCnt * i) (beamCnt * (k : ℤ)).toNat) = some frames ∧
      frames.flatten = ((List.range (m * k)).map row).flatMap beamRow ∧
      frames.length = m ∧ ∀ f ∈ frames, f.length = k * beamCnt := by
  have hlen : (beamCnt * (k : ℤ)).toNat = k * beamCnt := by
    rw [Int.mul_comm]
    exact Int.toNat_natCast (k * beamCnt)
  refine ⟨(List.range m).map fun c => (List.range (k * beamCnt)).map fun e =>
    rowEntry (row ((c * (k * beamCnt) + e) / beamCnt)) ((c * (k * beamCnt) + e) % beamCnt),
    ?_, ?_, ?_, ?_⟩
  · rw [List.mapM_map]
    apply mapM_eq_some_map
    intro c hc
    have hc := List.mem_range.mp hc
    rw [hlen]
    apply Arr.slice_eq
    intro e he
    have hend : c * (k * beamCnt) + e < m * k * beamCnt := by
      have hmul := Nat.mul_le_mul_right (k * beamCnt) (Nat.succ_le_of_lt hc)
      rw [Nat.succ_mul] at hmul
      rw [Nat.mul_assoc]
      omega
    have hrow := hrows _ ((Nat.div_lt_iff_lt_mul (by decide)).mpr hend) _
      (Nat.mod_lt (c * (k * beamCnt) + e) (by decide))
    have hidx : (beamCnt : ℤ) * (0 + c * k) + e = (c * (k * beamCnt) + e : ℕ) := by
      push_cast
      ring
    rw [Nat.div_add_mod'] at hrow
    rw [hidx]
    exact hrow
  · rw [flatten_chunks fun e => rowEntry (row (e / beamCnt)) (e % beamCnt), beamRows_eq,
      Nat.mul_assoc]
  · simp
  · intro f hf
    obtain ⟨c, -, rfl⟩ := List.mem_map.mp hf
    simp

/-! ## The whole line -/

/-- The number of chunks of a line: its rows fill all but the last, which takes the padding. -/
def lineChunks (k : ℕ) (line : List UInt8) : ℕ := 2 * (line.splitOn space).length / k + 1

/-- What the work on a line that fits does: it ends the line and its tokens in the memory, and hands
the decoder the beams of the line's rows. -/
theorem lmLine_spec (v : Vocab) {k p : ℕ} {mem line t : List UInt8} (list : PnypList P)
    (hk : 1 ≤ k) (hmem : mem.drop p = line ++ 0 :: t) (h0 : 0 ∉ line)
    (hfits : (2 * (line.splitOn space).length / k + 1) * k ≤ hanResultLen) :
    ∃ r rest, lmLine v k mem p list = some r ∧ r.mem.drop (p + line.length) = 0 :: t ∧
      r.frames.length = lineChunks k line ∧
      1 ≤ rest ∧ rest ≤ k ∧ k ∣ 2 * (line.splitOn space).length + rest ∧
      r.frames.flatten = (lineRows v (line.splitOn space) rest).flatMap beamRow ∧
      ∀ f ∈ r.frames, f.length = k * beamCnt := by
  have h512 : hanResultLen = 512 := rfl
  have hmod := Nat.mod_lt (2 * (line.splitOn space).length) hk
  have hdivmod := Nat.div_add_mod' (2 * (line.splitOn space).length) k
  -- the padding brings the rows to `m` chunks
  obtain ⟨m, hm⟩ : ∃ m, m = 2 * (line.splitOn space).length / k + 1 := ⟨_, rfl⟩
  obtain ⟨rest, hrest⟩ : ∃ rest, rest = k - 2 * (line.splitOn space).length % k := ⟨_, rfl⟩
  have htotal : (line.splitOn space).length * 2 + rest = m * k := by
    rw [hm, Nat.add_mul, Nat.one_mul]
    omega
  rw [← hm] at hfits
  have hmk : m ≤ m * k := Nat.le_mul_of_pos_right m hk
  have hrestval : restCnt (k : ℤ) ((line.splitOn space).length * 2 : ℕ) = some (rest : ℤ) := by
    rw [restCnt, if_neg (by omega), Int.tmod_eq_emod_of_nonneg (by omega), ← Int.natCast_mod,
      Nat.mul_comm, checkInt_of_mem (by omega), hrest, Nat.cast_sub hmod.le]
  obtain ⟨mem', list₁, hgen, hmem', hrows₁⟩ := genMatFromPny_line v list hmem h0 (by omega)
  obtain ⟨list₂, hpad, hrows₂⟩ := padding_spec (fun r hr => hrows₁ r (by omega))
    (fun r hr => by rw [rowAt, if_neg (by omega)])
    (show (line.splitOn space).length * 2 + rest ≤ hanResultLen by omega)
  rw [htotal] at hrows₂
  obtain ⟨frames, hframes, hflat, hcount, hsize⟩ := chunks_spec hrows₂
  have hstarts : chunkStarts (k : ℤ) (m * k) ((m * k : ℤ).toNat + 1) 0 =
      some ((List.range m).map fun c : ℕ => (0 : ℤ) + c * k) :=
    chunkStarts_eq (by omega) (by omega) le_rfl (by omega) (by omega)
  have hsum : (((line.splitOn space).length * 2 : ℕ) : ℤ) + rest = m * k := by
    rw [← Nat.cast_add, htotal, Nat.cast_mul]
  have hcheck : checkInt (((line.splitOn space).length * 2 : ℕ) + rest : ℤ) = some (m * k : ℤ) := by
    rw [hsum]
    exact checkInt_of_mem (by omega)
  refine ⟨⟨mem', list₂, frames⟩, rest, ?_, hmem', hcount.trans hm, by omega, by omega, ?_, ?_,
    hsize⟩
  · simp only [lmLine, hgen, hrestval, hpad, hcheck, hstarts, hframes, Option.bind_some,
      Option.map_some, Int.toNat_natCast]
  · rw [Nat.mul_comm, htotal]
    exact Nat.dvd_mul_left k m
  · rw [hflat, ← htotal, map_rowAt]

/-- **The decoder gets exactly the line.** Whatever the matrix held before, the frames of a line
that fits are `k` rows each and, read one after the other, the beams of the line's tokens, each
followed by a blank, and of one to `k` blanks of padding. -/
theorem lmLine_frames (v : Vocab) {k p : ℕ} {mem line t : List UInt8} (list : PnypList P)
    (hk : 1 ≤ k) (hmem : mem.drop p = line ++ 0 :: t) (h0 : 0 ∉ line)
    (hfits : (2 * (line.splitOn space).length / k + 1) * k ≤ hanResultLen) :
    ∃ r rest, lmLine v k mem p list = some r ∧ 1 ≤ rest ∧ rest ≤ k ∧
      k ∣ 2 * (line.splitOn space).length + rest ∧
      r.frames.flatten = (lineRows v (line.splitOn space) rest).flatMap beamRow ∧
      ∀ f ∈ r.frames, f.length = k * beamCnt := by
  obtain ⟨r, rest, hrun, -, -, hframes⟩ := lmLine_spec v list hk hmem h0 hfits
  exact ⟨r, rest, hrun, hframes⟩

/-- A vocabulary: the words `a`, `aa`, `aaa` and so on. -/
def unaryVocab : Vocab where
  word i := ⟨List.replicate (i + 1) 97, by simp⟩
  injective i j h := by
    have hlen := congrArg (fun s => s.1.length) h
    simpa [Fin.ext_iff] using hlen

theorem lmLine_frames_aa :
    ∃ r rest, lmLine unaryVocab (4 : ℕ) (bytes "aa hao aaa" ++ [0]) 0
        (fun _ => ⟨7, 1⟩ : PnypList ℚ) = some r ∧ 1 ≤ rest ∧ rest ≤ 4 ∧
      4 ∣ 2 * ((bytes "aa hao aaa").splitOn space).length + rest ∧
      r.frames.flatten =
        (lineRows unaryVocab ((bytes "aa hao aaa").splitOn space) rest).flatMap beamRow ∧
      ∀ f ∈ r.frames, f.length = 4 * beamCnt :=
  lmLine_frames (t := []) unaryVocab _ (by decide) rfl (by decide) (by decide)

end MaixSpeech.Lm
