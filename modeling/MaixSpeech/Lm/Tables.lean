import MaixSpeech.Lm.Frames

/-!
# The tables of a line

Reference: `components/utils/src/lm_benchmark.c`.

A line fills two rows of `pnyp_list` for each of its tokens, and then between one and
`model_core_len` rows of padding; `p_list` gets one pointer for each token. Both tables have room
for 512, and no count is checked. The stores stay inside them exactly when the padded rows do
(`tablesHold_iff`): the pointers are never the first to overflow.
-/

namespace MaixSpeech.Lm

open Common

variable {P : Type*} [Zero P] [One P]

/-- All stores that `gen_mat_from_pny` and the padding loop make for the line at `p` are inside
their tables. -/
def TablesHold (v : Vocab) (core : ℤ) (mem : List UInt8) (p : ℕ) (list : PnypList P) : Prop :=
  ∃ mem' list' cnt rest, genMatFromPny v mem p list = some (mem', list', cnt) ∧
    restCnt core cnt = some rest ∧
    (forLoop rest.toNat (fun i list => fillRow list (cnt + i) blank) list').isSome

section Line

variable {v : Vocab} {mem line t : List UInt8} {p : ℕ} {list : PnypList P}

/-- A row that gets filled is a row of the table. -/
theorem fillRow_bound {list list' : PnypList P} {row : ℤ} {idx : ℕ}
    (h : fillRow list row idx = some list') : 0 ≤ row ∧ row < hanResultLen := by
  have hsize : ((hanResultLen * beamCnt : ℕ) : ℤ) = 5120 := rfl
  obtain ⟨list₁, hfirst, -⟩ := Option.bind_eq_some_iff.mp h
  simp only [Arr.store, hanResultLen, beamCnt] at hfirst hsize ⊢
  split_ifs at hfirst with hin
  omega

/-- `gen_mat_from_pny` returns two rows for each token of the line. -/
theorem genMatFromPny_cnt (hmem : mem.drop p = line ++ 0 :: t) (h0 : 0 ∉ line) {mem' list' cnt}
    (h : genMatFromPny v mem p list = some (mem', list', cnt)) :
    cnt = (line.splitOn space).length * 2 := by
  obtain ⟨line', ps, hsplit, -, hps⟩ := splitPnys_line h0 t p
  have hcount := (hps (mem.take p) (length_take_of_drop (by simp [hmem]))).length_eq
  rw [genMatFromPny, hmem, hsplit, Option.bind_some] at h
  simp only at h
  split_ifs at h
  obtain ⟨list₁, -, heq⟩ := Option.map_eq_some_iff.mp h
  rw [← hcount]
  exact (congrArg (fun r => r.2.2) heq).symm

/-- The padding brings the rows of a line to the next multiple of the core length. -/
theorem padded_rows {core rest cnt : ℤ} (hcore : 1 ≤ core) (hcnt : 0 ≤ cnt)
    (h : restCnt core cnt = some rest) : 1 ≤ rest ∧ cnt + rest = (cnt / core + 1) * core := by
  have hlt := Int.emod_lt_of_pos cnt hcore
  have hdiv := Int.emod_add_mul_ediv cnt core
  rw [restCnt, if_neg (by omega), Int.tmod_eq_emod_of_nonneg hcnt] at h
  obtain ⟨rfl, -⟩ := checkInt_eq_some_iff.mp h
  refine ⟨by omega, ?_⟩
  rw [Int.add_mul, Int.one_mul, Int.mul_comm (cnt / core)]
  omega

theorem rowCount_eq (line : List UInt8) :
    rowCount line = ((line.splitOn space).length * 2 : ℕ) := by
  rw [rowCount, Nat.cast_mul, Int.mul_comm]
  rfl

/-- A line whose stores are inside the tables has at most 512 rows with its padding. -/
theorem TablesHold.fits {core : ℤ} (h : TablesHold v core mem p list) (hcore : 1 ≤ core)
    (hmem : mem.drop p = line ++ 0 :: t) (h0 : 0 ∉ line) :
    (rowCount line / core + 1) * core ≤ hanResultLen := by
  obtain ⟨mem', list', cnt, rest, hgen, hrest, hpad⟩ := h
  rw [genMatFromPny_cnt hmem h0 hgen, ← rowCount_eq] at hrest hpad
  have hcnt : 0 ≤ rowCount line := by
    rw [rowCount_eq]
    omega
  obtain ⟨hpos, hsum⟩ := padded_rows hcore hcnt hrest
  obtain ⟨list'', hrun⟩ := Option.isSome_iff_exists.mp hpad
  -- the last turn of the padding fills the last row
  obtain ⟨s₁, s₂, hlast⟩ := forLoop_turn hrun (show rest.toNat - 1 < rest.toNat by omega)
  have hbound := (fillRow_bound hlast).2
  omega

/-- The rows of a line and its padding are filled with the line's beams when they are at most 512. -/
theorem rows_of_fits (v : Vocab) (list : PnypList P) {core : ℤ} (hcore : 1 ≤ core)
    (hmem : mem.drop p = line ++ 0 :: t) (h0 : 0 ∉ line)
    (hfits : (rowCount line / core + 1) * core ≤ hanResultLen) :
    ∃ mem' list' cnt rest list'', genMatFromPny v mem p list = some (mem', list', cnt) ∧
      restCnt core cnt = some rest ∧ 0 ≤ rest ∧ (cnt : ℤ) = rowCount line ∧
      forLoop rest.toNat (fun i list => fillRow list (cnt + i) blank) list' = some list'' ∧
      ∀ r < cnt + rest.toNat, HasRow list'' r (rowAt v (line.splitOn space) r) := by
  have hrows := rowCount_eq line
  have hcnt : 0 ≤ rowCount line := by omega
  have hdiv : 0 ≤ rowCount line / core := Int.ediv_nonneg hcnt (by omega)
  have hle : core ≤ (rowCount line / core + 1) * core := le_mul_of_one_le_left (by omega) (by omega)
  have h512 : (hanResultLen : ℤ) = 512 := rfl
  obtain ⟨rest, hrest, hpos, -, hsum⟩ := restCnt_eq (show 0 < core by omega) (by omega) hcnt
  have hroom : (line.splitOn space).length * 2 + rest.toNat ≤ hanResultLen := by
    rw [← hsum] at hfits
    omega
  obtain ⟨mem', list', hgen, -, hfilled⟩ := genMatFromPny_line v list hmem h0 (by omega)
  obtain ⟨list'', hpad, hall⟩ := padding_spec (fun r hr => hfilled r (by omega))
    (fun r hr => by rw [rowAt, if_neg (by omega)]) hroom
  exact ⟨mem', list', _, rest, list'', hgen, hrows ▸ hrest, by omega, hrows.symm, hpad, hall⟩

/-- **No store of a line leaves the tables exactly when its rows, two for each token and the padding
to the next multiple of `model_core_len`, are at most 512**. -/
theorem tablesHold_iff (v : Vocab) (list : PnypList P) {core : ℤ} (hcore : 1 ≤ core)
    (hmem : mem.drop p = line ++ 0 :: t) (h0 : 0 ∉ line) :
    TablesHold v core mem p list ↔ (rowCount line / core + 1) * core ≤ hanResultLen := by
  constructor
  · intro h
    exact h.fits hcore hmem h0
  · intro hfits
    obtain ⟨mem', list', cnt, rest, list'', hgen, hrest, -, -, hpad, -⟩ :=
      rows_of_fits v list hcore hmem h0 hfits
    exact ⟨mem', list', cnt, rest, hgen, hrest, by rw [hpad]; rfl⟩

/-- A line of `n + 1` tokens `a`. -/
def lineOfAs (n : ℕ) : List UInt8 := bytes "a" ++ (List.replicate n (bytes " a")).flatten

theorem tablesHold_iff_lineOfAs :
    TablesHold unaryVocab 4 (lineOfAs 3 ++ [0]) 0 (fun _ => ⟨7, 1⟩ : PnypList ℚ) ↔
      (rowCount (lineOfAs 3) / 4 + 1) * 4 ≤ hanResultLen :=
  tablesHold_iff (t := []) unaryVocab _ (by decide) rfl (by decide)

/-- With 256 tokens the rows fill the table, and the first row of the padding is behind it. -/
theorem not_tablesHold_lineOfAs :
    ¬ TablesHold unaryVocab 4 (lineOfAs 255 ++ [0]) 0 (fun _ => ⟨7, 1⟩ : PnypList ℚ) := by
  have h0 : 0 ∉ lineOfAs 255 := by decide +kernel
  intro h
  have hfits := h.fits (t := []) (by decide) rfl h0
  have hrows : rowCount (lineOfAs 255) = 512 := by decide +kernel
  rw [hrows] at hfits
  exact absurd hfits (by decide)

end Line

end MaixSpeech.Lm
