import MaixSpeech.Config.Correct
import MaixSpeech.Lm.Benchmark
import Mathlib.Algebra.Order.Ring.Int
import Mathlib.Tactic.Ring
import Mathlib.Tactic.Linarith

/-!
# The framing of a line

Reference: `components/utils/src/lm_benchmark.c`.

`lm_benchmark` pads the rows of a line to a multiple of `model_core_len` and cuts them into frames
of that many rows. The length comes from three options that no check relates to each other, so it
may be zero or negative for an accepted configuration; the framing works exactly when it is positive
and the padded number of rows is an `int` (`lmFraming_iff`).
-/

namespace MaixSpeech.Lm

open Common Config

/-! ## Arithmetic of the frames -/

section Arith

variable {core cnt total x y i : ℤ} {n fuel : ℕ}

theorem checkInt_eq_some_iff : checkInt x = some y ↔ x = y ∧ -2 ^ 31 ≤ x ∧ x < 2 ^ 31 := by
  unfold checkInt
  split
  · rename_i h
    rw [Option.some.injEq]
    exact Iff.intro (fun hxy => ⟨hxy, h⟩) fun hxy => hxy.1
  · rename_i h
    refine ⟨fun hxy => ?_, fun hxy => absurd hxy.2 h⟩
    cases hxy

theorem checkInt_of_mem (h : -2 ^ 31 ≤ x ∧ x < 2 ^ 31) : checkInt x = some x := if_pos h

/-- The padding brings the rows to the next multiple of the core length. -/
theorem restCnt_eq (hcore : 0 < core) (hint : core < 2 ^ 31) (hcnt : 0 ≤ cnt) :
    ∃ rest, restCnt core cnt = some rest ∧ 1 ≤ rest ∧ rest ≤ core ∧
      cnt + rest = (cnt / core + 1) * core := by
  have hlt := Int.emod_lt_of_pos cnt hcore
  have hge := Int.emod_nonneg cnt hcore.ne'
  have hdiv := Int.emod_add_mul_ediv cnt core
  refine ⟨core - cnt % core, ?_, by omega, by omega, ?_⟩
  · rw [restCnt, if_neg hcore.ne', Int.tmod_eq_emod_of_nonneg hcnt]
    exact checkInt_of_mem (by omega)
  · rw [Int.add_mul, Int.one_mul, Int.mul_comm (cnt / core)]
    omega

/-- The chunks of a number of rows that is a multiple of the core length, from `i` on. -/
theorem chunkStarts_eq (hcore : 0 < core) (hint : total < 2 ^ 31) (hi : 0 ≤ i)
    (htotal : i + n * core = total) (hfuel : n < fuel) :
    chunkStarts core total fuel i = some ((List.range n).map fun c : ℕ => i + c * core) := by
  induction n generalizing i fuel with
  | zero =>
    obtain ⟨fuel, rfl⟩ : ∃ k, fuel = k + 1 := ⟨fuel - 1, by omega⟩
    rw [chunkStarts, if_neg (by omega)]
    rfl
  | succ n ih =>
    obtain ⟨fuel, rfl⟩ : ∃ k, fuel = k + 1 := ⟨fuel - 1, by omega⟩
    have hsucc : ((n + 1 : ℕ) : ℤ) * core = core + n * core := by
      rw [Nat.cast_succ, Int.add_mul, Int.one_mul, Int.add_comm]
    have hn : 0 ≤ (n : ℤ) * core := Int.mul_nonneg (Int.natCast_nonneg n) hcore.le
    have hnext : i + core + n * core = total := by omega
    rw [chunkStarts, if_pos (by omega), checkInt_of_mem (by omega), Option.bind_some,
      ih (by omega) hnext (by omega), Option.map_some, List.range_succ_eq_map, List.map_cons,
      List.map_map]
    congr 2
    · simp
    · refine List.map_congr_left fun c _ => ?_
      simp only [Function.comp_apply, Nat.cast_succ, Int.add_mul, Int.one_mul]
      omega

end Arith

/-! ## Accepted configurations -/

section Framing

variable {F S : Type*}

/-- The number of rows `gen_mat_from_pny` makes of a line: two for each piece between spaces. -/
def rowCount (line : List UInt8) : ℤ := 2 * (line.splitOn space).length

/-- The framing of a line is well defined: the core length is positive, the number of padding rows
is between 1 and the core length, and the chunk loop ends with every chunk inside the rows. -/
def FramingDefined (opts : Opts F S) (line : List UInt8) : Prop :=
  ∃ core, modelCoreLen opts = some core ∧ 0 < core ∧
    ∃ rest, restCnt core (rowCount line) = some rest ∧ 1 ≤ rest ∧ rest ≤ core ∧
      ∃ total, checkInt (rowCount line + rest) = some total ∧
        ∃ fuel starts, chunkStarts core total fuel 0 = some starts ∧
          ∀ i ∈ starts, 0 ≤ i ∧ i + core ≤ total

/-- `model_core_len` over the integers. -/
def coreLen (opts : Opts F S) : ℤ :=
  (opts.int .modelInLen).tdiv 8 - opts.int .stripL - opts.int .stripR

/-- The strips leave a positive number of rows, without overflow on the way, and the rows of the
line padded to a multiple of that number are still an `int`. -/
structure CoreFits (opts : Opts F S) (line : List UInt8) : Prop where
  stripL : -2 ^ 31 ≤ (opts.int .modelInLen).tdiv 8 - opts.int .stripL ∧
    (opts.int .modelInLen).tdiv 8 - opts.int .stripL < 2 ^ 31
  pos : opts.int .stripL + opts.int .stripR < (opts.int .modelInLen).tdiv 8
  total : (rowCount line / coreLen opts + 1) * coreLen opts < 2 ^ 31

theorem modelCoreLen_eq_some_iff {opts : Opts F S} {core : ℤ} :
    modelCoreLen opts = some core ↔ coreLen opts = core ∧
      (-2 ^ 31 ≤ (opts.int .modelInLen).tdiv 8 - opts.int .stripL ∧
        (opts.int .modelInLen).tdiv 8 - opts.int .stripL < 2 ^ 31) ∧
      -2 ^ 31 ≤ core ∧ core < 2 ^ 31 := by
  simp only [modelCoreLen, Option.bind_eq_some_iff, checkInt_eq_some_iff]
  constructor
  · rintro ⟨x, ⟨rfl, h⟩, rfl, h'⟩
    exact ⟨rfl, h, h'⟩
  · rintro ⟨rfl, h, h'⟩
    exact ⟨_, ⟨rfl, h⟩, rfl, h'⟩

theorem framingDefined_iff (opts : Opts F S) (line : List UInt8) :
    FramingDefined opts line ↔ CoreFits opts line := by
  have hcnt : 0 ≤ rowCount line := by
    unfold rowCount
    omega
  constructor
  · rintro ⟨core, hcore, hpos, rest, hrest, -, -, total, htotal, -⟩
    obtain ⟨hval, hstrip, -, hlt⟩ := modelCoreLen_eq_some_iff.mp hcore
    obtain ⟨rest', hrest', -, -, hsum⟩ := restCnt_eq hpos hlt hcnt
    obtain rfl : rest = rest' := Option.some.inj (hrest.symm.trans hrest')
    obtain ⟨-, -, hint⟩ := checkInt_eq_some_iff.mp htotal
    refine ⟨hstrip, by unfold coreLen at hval; omega, ?_⟩
    rw [hval, ← hsum]
    exact hint
  · rintro ⟨hstrip, hpos, htotal⟩
    have hcorepos : 0 < coreLen opts := by
      unfold coreLen
      omega
    have hdiv : 0 ≤ rowCount line / coreLen opts := Int.ediv_nonneg hcnt hcorepos.le
    have hcorele : coreLen opts ≤ (rowCount line / coreLen opts + 1) * coreLen opts := by
      rw [Int.add_mul, Int.one_mul]
      have := Int.mul_nonneg hdiv hcorepos.le
      omega
    obtain ⟨rest, hrest, h1, hle, hsum⟩ := restCnt_eq hcorepos (by omega) hcnt
    obtain ⟨n, hn⟩ := Int.eq_ofNat_of_zero_le (a := rowCount line / coreLen opts + 1) (by omega)
    have hchunks : (0 : ℤ) + n * coreLen opts = rowCount line + rest := by
      rw [hsum, hn, Int.zero_add]
    refine ⟨coreLen opts, modelCoreLen_eq_some_iff.mpr ⟨rfl, hstrip, by omega, by omega⟩, hcorepos,
      rest, hrest, h1, hle, _, checkInt_of_mem (by omega), n + 1, _,
      chunkStarts_eq hcorepos (by omega) le_rfl hchunks (Nat.lt_succ_self n), ?_⟩
    intro i hi
    obtain ⟨c, hc, rfl⟩ := List.mem_map.mp hi
    have hclt : (c : ℤ) + 1 ≤ n := by
      have := List.mem_range.mp hc
      omega
    have hstart : 0 ≤ (c : ℤ) * coreLen opts := Int.mul_nonneg (Int.natCast_nonneg c) hcorepos.le
    have hend := Int.mul_le_mul_of_nonneg_right hclt hcorepos.le
    rw [Int.add_mul, Int.one_mul] at hend
    omega

/-- **The framing is well defined exactly when the strips fit**: for an accepted file and any line,
in terms of the numbers the file sets. -/
theorem lmFraming_iff (lib : CNum F) (content : List UInt8) (before : UInt8) {file : List UInt8}
    (hret : (parseOpts lib content before (some file)).ret = 0) (line : List UInt8) :
    FramingDefined (parseOpts lib content before (some file)).opts line ↔
      CoreFits (applyEntries lib (Opts.cleared lib) (readEntries content file)) line := by
  have hint := (parseOpts_shows lib content before (parseOpts_ret_eq_zero_iff.mp hret).1).int
  rw [framingDefined_iff]
  constructor
  · rintro ⟨hstrip, hpos, htotal⟩
    rw [coreLen, hint] at htotal
    rw [hint] at hstrip hpos
    exact ⟨hstrip, hpos, htotal⟩
  · rintro ⟨hstrip, hpos, htotal⟩
    rw [coreLen, ← hint] at htotal
    rw [← hint] at hstrip hpos
    exact ⟨hstrip, hpos, htotal⟩

/-- A complete configuration whose strips add up to the whole output of the model. -/
def allStrippedText : List UInt8 :=
  bytes "device_type:wav\ndevice_name:a\nmodel_name:b\nmodel_in_len:364\nstrip_l:23\nstrip_r:22\n" ++
  bytes "sfst_name:c\nsym_name:d\nphones_txt:e\nwords_txt:f\nfont_path:g\nbeam:16\nbg_prob:10\nscale:0.5\n"

/-- The file is accepted, and nothing is left of the output. -/
theorem allStrippedText_accepted :
    (parseOpts CNum.decimal (List.replicate 1000 0) 0 (some allStrippedText)).ret = 0 ∧
      modelCoreLen (parseOpts CNum.decimal (List.replicate 1000 0) 0 (some allStrippedText)).opts =
        some 0 := by
  decide +kernel

theorem lmFraming_iff_allStrippedText :
    FramingDefined (parseOpts CNum.decimal (List.replicate 1000 0) 0 (some allStrippedText)).opts
        (bytes "ni hao") ↔
      CoreFits (applyEntries CNum.decimal (Opts.cleared CNum.decimal)
        (readEntries (List.replicate 1000 0) allStrippedText)) (bytes "ni hao") :=
  lmFraming_iff CNum.decimal _ 0 allStrippedText_accepted.1 _

theorem lmFraming_undefined_of_allStrippedText :
    ¬ ((parseOpts CNum.decimal (List.replicate 1000 0) 0 (some allStrippedText)).ret = 0 →
      FramingDefined (parseOpts CNum.decimal (List.replicate 1000 0) 0 (some allStrippedText)).opts
        (bytes "ni hao")) := by
  intro h
  obtain ⟨hret, hzero⟩ := allStrippedText_accepted
  obtain ⟨core, hcore, hpos, -⟩ := h hret
  rw [Option.some.inj (hcore.symm.trans hzero)] at hpos
  exact absurd hpos (by decide)

end Framing

end MaixSpeech.Lm
