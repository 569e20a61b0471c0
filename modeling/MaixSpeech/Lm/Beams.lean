import MaixSpeech.Lm.Tables
import Mathlib.Data.List.Nodup

/-!
# The beams of a line

Reference: `components/utils/src/lm_benchmark.c`.

A beam lists ten syllables with their probabilities: the intended one with 1, the others with 0.
The others are always the numbers 1 to 9, so a syllable with one of these numbers is listed twice,
once with each probability. The rows of a line are proper beams exactly when it has no such syllable
(`beamsProper_iff`).
-/

namespace MaixSpeech.Lm

open Common

variable {P : Type*} [Zero P] [One P]

/-- A row that gives every number it lists one probability: 1 for the intended syllable, which is
among them, and 0 for the others. -/
structure ProperBeam (intended : ℕ) (beam : List (Pnyp P)) : Prop where
  length : beam.length = beamCnt
  listed : intended ∈ beam.map Pnyp.idx
  distinct : (beam.map Pnyp.idx).Nodup
  inVocab : ∀ e ∈ beam, e.idx < 1250
  prob : ∀ e ∈ beam, e.p = if e.idx = intended then 1 else 0

/-- The rows that `gen_mat_from_pny` and the padding loop make for the line at `p`, with these
tokens, are proper beams. -/
def BeamsProper (v : Vocab) (core : ℤ) (mem : List UInt8) (p : ℕ) (tokens : List (List UInt8))
    (list : PnypList P) : Prop :=
  ∃ mem' list' cnt rest list'', genMatFromPny v mem p list = some (mem', list', cnt) ∧
    restCnt core cnt = some rest ∧
    forLoop rest.toNat (fun i list => fillRow list (cnt + i) blank) list' = some list'' ∧
    ∀ r < cnt + rest.toNat, ∃ beam,
      list''.slice (r * beamCnt : ℕ) beamCnt = some beam ∧ ProperBeam (rowAt v tokens r) beam

/-! ## One row -/

theorem HasRow.slice {list : PnypList P} {r idx : ℕ} (h : HasRow list r idx) :
    list.slice (r * beamCnt : ℕ) beamCnt = some (beamRow idx) := by
  apply Arr.slice_eq
  intro j hj
  rw [← Nat.cast_add]
  exact h j hj

theorem map_idx_beamRow (idx : ℕ) :
    (beamRow (P := P) idx).map Pnyp.idx = idx :: List.range' 1 9 := rfl

/-- A row is proper unless the number in front is one of the fillers. -/
theorem properBeam_beamRow_iff {idx : ℕ} (h : idx < 1250) :
    ProperBeam idx (beamRow (P := P) idx) ↔ ¬ (1 ≤ idx ∧ idx < beamCnt) := by
  constructor
  · rintro hproper ⟨hpos, hlt⟩
    have hdistinct := hproper.distinct
    rw [map_idx_beamRow, List.nodup_cons, List.mem_range'_1] at hdistinct
    exact hdistinct.1 ⟨hpos, hlt⟩
  · intro hother
    have hfiller : ∀ j < beamCnt, j ≠ 0 → j ≠ idx := by omega
    refine ⟨rfl, ?_, ?_, ?_, ?_⟩
    · rw [map_idx_beamRow]
      exact List.mem_cons_self
    · rw [map_idx_beamRow, List.nodup_cons, List.mem_range'_1]
      exact ⟨hother, List.nodup_range'⟩
    all_goals
      intro e he
      obtain ⟨j, hj, rfl⟩ := List.mem_map.mp he
      have hj : j < beamCnt := List.mem_range.mp hj
      unfold rowEntry
      by_cases hj0 : j = 0
    · rwa [if_pos hj0]
    · rw [if_neg hj0]
      exact hj.trans (by decide)
    · rw [if_pos hj0]
      exact (if_pos rfl).symm
    · rw [if_neg hj0]
      exact (if_neg (hfiller j hj hj0)).symm

/-! ## The syllables -/

/-- A syllable has its own number. -/
theorem Vocab.indexOf_word (v : Vocab) (i : Fin 1250) : v.indexOf (v.word i).1 = i := by
  unfold Vocab.indexOf
  cases hfind : (List.finRange 1250).find? fun j => (v.word j).1 = (v.word i).1 with
  | none =>
    have hself := List.find?_eq_none.mp hfind i (List.mem_finRange i)
    simp at hself
  | some j =>
    have hj : (v.word j).1 = (v.word i).1 := by simpa using List.find?_some hfind
    rw [v.injective (Subtype.ext hj)]
    rfl

/-- What does not have the number of the blank is the syllable with its number. -/
theorem Vocab.word_indexOf (v : Vocab) (pny : List UInt8) :
    v.indexOf pny = blank ∨ ∃ i : Fin 1250, v.indexOf pny = i ∧ (v.word i).1 = pny := by
  unfold Vocab.indexOf
  cases hfind : (List.finRange 1250).find? fun j => (v.word j).1 = pny with
  | none => exact .inl rfl
  | some i => exact .inr ⟨i, rfl, by simpa using List.find?_some hfind⟩

/-- The line has none of the syllables whose numbers are the fillers'. -/
def NoFiller (v : Vocab) (tokens : List (List UInt8)) : Prop :=
  ∀ i : Fin 1250, 1 ≤ (i : ℕ) → (i : ℕ) < beamCnt → (v.word i).1 ∉ tokens

section Line

variable {v : Vocab} {tokens : List (List UInt8)}

theorem rowAt_lt (v : Vocab) (tokens : List (List UInt8)) (r : ℕ) : rowAt v tokens r < 1250 := by
  unfold rowAt
  split
  · rcases v.word_indexOf (tokens.getD (r / 2) []) with h | ⟨i, h, -⟩
    · rw [h]
      decide
    · rw [h]
      exact i.isLt
  · decide

/-- No row of the line has a filler in front, if it has none of these syllables. -/
theorem NoFiller.rowAt (h : NoFiller v tokens) (r : ℕ) :
    ¬ (1 ≤ rowAt v tokens r ∧ rowAt v tokens r < beamCnt) := by
  have hblank : ¬ (1 ≤ blank ∧ blank < beamCnt) := by decide
  unfold Lm.rowAt
  split
  · rename_i hr
    rcases v.word_indexOf (tokens.getD (r / 2) []) with hidx | ⟨i, hidx, hword⟩
    · rwa [hidx]
    · rw [hidx]
      rintro ⟨hpos, hlt⟩
      apply h i hpos hlt
      rw [hword, List.getD_eq_getElem _ _ hr.2]
      exact List.getElem_mem hr.2
  · exact hblank

/-- The row of such a syllable, if the line has one. -/
theorem rowAt_of_mem {i : Fin 1250} (h : (v.word i).1 ∈ tokens) :
    ∃ r < tokens.length * 2, rowAt v tokens r = i := by
  obtain ⟨c, hc, hword⟩ := List.mem_iff_getElem.mp h
  refine ⟨c * 2, by omega, ?_⟩
  rw [rowAt, if_pos (by omega), Nat.mul_div_cancel c Nat.two_pos, List.getD_eq_getElem _ _ hc, hword,
    v.indexOf_word]

variable {mem line t : List UInt8} {p : ℕ}

/-- A line whose rows are proper beams has none of the fillers' syllables. -/
theorem BeamsProper.noFiller {list : PnypList P} {core : ℤ}
    (h : BeamsProper v core mem p (line.splitOn space) list) (hcore : 1 ≤ core)
    (hmem : mem.drop p = line ++ 0 :: t) (h0 : 0 ∉ line)
    (hfits : (rowCount line / core + 1) * core ≤ hanResultLen) :
    NoFiller v (line.splitOn space) := by
  obtain ⟨mem', list', cnt, rest, list'', hgen, hrest, -, hcnt, hpad, hrows⟩ :=
    rows_of_fits v list hcore hmem h0 hfits
  obtain ⟨_, _, _, _, _, hgen', hrest', hpad', hproper⟩ := h
  -- the run is this one
  obtain ⟨-, rfl, rfl⟩ : mem' = _ ∧ list' = _ ∧ cnt = _ := by simpa [hgen] using hgen'
  obtain rfl := Option.some.inj (hrest.symm.trans hrest')
  obtain rfl := Option.some.inj (hpad.symm.trans hpad')
  intro i hpos hlt hmem
  obtain ⟨r, hr, hrow⟩ := rowAt_of_mem hmem
  have hr : r < cnt + rest.toNat := by
    rw [rowCount_eq] at hcnt
    omega
  obtain ⟨beam, hslice, hbeam⟩ := hproper r hr
  obtain rfl := Option.some.inj ((hrows r hr).slice.symm.trans hslice)
  rw [hrow, properBeam_beamRow_iff i.isLt] at hbeam
  exact hbeam ⟨hpos, hlt⟩

/-- **The rows are proper beams exactly when no syllable of the line is a filler.** For every line
that fits into `pnyp_list` and every vocabulary of distinct strings, each row made for the line lists
ten distinct syllables of the vocabulary, with probability 1 for the intended one and 0 for the
others, if and only if none of the tokens is one of the syllables 1 to 9. -/
theorem beamsProper_iff (v : Vocab) (list : PnypList P) {core : ℤ} (hcore : 1 ≤ core)
    (hmem : mem.drop p = line ++ 0 :: t) (h0 : 0 ∉ line)
    (hfits : (rowCount line / core + 1) * core ≤ hanResultLen) :
    BeamsProper v core mem p (line.splitOn space) list ↔ NoFiller v (line.splitOn space) := by
  constructor
  · intro h
    exact h.noFiller hcore hmem h0 hfits
  · intro h
    obtain ⟨mem', list', cnt, rest, list'', hgen, hrest, -, -, hpad, hrows⟩ :=
      rows_of_fits v list hcore hmem h0 hfits
    refine ⟨mem', list', cnt, rest, list'', hgen, hrest, hpad, fun r hr => ?_⟩
    exact ⟨_, (hrows r hr).slice, (properBeam_beamRow_iff (rowAt_lt v _ r)).mpr (h.rowAt r)⟩

/-- A line of three syllables, the middle one behind the fillers. -/
theorem beamsProper_threeSyllables :
    BeamsProper unaryVocab 4 (bytes "a aaaaaaaaaaa a" ++ [0]) 0
      ((bytes "a aaaaaaaaaaa a").splitOn space) (fun _ => ⟨7, 1⟩ : PnypList ℚ) := by
  refine (beamsProper_iff (t := []) unaryVocab _ (by decide) rfl (by decide) (by decide)).mpr ?_
  intro i hpos hlt hmem
  have hlengths : ((bytes "a aaaaaaaaaaa a").splitOn space).map List.length = [1, 11, 1] := by
    decide
  have hlen : (i : ℕ) + 1 ∈ [1, 11, 1] := by
    have hword := List.mem_map_of_mem (f := List.length) hmem
    rwa [hlengths, unaryVocab, List.length_replicate] at hword
  change (i : ℕ) < 10 at hlt
  simp only [List.mem_cons, List.not_mem_nil, or_false] at hlen
  omega

/-- Syllable 1 is listed with probability 1 and with probability 0. -/
theorem not_beamsProper_aa :
    ¬ BeamsProper unaryVocab 4 (bytes "aa" ++ [0]) 0 ((bytes "aa").splitOn space)
        (fun _ => ⟨7, 1⟩ : PnypList ℚ) := by
  intro h
  have hno : NoFiller unaryVocab ((bytes "aa").splitOn space) :=
    h.noFiller (t := []) (by decide) rfl (by decide) (by decide)
  exact hno 1 (by decide) (by decide) (by decide)

end Line

end MaixSpeech.Lm
