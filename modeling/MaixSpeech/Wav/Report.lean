import MaixSpeech.Wav.Benchmark
import Mathlib.Algebra.BigOperators.Group.List.Basic
import Mathlib.Tactic.NormNum

/-!
# What `benchmark` reports

Reference: `components/utils/src/benchmark.c`.

The last line of `benchmark` gives the number of frames, the time and their quotient. The frames are
counted before the result of `ms_asr_run` is looked at, so the call that ends a file counts as a
frame: the total is one too large for each file (`benchmark_totalFrames`). The time goes through a
`long` and 32 unsigned bits, which hold 35 or 71 minutes (`calDtUs_eq_iff`).
-/

namespace MaixSpeech.Wav

open Common

/-! ## The frames -/

section Frames

variable {n : ℕ} {env : WavEnv n}

/-- The library decodes `k` frames of the file: `ms_asr_run(1)` returns 1 that often, then less. The
file is opened, and no exit is requested. -/
structure Decodes (f : WavFile n) (k : ℕ) : Prop where
  setDev : f.setDev = 0
  exitFlag : f.exitFlag = false
  runs : ∃ frames : List (Run n), ∃ last : Run n,
    f.runs = frames ++ [last] ∧ frames.length = k ∧ (∀ r ∈ frames, r.frames = 1) ∧ last.frames < 1

/-- `benchmark` comes to its last line, with this number of frames. -/
def ReportsFrames (env : WavEnv n) (files : List (WavFile n)) (totalFrames : ℕ) : Prop :=
  (env.testpny || env.testhan) = true ∧
    ∃ st, benchmark env files = some st ∧ st.totalFrames = totalFrames

/-- The loop of a file counts every call of `ms_asr_run`, the last one too. -/
theorem runLoop_totalFrames {frames : List (Run n)} {last : Run n} {b b' : Bufs} {total total' : ℕ}
    {exit : Bool} (hframes : ∀ r ∈ frames, r.frames = 1) (hlast : last.frames < 1)
    (h : runLoop env (frames ++ [last]) b total = some (b', total', exit)) :
    total' = total + frames.length + 1 ∧ exit = false := by
  induction frames generalizing b total with
  | nil =>
    obtain ⟨b₁, -, h₁⟩ := Option.bind_eq_some_iff.mp h
    rw [if_pos hlast, Option.some.injEq, Prod.mk.injEq, Prod.mk.injEq] at h₁
    obtain ⟨-, rfl, rfl⟩ := h₁
    exact ⟨rfl, rfl⟩
  | cons r frames ih =>
    obtain ⟨b₁, -, h₁⟩ := Option.bind_eq_some_iff.mp h
    have hr : r.frames = 1 := hframes r List.mem_cons_self
    have hgo : ¬ r.frames < 1 := by omega
    rw [if_neg hgo] at h₁
    obtain ⟨htotal, hexit⟩ := ih (fun r hr => hframes r (List.mem_cons_of_mem _ hr)) h₁
    refine ⟨?_, hexit⟩
    rw [htotal, List.length_cons]
    omega

/-- The loop over the files counts one frame more than was decoded for each of them. -/
theorem testFiles_totalFrames {files : List (WavFile n)} {counts : List ℕ} {st st' : WavSt}
    (hdec : List.Forall₂ Decodes files counts) (h : testFiles env files st = some st') :
    st'.totalFrames = st.totalFrames + counts.sum + files.length := by
  induction hdec generalizing st with
  | nil =>
    obtain rfl := Option.some.inj h
    rfl
  | @cons f k files counts hf _ ih =>
    obtain ⟨frames, last, hruns, hlen, hframes, hlast⟩ := hf.runs
    rw [testFiles, if_neg (not_not.mpr hf.setDev), hruns] at h
    obtain ⟨⟨b, total, exit⟩, hrun, hrest⟩ := Option.bind_eq_some_iff.mp h
    obtain ⟨rfl, rfl⟩ := runLoop_totalFrames hframes hlast hrun
    simp only [hf.exitFlag, Bool.or_self, Bool.false_eq_true, if_false] at hrest
    have htotal : st'.totalFrames =
        st.totalFrames + frames.length + 1 + counts.sum + files.length := ih hrest
    rw [htotal, List.sum_cons, List.length_cons, hlen]
    omega

/-- The total is the number of decoded frames and the number of files. -/
theorem benchmark_totalFrames {files : List (WavFile n)} {counts : List ℕ} {total : ℕ}
    (hdec : List.Forall₂ Decodes files counts) (h : ReportsFrames env files total) :
    total = counts.sum + files.length := by
  obtain ⟨htest, st, hst, rfl⟩ := h
  rw [benchmark, if_pos htest] at hst
  rw [testFiles_totalFrames hdec hst, Nat.zero_add]

/-- **The frames are counted right exactly when there is nothing to count.** For all files and every
number of frames decoded in each, the total that `benchmark` reports is the number of decoded frames
if and only if there is no file. -/
theorem benchmark_counts_iff (env : WavEnv n) (files : List (WavFile n)) (counts : List ℕ)
    (htest : (env.testpny || env.testhan) = true) (hdec : List.Forall₂ Decodes files counts) :
    ReportsFrames env files counts.sum ↔ files = [] := by
  constructor
  · intro h
    have htotal := benchmark_totalFrames hdec h
    apply List.length_eq_zero_iff.mp
    omega
  · rintro rfl
    cases hdec
    exact ⟨htest, ⟨0, [], []⟩, if_pos htest, rfl⟩

/-- A vocabulary of two syllables, of which the words are asked for. -/
def wordsOnly : WavEnv 2 where
  vocab _ := ⟨bytes "_", by decide⟩
  testpny := false
  testhan := true

/-- A recording of one frame. -/
def shortRecording : WavFile 2 where
  name := ⟨bytes "a.wav", by decide⟩
  setDev := 0
  runs := [⟨[], 1⟩, ⟨[], 0⟩]
  exitFlag := false

theorem decodes_shortRecording : Decodes shortRecording 1 where
  setDev := rfl
  exitFlag := rfl
  runs := ⟨[⟨[], 1⟩], ⟨[], 0⟩, rfl, rfl, by simp, Int.zero_lt_one⟩

theorem benchmark_counts_shortRecording :
    ReportsFrames wordsOnly [shortRecording] 1 ↔ [shortRecording] = [] :=
  benchmark_counts_iff wordsOnly [shortRecording] [1] rfl (.cons decodes_shortRecording .nil)

/-- One frame is decoded, and two are reported. -/
theorem benchmark_miscounts_shortRecording :
    List.Forall₂ Decodes [shortRecording] [1] ∧ ReportsFrames wordsOnly [shortRecording] 2 ∧
      ¬ ReportsFrames wordsOnly [shortRecording] [1].sum := by
  have hdec : List.Forall₂ Decodes [shortRecording] [1] := .cons decodes_shortRecording .nil
  refine ⟨hdec, ⟨rfl, _, rfl, rfl⟩, fun h => ?_⟩
  have htotal := benchmark_totalFrames hdec h
  exact absurd htotal (by decide)

end Frames

/-! ## The time -/

section Time

variable {w : ℕ}

/-- The values of a `long` of `w` bits. -/
def InLong (w : ℕ) (x : ℤ) : Prop := -2 ^ (w - 1) ≤ x ∧ x < 2 ^ (w - 1)

instance (w : ℕ) (x : ℤ) : Decidable (InLong w x) := inferInstanceAs (Decidable (_ ∧ _))

/-- A result in `long`; `none` for an overflow, which C leaves undefined. -/
def long (w : ℕ) (x : ℤ) : Option ℤ := if InLong w x then some x else none

/-- `struct timespec`, where `time_t` and `long` have `w` bits. -/
structure Timespec (w : ℕ) where
  tvSec : ℤ
  tvNsec : ℤ
  sec : InLong w tvSec
  nsec : 0 ≤ tvNsec ∧ tvNsec < 10 ^ 9

/-- `d_s*1000000+d_ns/1000`, converted to `uint32_t`. -/
def dtUs (w : ℕ) (dS dNs : ℤ) : Option ℕ :=
  (long w (dS * 1000000)).bind fun us =>
    (long w (us + dNs.tdiv 1000)).map fun dt => (dt % 2 ^ 32).toNat

/-- `_cal_dt_us`. The sum with `1e9` is one of doubles, exact at this size. -/
def calDtUs (t0 t1 : Timespec w) : Option ℕ :=
  if t1.tvNsec < t0.tvNsec then
    (long w (t1.tvNsec + 10 ^ 9)).bind fun tmp =>
      (long w (tmp - t0.tvNsec)).bind fun dNs =>
        (long w (t1.tvSec - 1)).bind fun s =>
          (long w (s - t0.tvSec)).bind fun dS => dtUs w dS dNs
  else
    (long w (t1.tvNsec - t0.tvNsec)).bind fun dNs =>
      (long w (t1.tvSec - t0.tvSec)).bind fun dS => dtUs w dS dNs

/-- The time in nanoseconds. -/
def Timespec.nanos (t : Timespec w) : ℤ := t.tvSec * 10 ^ 9 + t.tvNsec

/-- The whole microseconds between two times. -/
def micros (t0 t1 : Timespec w) : ℕ := ((t1.nanos - t0.nanos) / 1000).toNat

theorem long_eq_some {x y : ℤ} : long w x = some y ↔ InLong w x ∧ x = y := by
  unfold long
  split <;> simp [*]

theorem long_of_inLong {x : ℤ} (h : InLong w x) : long w x = some x := if_pos h

/-- Every `long` holds two billion nanoseconds. -/
theorem inLong_nanos {x : ℤ} (hw : 32 ≤ w) (h0 : 0 ≤ x) (h1 : x < 2 * 10 ^ 9) : InLong w x := by
  have hpow : (2 : ℤ) ^ 31 ≤ 2 ^ (w - 1) := pow_le_pow_right₀ (by norm_num) (by omega)
  constructor <;> omega

/-- What is left of the time when seconds and nanoseconds are known. -/
theorem dtUs_eq_some_iff {dS dNs : ℤ} (hS : 0 ≤ dS) (hNs : 0 ≤ dNs) :
    dtUs w dS dNs = some ((dS * 10 ^ 9 + dNs) / 1000).toNat ↔
      ((dS * 10 ^ 9 + dNs) / 1000).toNat < 2 ^ 32 ∧
        ((dS * 10 ^ 9 + dNs) / 1000).toNat < 2 ^ (w - 1) := by
  have hdiv : dNs.tdiv 1000 = dNs / 1000 := Int.tdiv_eq_ediv_of_nonneg hNs
  have hus : (dS * 10 ^ 9 + dNs) / 1000 = dS * 1000000 + dNs / 1000 := by omega
  obtain ⟨us, hus'⟩ : ∃ us : ℕ, dS * 1000000 + dNs / 1000 = us :=
    Int.eq_ofNat_of_zero_le (by omega)
  have hpow : ((2 ^ (w - 1) : ℕ) : ℤ) = 2 ^ (w - 1) := by norm_num
  have hpos : (0 : ℤ) < 2 ^ (w - 1) := by positivity
  rw [hus, hus', Int.toNat_natCast]
  unfold dtUs
  simp only [Option.bind_eq_some_iff, Option.map_eq_some_iff, long_eq_some, hdiv]
  constructor
  · rintro ⟨_, ⟨-, rfl⟩, _, ⟨hlong, rfl⟩, hmod⟩
    rw [hus'] at hlong hmod
    have hlt := hlong.2
    constructor <;> omega
  · rintro ⟨h32, hlt⟩
    refine ⟨_, ⟨⟨?_, ?_⟩, rfl⟩, _, ⟨⟨?_, ?_⟩, rfl⟩, ?_⟩ <;> omega

/-- `_cal_dt_us` reduces the time to seconds and nanoseconds, with or without a borrow. -/
theorem calDtUs_eq {t0 t1 : Timespec w} (hw : 32 ≤ w) (h : t0.nanos ≤ t1.nanos) :
    ∃ dS dNs : ℤ, 0 ≤ dS ∧ 0 ≤ dNs ∧ dS * 10 ^ 9 + dNs = t1.nanos - t0.nanos ∧
      calDtUs t0 t1 = (long w dS).bind fun dS => dtUs w dS dNs := by
  have h0 := t0.nsec
  have h1 := t1.nsec
  unfold Timespec.nanos at h ⊢
  unfold calDtUs
  split
  · rename_i hborrow
    refine ⟨t1.tvSec - 1 - t0.tvSec, t1.tvNsec + 10 ^ 9 - t0.tvNsec, by omega, by omega, by omega,
      ?_⟩
    -- the second that is borrowed is there, for `t0` lies in an earlier one
    have hsec : InLong w (t1.tvSec - 1) := ⟨by have := t0.sec.1; omega, by have := t1.sec.2; omega⟩
    rw [long_of_inLong (inLong_nanos hw (by omega) (by omega)), Option.bind_some,
      long_of_inLong (inLong_nanos hw (by omega) (by omega)), Option.bind_some,
      long_of_inLong hsec, Option.bind_some]
  · rename_i hborrow
    refine ⟨t1.tvSec - t0.tvSec, t1.tvNsec - t0.tvNsec, by omega, by omega, by omega, ?_⟩
    rw [long_of_inLong (inLong_nanos hw (by omega) (by omega)), Option.bind_some]

/-- **The time is exact up to a limit of each platform.** For all times in order and every `long` of
at least 32 bits, `_cal_dt_us` is the number of whole microseconds between them, with no overflow on
the way, if and only if this number fits into 32 unsigned bits and into `long`. -/
theorem calDtUs_eq_iff (t0 t1 : Timespec w) (hw : 32 ≤ w) (h : t0.nanos ≤ t1.nanos) :
    calDtUs t0 t1 = some (micros t0 t1) ↔ micros t0 t1 < 2 ^ 32 ∧ micros t0 t1 < 2 ^ (w - 1) := by
  obtain ⟨dS, dNs, hS, hNs, hsum, heq⟩ := calDtUs_eq hw h
  unfold micros
  rw [heq, ← hsum, ← dtUs_eq_some_iff hS hNs]
  constructor
  · intro hsome
    obtain ⟨_, hlong, hdt⟩ := Option.bind_eq_some_iff.mp hsome
    obtain ⟨-, rfl⟩ := long_eq_some.mp hlong
    exact hdt
  · intro hdt
    -- the seconds are fewer than the microseconds
    have hlt := ((dtUs_eq_some_iff hS hNs).mp hdt).2
    have hpow : ((2 ^ (w - 1) : ℕ) : ℤ) = 2 ^ (w - 1) := by norm_num
    have hlong : InLong w dS := by constructor <;> omega
    rw [long_of_inLong hlong, Option.bind_some, hdt]

/-- A number of whole seconds. -/
def seconds (s : ℕ) (hs : InLong w s) : Timespec w := ⟨s, 0, hs, le_rfl, by norm_num⟩

theorem calDtUs_hour : calDtUs (seconds 0 (by decide) : Timespec 64) (seconds 3600 (by decide)) =
    some (micros (seconds 0 (by decide) : Timespec 64) (seconds 3600 (by decide))) ↔
    micros (seconds 0 (by decide) : Timespec 64) (seconds 3600 (by decide)) < 2 ^ 32 ∧
      micros (seconds 0 (by decide) : Timespec 64) (seconds 3600 (by decide)) < 2 ^ (64 - 1) :=
  calDtUs_eq_iff _ _ (by decide) (by decide)

/-- 72 minutes are taken for 25 s, and with a `long` of 32 bits 36 minutes overflow. -/
theorem calDtUs_wraps :
    (¬ ∀ t0 t1 : Timespec 64, t0.nanos ≤ t1.nanos → calDtUs t0 t1 = some (micros t0 t1)) ∧
      ¬ ∀ t0 t1 : Timespec 32, t0.nanos ≤ t1.nanos → calDtUs t0 t1 = some (micros t0 t1) := by
  constructor
  · intro h
    have hwrap : calDtUs (seconds 0 (by decide) : Timespec 64) (seconds 4320 (by decide)) =
        some 25032704 := by decide
    have hexact := h (seconds 0 (by decide)) (seconds 4320 (by decide)) (by decide)
    rw [hwrap] at hexact
    exact absurd hexact (by decide)
  · intro h
    have hoverflow : calDtUs (seconds 0 (by decide) : Timespec 32) (seconds 2160 (by decide)) =
        none := by decide
    have hexact := h (seconds 0 (by decide)) (seconds 2160 (by decide)) (by decide)
    rw [hoverflow] at hexact
    exact absurd hexact (by decide)

end Time

end MaixSpeech.Wav
