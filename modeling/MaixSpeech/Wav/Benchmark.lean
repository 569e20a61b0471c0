import MaixSpeech.Common.CString

/-!
# `benchmark`

Reference: `components/utils/src/benchmark.c`.

The test over wav files. While a file is recognised the decoder calls back with the most likely
syllables, which `test_rawcb` appends to one static buffer, and with words, which `test_lvcsrcb`
copies into another. What the library and the signal handler do is part of the input: the callbacks
and the return value of each `ms_asr_run`, and whether `exit_flag` is raised. `none` stands for a
write behind the end of a buffer.
-/

namespace MaixSpeech.Wav

open Common

/-- `PNY_RESULT_LEN` and `HAN_RESULT_LEN`. -/
abbrev resultLen : ℕ := 512

/-- A callback: the first index of each time step, or words. -/
inductive Callback (n : ℕ) where
  | raw (tops : List (Fin n))
  | lvcsr (words : CStr)

/-- A call of `ms_asr_run(1)`: its callbacks and its return value. -/
structure Run (n : ℕ) where
  callbacks : List (Callback n)
  frames : ℤ

/-- What happens to a file: the result of `ms_asr_set_dev`, the calls of `ms_asr_run` up to the one
that returns no frame or to the raising of `exit_flag`, and `exit_flag` behind them. -/
structure WavFile (n : ℕ) where
  name : CStr
  setDev : ℤ
  runs : List (Run n)
  exitFlag : Bool

/-- `am_vocab` with its `vocab_cnt` syllables, and the arguments of `benchmark`. -/
structure WavEnv (n : ℕ) where
  vocab : Fin n → CStr
  testpny : Bool
  testhan : Bool

/-- The two static buffers. -/
structure Bufs where
  pnyResult : List UInt8
  hanResult : List UInt8
deriving DecidableEq

variable {n : ℕ}

/-! ## The callbacks -/

/-- One time step of `test_rawcb`; the last index is silence. -/
def testRawStep (vocab : Fin n → CStr) (pnyResult : List UInt8) (top : Fin n) :
    Option (List UInt8) :=
  if (top : ℕ) = n - 1 then some pnyResult
  else (strcat pnyResult (vocab top).1).bind fun pnyResult => strcat pnyResult (bytes " ")

/-- `test_rawcb`. -/
def testRawcb (vocab : Fin n → CStr) (pnyResult : List UInt8) (tops : List (Fin n)) :
    Option (List UInt8) :=
  tops.foldlM (testRawStep vocab) pnyResult

/-- `test_lvcsrcb`. -/
def testLvcsrcb (hanResult : List UInt8) (words : CStr) : Option (List UInt8) :=
  strcpy hanResult words.1

/-- A callback of a decoder; `init_am_lm` has configured those that are tested. -/
def callback (env : WavEnv n) (b : Bufs) : Callback n → Option Bufs
  | .raw tops =>
    if env.testpny then
      (testRawcb env.vocab b.pnyResult tops).map fun pnyResult => { b with pnyResult }
    else some b
  | .lvcsr words =>
    if env.testhan then (testLvcsrcb b.hanResult words).map fun hanResult => { b with hanResult }
    else some b

/-! ## The files -/

/-- `while(!exit_flag)`: the buffers, `total_frames`, and whether `exit_flag` has ended the loop. -/
def runLoop (env : WavEnv n) : List (Run n) → Bufs → ℕ → Option (Bufs × ℕ × Bool)
  | [], b, totalFrames => some (b, totalFrames, true)
  | r :: runs, b, totalFrames =>
    (r.callbacks.foldlM (callback env) b).bind fun b =>
      if r.frames < 1 then some (b, totalFrames + 1, false) else runLoop env runs b (totalFrames + 1)

/-- The state between two files: `pnyFile` and `hanFile` are the lines written so far. -/
structure WavSt where
  totalFrames : ℕ
  pnyFile : List (CStr × List UInt8)
  hanFile : List (CStr × List UInt8)

/-- The buffers behind the two `memset`s in front of each file. -/
def clearedBufs : Bufs := ⟨List.replicate resultLen 0, List.replicate resultLen 0⟩

/-- The two `fprintf`s behind a file. -/
def writeResults (env : WavEnv n) (name : CStr) (b : Bufs) (st : WavSt) : WavSt :=
  { st with
    pnyFile := st.pnyFile ++ if env.testpny then [(name, cstr b.pnyResult)] else []
    hanFile := st.hanFile ++ if env.testhan then [(name, cstr b.hanResult)] else [] }

/-- The loop over the files. -/
def testFiles (env : WavEnv n) : List (WavFile n) → WavSt → Option WavSt
  | [], st => some st
  | f :: files, st =>
    if f.setDev ≠ 0 then some st
    else (runLoop env f.runs clearedBufs st.totalFrames).bind fun (b, totalFrames, exit) =>
      if exit || f.exitFlag then some { st with totalFrames }
      else testFiles env files (writeResults env f.name b { st with totalFrames })

/-- `benchmark` on the files that were found. -/
def benchmark (env : WavEnv n) (files : List (WavFile n)) : Option WavSt :=
  if env.testpny || env.testhan then testFiles env files ⟨0, [], []⟩ else some ⟨0, [], []⟩

end MaixSpeech.Wav
