import MaixSpeech.Common.CString
import MaixSpeech.Common.Loop
import MaixSpeech.Config.Options

/-!
# `lm_benchmark`

Reference: `components/utils/src/lm_benchmark.c`.

The language-model test: each line of a file, a sequence of syllables, becomes a matrix of beam
rows, which goes to the decoder frame by frame. The tokens are cut in place in the file's buffer,
the matrix is one static array that all lines share, and so is the buffer the result comes back in.
`none` stands for undefined behaviour: an access out of bounds, an `int` overflow, a division by
zero.
-/

namespace MaixSpeech.Lm

open Common Config

/-- `BEAM_CNT` and `HAN_RESULT_LEN`. -/
abbrev beamCnt : ℕ := 10
abbrev hanResultLen : ℕ := 512

abbrev space : UInt8 := 32

/-- The number of `am_vocab`'s last entry, the blank. -/
abbrev blank : ℕ := 1249

/-- `pnyp_t`. -/
structure Pnyp (P : Type*) where
  idx : ℕ
  p : P
deriving DecidableEq, Repr

/-- `am_vocab`: 1250 distinct syllables. -/
structure Vocab where
  word : Fin 1250 → CStr
  injective : Function.Injective word

/-- `pnyp_list`. -/
abbrev PnypList (P : Type*) := Arr (Pnyp P) (hanResultLen * beamCnt)

variable {P : Type*} [Zero P] [One P]

/-- The value of an `int` expression, `none` when it overflows. -/
def checkInt (x : ℤ) : Option ℤ := if -2 ^ 31 ≤ x ∧ x < 2 ^ 31 then some x else none

/-! ## `gen_mat_from_pny` -/

/-- The search of a syllable in `am_vocab`; the last match counts. -/
def Vocab.find (v : Vocab) (pny : List UInt8) : ℕ :=
  let pnyi := (List.finRange 1250).foldl
    (fun pnyi j => if (v.word j).1 = pny then (j : ℤ) else pnyi) (-1)
  if pnyi = -1 then blank else pnyi.toNat

/-- The stores that make `row` of the matrix a beam with `idx` in front. -/
def fillRow (list : PnypList P) (row : ℤ) (idx : ℕ) : Option (PnypList P) :=
  (list.store (row * beamCnt + 0) ⟨idx, 1⟩).bind fun list =>
    forLoop (beamCnt - 1)
      (fun i list => list.store (row * beamCnt + (i + 1 : ℕ)) ⟨i + 1, 0⟩) list

/-- The tokenizer on the memory `mem` from position `p` on: the memory with the spaces replaced by
NULs, and the positions behind them. -/
def splitPnys (p : ℕ) (mem : List UInt8) : Option (List UInt8 × List ℕ) :=
  match mem with
  | [] => none
  | b :: mem =>
    if b = 0 then some (b :: mem, [])
    else (splitPnys (p + 1) mem).map fun (mem, pList) =>
      if b = space then (0 :: mem, (p + 1) :: pList) else (b :: mem, pList)

/-- `gen_mat_from_pny` on the string at `pnys`: the memory, the matrix, and the number of rows. -/
def genMatFromPny (v : Vocab) (mem : List UInt8) (pnys : ℕ) (list : PnypList P) :
    Option (List UInt8 × PnypList P × ℕ) :=
  (splitPnys pnys (mem.drop pnys)).bind fun (rest, ps) =>
    let mem := mem.take pnys ++ rest
    let pList := pnys :: ps
    -- `p_list` has room for 512 tokens
    if pList.length > hanResultLen then none
    else (forLoop pList.length (fun i list =>
        (fillRow list (i * 2 : ℕ) (v.find (cstr (mem.drop (pList.getD i 0))))).bind fun list =>
          fillRow list (i * 2 + 1 : ℕ) blank) list).map fun list =>
      (mem, list, pList.length * 2)

/-! ## One line -/

/-- `rest_cnt`, the number of blank rows behind the `cnt` rows of a line. -/
def restCnt (core cnt : ℤ) : Option ℤ := if core = 0 then none else checkInt (core - cnt.tmod core)

/-- The values of `i` in `for(int i=0; i<cnt; i+=model_core_len)`, `none` after `fuel` turns. -/
def chunkStarts (core cnt : ℤ) : ℕ → ℤ → Option (List ℤ)
  | 0, _ => none
  | fuel + 1, i =>
    if i < cnt then
      (checkInt (i + core)).bind fun next => (chunkStarts core cnt fuel next).map (i :: ·)
    else some []

/-- What a line leaves: the memory, the matrix, and the frames the decoder got. -/
structure LineRun (P : Type*) where
  mem : List UInt8
  list : PnypList P
  frames : List (List (Pnyp P))

/-- The work of `lm_benchmark` on the line at `p`, up to the calls of `ms_asr_wfst_run`, each of
which reads `core` rows. -/
def lmLine (v : Vocab) (core : ℤ) (mem : List UInt8) (p : ℕ) (list : PnypList P) :
    Option (LineRun P) :=
  (genMatFromPny v mem p list).bind fun (mem, list, cnt) =>
    (restCnt core cnt).bind fun rest =>
      (forLoop rest.toNat (fun i list => fillRow list (cnt + i) blank) list).bind fun list =>
        (checkInt (cnt + rest)).bind fun total =>
          (chunkStarts core total (total.toNat + 1) 0).bind fun starts =>
            (starts.mapM fun i => list.slice (beamCnt * i) (beamCnt * core).toNat).map fun frames =>
              ⟨mem, list, frames⟩

/-! ## The file -/

/-- `get_pny` on the line at `p`: the memory, with the newline replaced, and the next line. -/
def getPny (mem : List UInt8) (p : ℕ) : Option (List UInt8 × Option ℕ) :=
  ((mem.drop p).findIdx? fun b => b = 0 ∨ b = newline).bind fun k =>
    if mem[p + k]? = some newline then
      mem[p + k + 1]?.map fun b => (mem.set (p + k) 0, if b = 0 then none else some (p + k + 1))
    else some (mem, none)

/-- Everything around the loop: `am_vocab`, `model_core_len`, the words of the LVCSR callbacks the
decoder makes during each `ms_asr_wfst_run` of each line, and `exit_flag` behind each line. -/
structure LmEnv where
  vocab : Vocab
  core : ℤ
  callbacks : ℕ → ℕ → List CStr
  exitFlag : ℕ → Bool

/-- The state of the loop: `hanResult` is the static result buffer, `written` the lines of
`han_result.txt`. `calls` records, line by line, the words the callbacks were given. -/
structure LmSt (P : Type*) where
  mem : List UInt8
  cur : Option ℕ
  list : PnypList P
  hanResult : List UInt8
  written : List (List UInt8)
  calls : List (List CStr)

/-- `test_lvcsrcb`. -/
def testLvcsrcb (hanResult : List UInt8) (words : CStr) : Option (List UInt8) :=
  strcpy hanResult words.1

/-- The turn of the loop for the line at `p`, and whether `exit_flag` ends the loop. -/
def lmTurn (env : LmEnv) (p : ℕ) (st : LmSt P) : Option (LmSt P × Bool) :=
  (getPny st.mem p).bind fun (mem, next) =>
    (lmLine env.vocab env.core mem p st.list).bind fun r =>
      let calls := (List.range r.frames.length).flatMap (env.callbacks st.calls.length)
      (calls.foldlM testLvcsrcb st.hanResult).map fun hanResult =>
        if env.exitFlag st.calls.length then
          ({ st with mem := r.mem, list := r.list, hanResult, calls := st.calls ++ [calls] }, true)
        else
          ({ mem := r.mem, cur := next, list := r.list, hanResult
             written := st.written ++ [cstr hanResult], calls := st.calls ++ [calls] }, false)

/-- `while(p_cur != NULL && (*p_cur != 0))`, `none` after `fuel` turns. -/
def lmLoop (env : LmEnv) : ℕ → LmSt P → Option (LmSt P)
  | 0, _ => none
  | fuel + 1, st =>
    match st.cur with
    | none => some st
    | some p =>
      st.mem[p]?.bind fun b =>
        if b = 0 then some st
        else (lmTurn env p st).bind fun (st, exit) => if exit then some st else lmLoop env fuel st

/-- `model_core_len`. -/
def modelCoreLen {F S : Type*} (opts : Opts F S) : Option ℤ :=
  (checkInt ((opts.int .modelInLen).tdiv 8 - opts.int .stripL)).bind fun x =>
    checkInt (x - opts.int .stripR)

/-- The state of the first call when the loop starts on a buffer with the bytes `mem`. -/
def lmStart (list : PnypList P) (mem : List UInt8) : LmSt P :=
  { mem, cur := some 0, list, hanResult := List.replicate hanResultLen 0, written := [], calls := [] }

/-- The loop of `lm_benchmark` on a buffer with the bytes `mem`, in the first call. -/
def lmBenchmark (env : LmEnv) (list : PnypList P) (mem : List UInt8) : Option (LmSt P) :=
  lmLoop env (mem.length + 1) (lmStart list mem)

end MaixSpeech.Lm
