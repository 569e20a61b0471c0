import MaixSpeech.Config.Options
import Mathlib.Logic.Function.Iterate

/-!
# `parse_opts`

Reference: `components/utils/src/opts.c`.

The parser works in place on the static array `content`: it ends lines, keys and values by storing
NULs into it and hands out offsets into it. One turn of its loop is `parseLine`; the state carries
the options so far, the position and the byte in front of `content`, which a first line that is
empty makes it look at.
-/

namespace MaixSpeech.Config

open Common

variable {F : Type*}

/-- The number of bytes `strchr` reads from the head of `mem`. -/
def strchrReads (c : UInt8) (mem : List UInt8) : ℕ :=
  (mem.takeWhile fun b => b ≠ c ∧ b ≠ 0).length + 1

/-- The state of the parsing loop. `before` is the byte at `content[-1]`, `used` collects the ranges
of indices `[lo, hi)` at which the loop accesses `content`, `stopped` says that a `break` has left
the loop. -/
structure ParseSt (F : Type*) where
  before : UInt8
  content : List UInt8
  opts : Opts F ℕ
  p : ℕ
  used : List (ℤ × ℤ)
  stopped : Bool

/-- `*p_n = 0; if(*(p_n-1)=='\r') *(p_n-1) = 0;`. -/
def endLine (st : ParseSt F) (pn : ℕ) : ParseSt F :=
  let content := st.content.set pn 0
  let st := { st with content, used := (pn - 1, pn + 1) :: st.used }
  if pn = 0 then
    -- `p_n-1` lies in front of `content`
    { st with before := if st.before = cr then 0 else st.before }
  else if content[pn - 1]? = some cr then { st with content := content.set (pn - 1) 0 }
  else st

/-- The part of a turn behind the end of the line: find the colon, compare the key, assign. -/
def parseEntry (lib : CNum F) (st : ParseSt F) (pn : ℕ) : ParseSt F :=
  let st := { st with used := (st.p, st.p + strchrReads colon (st.content.drop st.p)) :: st.used }
  match strchr colon (st.content.drop st.p) with
  | none => { st with p := pn + 1 }
  | some k =>
    let pColon := st.p + k
    let content := st.content.set pColon 0
    let pVal := pColon + 1
    let st := { st with content, used := (pColon, pn + 1) :: st.used }
    match keyOf (cstr (content.drop st.p)) with
    | none => { st with p := pn + 1 }
    | some key =>
      let (opts, brk) := setOpt lib key (cstr (content.drop pVal)) pVal st.opts
      if brk then { st with opts, stopped := true } else { st with opts, p := pn + 1 }

/-- The body of the parsing loop. -/
def parseLine (lib : CNum F) (st : ParseSt F) : ParseSt F :=
  let st := { st with used := (st.p, st.p + strchrReads newline (st.content.drop st.p)) :: st.used }
  match strchr newline (st.content.drop st.p) with
  | none => { st with stopped := true }
  | some n =>
    let pn := st.p + n
    if st.content[st.p]? = some hash then { st with p := pn + 1 }
    else parseEntry lib (endLine st pn) pn

/-- One turn of `for(char* p = content; p < content+size; )`; nothing happens once it is left. -/
def parseStep (lib : CNum F) (size : ℕ) (st : ParseSt F) : ParseSt F :=
  if st.stopped = false ∧ st.p < size then parseLine lib st else st

/-- The state after at most `n` turns. -/
def parseLoop (lib : CNum F) (size n : ℕ) (st : ParseSt F) : ParseSt F :=
  (parseStep lib size)^[n] st

/-- What a call of `parse_opts` leaves: its return value, the options, `content` and the byte in
front of it, the indices used on `content`, and the index the dump uses on `device_type_str`, if it
runs. -/
structure ParseResult (F : Type*) where
  ret : ℤ
  opts : Opts F ℕ
  content : List UInt8
  before : UInt8
  used : List (ℤ × ℤ)
  dumped : Option ℤ

/-- `int size = ftell(fp)`. -/
def cfgSize (file : List UInt8) : ℤ := (BitVec.ofNat 32 file.length).toInt

/-- What `fread` stores of the file: a negative `size` is a huge count. -/
def cfgRead (file : List UInt8) : List UInt8 :=
  if cfgSize file < 0 then file else file.take (cfgSize file).toNat

/-- The loop's state when it starts on the bytes `read`. -/
def startParse (lib : CNum F) (content : List UInt8) (before : UInt8) (read : List UInt8) :
    ParseSt F :=
  { before, content := read ++ content.drop read.length, opts := Opts.cleared lib, p := 0
    used := [(0, read.length)], stopped := false }

/-- `parse_opts`, called with these bytes in and in front of `content`; `file` is `none` when the
file does not open. The dump of the arguments comes before the check and does not affect it. -/
def parseOpts (lib : CNum F) (content : List UInt8) (before : UInt8) (file : Option (List UInt8)) :
    ParseResult F :=
  match file with
  | none => ⟨-1, Opts.cleared lib, content, before, [], none⟩
  | some file =>
    if cfgSize file ≥ 1000 then ⟨-1, Opts.cleared lib, content, before, [], none⟩
    else
      let size := (cfgSize file).toNat
      let st := parseLoop lib size size (startParse lib content before (cfgRead file))
      ⟨if st.opts.rejected lib then -1 else 0, st.opts, st.content, st.before, st.used,
        some st.opts.deviceType⟩

end MaixSpeech.Config
