import MaixSpeech.Common.CString
import Mathlib.Algebra.Order.Ring.Int
import Mathlib.Data.Rat.Defs
import Mathlib.Logic.Function.Basic

/-!
# The options record

Reference: `components/utils/include/opts.h` and `components/utils/src/opts.c`.

`opts_t` of `opts.h`, its keys as `parse_opts` knows them, and the assignment one `key:value` line
makes. The record is generic in what stands for a string option: the parser stores an offset into
its buffer, the reference semantics the string itself.
-/

namespace MaixSpeech.Config

open Common

/-! ## Constants of `ms_asr.h` -/

def devicePcm : ℤ := 0
def deviceMic : ℤ := 1
def deviceWav : ℤ := 2
def deviceMic2 : ℤ := 3
def deviceMic4 : ℤ := 4
def deviceCustom : ℤ := 5

def cnPhone : ℤ := 0
def cnPny : ℤ := 1
def cnPnytone : ℤ := 2
def cnHan : ℤ := 3
def enSw1k : ℤ := 5
def enSw3k : ℤ := 6
def enSw5k : ℤ := 7

/-- `'\n'`, `'\r'`, `':'` and `'#'`. -/
abbrev newline : UInt8 := 10
abbrev cr : UInt8 := 13
abbrev colon : UInt8 := 58
abbrev hash : UInt8 := 35

/-! ## The record -/

/-- The string options. -/
inductive StrOpt where
  | deviceName | modelName | sfstName | symName | phonesTxt | wordsTxt | fontPath | testpath | testlm
deriving DecidableEq, Repr

/-- The integer options, `device_type` and `phone_type` apart. -/
inductive IntOpt where
  | modelInLen | stripL | stripR | agc | isMmap
  | dbgMicraw | dbgMic | dbgStrip | dbgLvcsr | dbgtPp | dbgtAm | dbgtKws | dbgtWfst
  | doRaw | doDig | doKws | doLvcsr | testpny | testhan
deriving DecidableEq, Repr

/-- The floating-point options. -/
inductive FloatOpt where
  | beam | bgProb | scale
deriving DecidableEq, Repr

/-- A key `parse_opts` recognises. -/
inductive Key where
  | deviceType | phoneType
  | str (o : StrOpt)
  | int (o : IntOpt)
  | float (o : FloatOpt)
deriving DecidableEq, Repr

/-- The C library's conversions and the floats they produce: `isZero x` is the test `x == 0`. -/
structure CNum (F : Type*) where
  atoi : List UInt8 → ℤ
  atof : List UInt8 → F
  zero : F
  isZero : F → Bool
  isZero_zero : isZero zero = true
  atoi_int : ∀ s, -2 ^ 31 ≤ atoi s ∧ atoi s < 2 ^ 31

/-- The digits at the head of `s` as a number. -/
def readDigits (s : List UInt8) : ℕ :=
  (s.takeWhile fun b => 48 ≤ b ∧ b ≤ 57).foldl (fun n b => 10 * n + (b.toNat - 48)) 0

/-- The sign of a number, 1 if there is none, and the text behind it. -/
def readSign (s : List UInt8) : ℤ × List UInt8 :=
  match s.dropWhile (· = 32) with
  | 45 :: s => (-1, s)
  | 43 :: s => (1, s)
  | s => (1, s)

/-- The fraction behind the digits at the head of `s`. -/
def readFrac (s : List UInt8) : ℚ :=
  match s.dropWhile fun b => 48 ≤ b ∧ b ≤ 57 with
  | 46 :: t => readDigits t / 10 ^ (t.takeWhile fun b => 48 ≤ b ∧ b ≤ 57).length
  | _ => 0

theorem bmod_int (x : ℤ) : -2 ^ 31 ≤ x.bmod (2 ^ 32) ∧ x.bmod (2 ^ 32) < 2 ^ 31 := by
  have hle := Int.le_bmod (x := x) (m := 2 ^ 32) (by decide)
  have hlt := Int.bmod_lt (x := x) (m := 2 ^ 32) (by decide)
  omega

/-- The conversions on plain decimal numbers, with exact rationals for the floats and `int` wrapping
at 32 bits. Exponents are not read. -/
def CNum.decimal : CNum ℚ where
  atoi s := ((readSign s).1 * readDigits (readSign s).2).bmod (2 ^ 32)
  atof s := (readSign s).1 * (readDigits (readSign s).2 + readFrac (readSign s).2)
  zero := 0
  isZero x := x == 0
  isZero_zero := rfl
  atoi_int _ := bmod_int _

example : CNum.decimal.atoi (bytes "-364x") = -364 ∧ CNum.decimal.atof (bytes "16.25") = 65 / 4 := by
  decide +kernel

/-- `opts_t`, with `S` for a `char*` that is not `NULL`. -/
structure Opts (F S : Type*) where
  deviceType : ℤ
  phoneType : ℤ
  str : StrOpt → Option S
  int : IntOpt → ℤ
  float : FloatOpt → F

variable {F S : Type*}

/-- `memset(&opts, 0, sizeof(opts_t))`. -/
def Opts.cleared (lib : CNum F) : Opts F S :=
  ⟨0, 0, fun _ => none, fun _ => 0, fun _ => lib.zero⟩

/-! ## Keys and values -/

/-- The `strcmp` chain of `parse_opts`, in its order. -/
def keyTable : List (String × Key) :=
  [("device_type", .deviceType), ("device_name", .str .deviceName),
    ("model_name", .str .modelName), ("model_in_len", .int .modelInLen),
    ("strip_l", .int .stripL), ("strip_r", .int .stripR), ("agc", .int .agc),
    ("phone_type", .phoneType),
    ("sfst_name", .str .sfstName), ("sym_name", .str .symName),
    ("phones_txt", .str .phonesTxt), ("words_txt", .str .wordsTxt),
    ("font_path", .str .fontPath), ("beam", .float .beam), ("bg_prob", .float .bgProb),
    ("scale", .float .scale), ("is_mmap", .int .isMmap),
    ("dbg_micraw", .int .dbgMicraw), ("dbg_mic", .int .dbgMic), ("dbg_strip", .int .dbgStrip),
    ("dbg_lvcsr", .int .dbgLvcsr), ("dbgt_pp", .int .dbgtPp), ("dbgt_am", .int .dbgtAm),
    ("dbgt_kws", .int .dbgtKws), ("dbgt_wfst", .int .dbgtWfst),
    ("do_raw", .int .doRaw), ("do_dig", .int .doDig), ("do_kws", .int .doKws),
    ("do_lvcsr", .int .doLvcsr),
    ("testpath", .str .testpath), ("testpny", .int .testpny), ("testhan", .int .testhan),
    ("testlm", .str .testlm)]

/-- The key a line's text before the colon names. -/
def keyOf (name : List UInt8) : Option Key :=
  (keyTable.find? fun e => bytes e.1 = name).map (·.2)

/-- `_get_device_type`. -/
def getDeviceType (val : List UInt8) : ℤ :=
  if val = bytes "pcm" then devicePcm
  else if val = bytes "mic" then deviceMic
  else if val = bytes "wav" then deviceWav
  else if val = bytes "mic2" then deviceMic2
  else if val = bytes "mic4" then deviceMic4
  else if val = bytes "custom" then deviceCustom
  else -1

/-- `_get_phone_type`. -/
def getPhoneType (val : List UInt8) : ℤ :=
  if val = bytes "phone" then cnPhone
  else if val = bytes "pny" then cnPny
  else if val = bytes "pnytone" then cnPnytone
  else if val = bytes "han" then cnHan
  else if val = bytes "sw1k" then enSw1k
  else if val = bytes "sw3k" then enSw3k
  else if val = bytes "sw5k" then enSw5k
  else -1

/-- The values the phone types have. -/
def phoneTypes : List ℤ := [cnPhone, cnPny, cnPnytone, cnHan, enSw1k, enSw3k, enSw5k]

theorem getPhoneType_mem {val : List UInt8} (h : 0 ≤ getPhoneType val) :
    getPhoneType val ∈ phoneTypes := by
  unfold getPhoneType at h ⊢
  split_ifs at h ⊢ <;> first | decide | exact absurd h (by decide)

/-- The assignment for one recognised key: the new options, and whether the loop breaks. A string
option takes `ref`, which stands for the value. -/
def setOpt (lib : CNum F) (k : Key) (val : List UInt8) (ref : S) (o : Opts F S) :
    Opts F S × Bool :=
  match k with
  | .deviceType => ({ o with deviceType := getDeviceType val }, getDeviceType val < 0)
  | .phoneType => ({ o with phoneType := getPhoneType val }, getPhoneType val < 0)
  | .str k => ({ o with str := Function.update o.str k (some ref) }, false)
  | .int k => ({ o with int := Function.update o.int k (lib.atoi val) }, false)
  | .float k => ({ o with float := Function.update o.float k (lib.atof val) }, false)

/-- The check at the end of `parse_opts` that rejects the options. -/
def Opts.rejected (lib : CNum F) (o : Opts F S) : Bool :=
  o.deviceType > deviceWav || (o.str .deviceName).isNone ||
  (o.str .modelName).isNone || o.int .modelInLen == 0 || o.phoneType < 0 ||
  (o.str .sfstName).isNone || (o.str .symName).isNone || (o.str .phonesTxt).isNone ||
  (o.str .wordsTxt).isNone || (o.str .fontPath).isNone ||
  lib.isZero (o.float .beam) || lib.isZero (o.float .bgProb) || lib.isZero (o.float .scale)

end MaixSpeech.Config
