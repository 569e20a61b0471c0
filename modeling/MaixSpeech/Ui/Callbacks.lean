import Mathlib.Data.Rat.Defs
import MaixSpeech.Common.CString
import MaixSpeech.Display.Framebuffer
import MaixSpeech.Font.Text

/-!
# The screen of `main.cpp`

Reference: `projects/maix_asr/main/src/main.cpp`.

`main.cpp` keeps one picture, `lcd_buf`. The clearing functions and the result callbacks change it
with `memset` and `font_draw` and show it, or its upper rows, with `fb_display`. An operation is
modelled by the new `lcd_buf` and the calls of `fb_display` it makes, each with the picture as it
stood then; `none` stands for an access out of bounds.
-/

namespace MaixSpeech.Ui

open Common Font Display

/-! ## The picture -/

abbrev lcdW : ℕ := 240
abbrev lcdH : ℕ := 240

/-- `lcd_buf`. -/
abbrev LcdBuf := Arr UInt8 (lcdW * lcdH * 4)

/-- A call of `fb_display` on `lcd_buf`, without mask, pan and offset. -/
structure FbCall where
  rgbbuff : LcdBuf
  xSize : ℕ
  ySize : ℕ

/-- `memset` of `len` bytes from `lcd_buf + ofs` on. -/
def memset (lcdBuf : LcdBuf) (ofs : ℤ) (v : UInt8) (len : ℤ) : Option LcdBuf :=
  if 0 ≤ len then lcdBuf.fill ofs len.toNat v else none

/-- `lcd_init`: the value of `l_bpp` for the depth that `fb_get_bpp` returns. -/
def lcdInit (fbGetBpp : ℤ) : ℤ :=
  let lBpp := if fbGetBpp = 16 then 24 else fbGetBpp
  if lBpp = -1 then 24 else lBpp

/-- The body of the two clearing functions: white, then black, from `lcd_buf + ofs` on. -/
def lcdFlash (lBpp ofs : ℤ) (lcdBuf : LcdBuf) : Option (LcdBuf × List FbCall) :=
  (memset lcdBuf ofs 0xff ((lcdW * lcdH * lBpp).tdiv 8)).bind fun white =>
    (memset white ofs 0x00 ((lcdW * lcdH * lBpp).tdiv 8)).map fun black =>
      (black, [⟨white, lcdW, lcdH⟩, ⟨black, lcdW, lcdH⟩])

/-- `lcd_clear`. -/
def lcdClear (lBpp : ℤ) (lcdBuf : LcdBuf) : Option (LcdBuf × List FbCall) :=
  lcdFlash lBpp 0 lcdBuf

/-- `lcd_clear1`: it keeps the title rows, but clears as many bytes as `lcd_clear`. -/
def lcdClear1 (lBpp : ℤ) (lcdBuf : LcdBuf) : Option (LcdBuf × List FbCall) :=
  lcdFlash lBpp ((lcdW * 32 * lBpp).tdiv 8) lcdBuf

/-! ## The result callbacks -/

/-- `FONT_C_YELLOW`. -/
def fontCYellow : UInt32 := 0x0000ffff

/-- `FONT_C_BLUE`. -/
def fontCBlue : UInt32 := 0x00ff0000

/-- The `memset` at the head of every result callback: the rows below the title become black. -/
def clearResult (lBpp : ℤ) (lcdBuf : LcdBuf) : Option LcdBuf :=
  memset lcdBuf ((32 * lcdW * lBpp).tdiv 8) 0 ((lcdW * (lcdH - 32) * lBpp).tdiv 8)

/-- The arguments with which a result callback draws a text. -/
def resultArgs (lBpp yOft : ℤ) : DrawArgs where
  bpp := lBpp
  lcdW := lcdW
  lcdH := lcdH
  charSize := 32
  xOft := 0
  yOft := yOft
  cColor := fontCYellow
  bgColor := fontCBlue

/-- The local copy `digit_res1[32]` of the string. -/
def digitRes1 (digitRes : List UInt8) : Option (Arr UInt8 32) :=
  (Arr.fill (fun _ => 0) 0 32 0x20).bind fun (a : Arr UInt8 32) =>
    (a.store 31 0).bind fun a => a.copy 0 (cstr digitRes)

/-- An `int` passed as `unsigned int`. -/
def asUnsigned (n : ℤ) : ℕ := (n % 2 ^ 32).toNat

/-- `my_digitcb` on the bytes from `data` on. -/
def myDigitcb (env : FontEnv) (lBpp : ℤ) (digitRes : List UInt8) (lcdBuf : LcdBuf) :
    Option (LcdBuf × List FbCall) :=
  (digitRes1 digitRes).bind fun _ =>
    (clearResult lBpp lcdBuf).bind fun lcdBuf =>
      (fontDraw env lcdBuf (resultArgs lBpp 32) digitRes).map fun (lcdBuf, lastY) =>
        (lcdBuf, [⟨lcdBuf, lcdW, asUnsigned lastY⟩])

/-- `my_lvcsrcb` on the words. -/
def myLvcsrcb (env : FontEnv) (lBpp : ℤ) (words : List UInt8) (lcdBuf : LcdBuf) :
    Option (LcdBuf × List FbCall) :=
  (clearResult lBpp lcdBuf).bind fun lcdBuf =>
    (fontDraw env lcdBuf (resultArgs lBpp 32) words).map fun (lcdBuf, lastY) =>
      let flashH : ℤ := if lastY > lcdH then lcdH else lastY
      (lcdBuf, [⟨lcdBuf, lcdW, asUnsigned flashH⟩])

/-- `my_kw_str`. -/
def myKwStr : List (List UInt8) :=
  [bytes "XIAO AI TONG XU", bytes "TIAN MAO JING L", bytes "TIAN QI ZEN ME"]

/-- The floating-point numbers of `my_kwscb`: `>`, the constant -1, and `> 0.1`. -/
structure Scores (F : Type*) where
  gt : F → F → Bool
  negOne : F
  gtGate : F → Bool

/-- Scores in exact arithmetic. -/
def Scores.rational : Scores ℚ := ⟨fun a b => decide (b < a), -1, fun a => decide (1 / 10 < a)⟩

/-- The loop of `my_kwscb`: `maxp` and `maxi`. -/
def kwsMax {F : Type*} (num : Scores F) (p : List F) : F × ℕ :=
  p.zipIdx.foldl (fun (maxp, maxi) (v, i) => if num.gt v maxp then (v, i) else (maxp, maxi))
    (num.negOne, 0)

/-- `my_kwscb`. -/
def myKwscb {F : Type*} (env : FontEnv) (lBpp : ℤ) (num : Scores F) (p : List F) (lcdBuf : LcdBuf) :
    Option (LcdBuf × List FbCall) :=
  let (maxp, maxi) := kwsMax num p
  (clearResult lBpp lcdBuf).bind fun lcdBuf =>
    (if num.gtGate maxp then
      (myKwStr[maxi]?).bind fun str =>
        (fontDraw env lcdBuf (resultArgs lBpp ((maxi + 1) * 32)) (str ++ [0])).map Prod.fst
    else some lcdBuf).map fun lcdBuf => (lcdBuf, [⟨lcdBuf, lcdW, 32 * 5⟩])

/-! ## The operations -/

/-- A result callback with its data: a text, or the scores of the keywords. -/
inductive Callback (F : Type*) where
  | digit (text : List Character)
  | lvcsr (words : List Character)
  | kws (p : List F)

/-- An operation of the user interface. -/
inductive UiOp (F : Type*) where
  | clear
  | clear1
  | result (cb : Callback F)

/-- A text as a C string. -/
def textCstr (text : List Character) : List UInt8 := textBytes text ++ [0]

/-- What a result callback does. -/
def callback {F : Type*} (env : FontEnv) (num : Scores F) (lBpp : ℤ) :
    Callback F → LcdBuf → Option (LcdBuf × List FbCall)
  | .digit text => myDigitcb env lBpp (textCstr text)
  | .lvcsr words => myLvcsrcb env lBpp (textCstr words)
  | .kws p => myKwscb env lBpp num p

/-- What an operation does. -/
def uiOp {F : Type*} (env : FontEnv) (num : Scores F) (lBpp : ℤ) :
    UiOp F → LcdBuf → Option (LcdBuf × List FbCall)
  | .clear => lcdClear lBpp
  | .clear1 => lcdClear1 lBpp
  | .result cb => callback env num lBpp cb

/-- The data of a callback is as the library hands it out: the glyphs of a text are available, and
there are at most three keywords. -/
def Callback.Ok {F : Type*} (env : FontEnv) : Callback F → Prop
  | .digit text => TextAvailable env size32 text
  | .lvcsr words => TextAvailable env size32 words
  | .kws p => p.length ≤ 3

/-- So is the data of an operation. -/
def UiOp.Ok {F : Type*} (env : FontEnv) : UiOp F → Prop
  | .clear => True
  | .clear1 => True
  | .result cb => cb.Ok env

end MaixSpeech.Ui
