import MaixSpeech.Common.Loop
import MaixSpeech.Font.Draw

/-!
# The framebuffer

Reference: `components/utils/src/fb_display.c`.

`fb_display` shows a picture in two steps: `convertRGB2FB` turns three bytes a pixel into the
screen's own encoding, and `blit2FB` copies the rows into the mapped framebuffer. `none` stands for
an access out of bounds, an `int` overflow, a division by zero or an `exit`. Shared memory is
little-endian.
-/

namespace MaixSpeech.Display

open Common
open Font (Rgb)

/-! ## Machine integers -/

/-- A result of `unsigned int` arithmetic. -/
def u32 (n : ℕ) : ℕ := n % 2 ^ 32

/-- A difference of two `unsigned int`s. -/
def u32Sub (a b : ℕ) : ℕ := u32 (a + (2 ^ 32 - u32 b))

/-- An `unsigned int` stored in an `int`. -/
def asInt (n : ℕ) : ℤ := if u32 n < 2 ^ 31 then u32 n else u32 n - 2 ^ 32

/-- A product of two `int`s as the length of a `memcpy`. -/
def intSize (n : ℤ) : Option ℕ := if 0 ≤ n ∧ n < 2 ^ 31 then some n.toNat else none

/-! ## Pixels -/

/-- The depths `convertRGB2FB` supports. -/
inductive Depth where
  | d8 | d15 | d16 | d24 | d32
deriving DecidableEq, Repr

/-- Bits per pixel. -/
def Depth.bpp : Depth → ℕ
  | d8 => 8
  | d15 => 15
  | d16 => 16
  | d24 => 24
  | d32 => 32

/-- The `switch` on `bpp`. -/
def Depth.ofBpp (bpp : ℕ) : Option Depth :=
  if bpp = 8 then some d8
  else if bpp = 15 then some d15
  else if bpp = 16 then some d16
  else if bpp = 24 then some d24
  else if bpp = 32 then some d32
  else none

/-- `cpp`, the bytes per pixel. -/
def Depth.cpp : Depth → ℕ
  | d8 => 1
  | d15 => 2
  | d16 => 2
  | d24 => 3
  | d32 => 4

def make8color (r g b : UInt8) : UInt8 :=
  (((r >>> 5) &&& 7) <<< 5) ||| (((g >>> 5) &&& 7) <<< 2) ||| ((b >>> 6) &&& 3)

def make15color (r g b : UInt8) : UInt16 :=
  (((r.toUInt16 >>> 3) &&& 31) <<< 10) ||| (((g.toUInt16 >>> 3) &&& 31) <<< 5) |||
    ((b.toUInt16 >>> 3) &&& 31)

def make16color (r g b : UInt8) : UInt16 :=
  (((r.toUInt16 >>> 3) &&& 31) <<< 11) ||| (((g.toUInt16 >>> 2) &&& 63) <<< 5) |||
    ((b.toUInt16 >>> 3) &&& 31)

/-- The word `convertRGB2FB` stores for a 32-bit pixel. -/
def make32color (r g b : UInt8) : UInt32 :=
  (0xFF000000 : UInt32) ||| (r.toUInt32 <<< 16 &&& (0xFF0000 : UInt32)) |||
    (g.toUInt32 <<< 8 &&& (0xFF00 : UInt32)) ||| (b.toUInt32 &&& (0xFF : UInt32))

/-- A `short` in memory. -/
def bytes16 (v : UInt16) : List UInt8 := [v.toUInt8, (v >>> 8).toUInt8]

/-- An `int` in memory. -/
def bytes32 (v : UInt32) : List UInt8 :=
  [v.toUInt8, (v >>> 8).toUInt8, (v >>> 16).toUInt8, (v >>> 24).toUInt8]

/-- The bytes of a pixel at this depth. -/
def encode : Depth → Rgb → List UInt8
  | .d8, c => [make8color c.red c.green c.blue]
  | .d15, c => bytes16 (make15color c.red c.green c.blue)
  | .d16, c => bytes16 (make16color c.red c.green c.blue)
  | .d24, c => [c.blue, c.green, c.red]
  | .d32, c => bytes32 (make32color c.red c.green c.blue)

@[simp] theorem length_encode (d : Depth) (c : Rgb) : (encode d c).length = d.cpp := by
  cases d <;> rfl

/-- Pixel number `i` of the picture. -/
def rgbAt {n : ℕ} (rgbbuff : Arr UInt8 n) (i : ℕ) : Option Rgb :=
  (rgbbuff.load (i * 3)).bind fun r =>
    (rgbbuff.load (i * 3 + 1)).bind fun g =>
      (rgbbuff.load (i * 3 + 2)).map fun b => ⟨r, g, b⟩

/-- `convertRGB2FB` at a supported depth: the bytes of `fbbuff`. -/
def convertRGB2FB {n : ℕ} (rgbbuff : Arr UInt8 n) (count : ℕ) (d : Depth) : Option (List UInt8) :=
  forLoop count (fun i fbbuff => (rgbAt rgbbuff i).map fun c => fbbuff ++ encode d c) []

/-! ## Copying -/

/-- What `fb_display` reads of the screen's `var` and `fix` information, and the size of its memory.
-/
structure Screen where
  bitsPerPixel : ℕ
  yres : ℕ
  yresVirtual : ℕ
  yoffset : ℕ
  lineLength : ℕ
  memLen : ℕ
deriving DecidableEq, Repr

/-- `memcpy` of `len` bytes of the picture into the mapped part of the framebuffer. No bytes are no
access. -/
def copyRow {n : ℕ} (fb : Arr UInt8 n) (mapLen dst : ℕ) (fbbuff : List UInt8) (src len : ℕ) :
    Option (Arr UInt8 n) :=
  if len = 0 then some fb
  else if dst + len ≤ mapLen ∧ src + len ≤ fbbuff.length then
    fb.copy dst ((fbbuff.drop src).take len)
  else none

/-- The search for the next opaque run from column `x` on: `from` and `to`, `none` for -1. -/
def findOpaque (alphaptr : ℕ → Option UInt8) (xc x : ℕ) : Option (Option ℕ × Option ℕ) :=
  forLoop (xc - x) (fun k st =>
    match st with
    | (start, some stop) => some (start, some stop)
    | (none, none) =>
      (alphaptr (x + k)).map fun a => if a > 0x80 then (some (x + k), none) else (none, none)
    | (some start, none) =>
      (alphaptr (x + k)).map fun a =>
        if a < 0x80 then (some start, some (x + k)) else (some start, none)) (none, none)

/-- The loop of a masked row from column `x` on. -/
def copyMasked {n : ℕ} (mapLen dst : ℕ) (fbbuff : List UInt8) (src : ℕ)
    (alphaptr : ℕ → Option UInt8) (xc cpp : ℕ) : ℕ → ℕ → Arr UInt8 n → Option (Arr UInt8 n)
  | 0, _, _ => none
  | fuel + 1, x, fb =>
    if x < xc then
      (findOpaque alphaptr xc x).bind fun
        | (none, _) => some fb
        | (some start, stop) =>
          let stop := stop.getD xc
          (intSize (start * cpp)).bind fun ofs =>
            (intSize ((stop - start - 1) * cpp)).bind fun len =>
              (copyRow fb mapLen (dst + ofs) fbbuff (src + ofs) len).bind fun fb =>
                copyMasked mapLen dst fbbuff src alphaptr xc cpp fuel (x + (stop - start - 1) + 1) fb
    else some fb

/-- `blit2FB`: `alpha` reads the mask by index. A `mmap` larger than the screen's memory fails. -/
def blit2FB {n : ℕ} (fb : Arr UInt8 n) (fbbuff : List UInt8) (alpha : Option (ℕ → Option UInt8))
    (picXs picYs scrXs scrYs xp yp xoffs yoffs cpp : ℕ) : Option (Arr UInt8 n) :=
  let xc := asInt (if picXs > scrXs then scrXs else picXs)
  let yc := asInt (if picYs > scrYs then scrYs else picYs)
  let mapLen := u32 (scrXs * scrYs * cpp)
  if mapLen = 0 ∨ n < mapLen then some fb
  else
    let fbptr := u32 ((yoffs * scrXs + xoffs) * cpp)
    let imptr := u32 ((yp * picXs + xp) * cpp)
    match alpha with
    | none =>
      forLoop yc.toNat (fun i fb => (intSize (xc * cpp)).bind fun len =>
        copyRow fb mapLen (fbptr + i * u32 (scrXs * cpp)) fbbuff (imptr + i * u32 (picXs * cpp)) len) fb
    | some alpha =>
      let alphaptr := u32 (yp * picXs + xp)
      forLoop yc.toNat (fun i fb =>
        copyMasked mapLen (fbptr + i * u32 (scrXs * cpp)) fbbuff (imptr + i * u32 (picXs * cpp))
          (fun v => alpha (alphaptr + i * picXs + v)) xc.toNat cpp (xc.toNat + 1) 0 fb) fb

/-- `fb_display` on an open device: the framebuffer behind the call. -/
def fbDisplay {n : ℕ} (scr : Screen) (fb : Arr UInt8 scr.memLen) (rgbbuff : Arr UInt8 n)
    (alpha : Option (ℕ → Option UInt8)) (xSize ySize xPan yPan xOffs yOffs : ℕ) :
    Option (Arr UInt8 scr.memLen) :=
  if scr.bitsPerPixel = 0 then none
  else
    let xStride := u32 (scr.lineLength * 8) / scr.bitsPerPixel
    let xPan := if xPan > u32Sub xSize xStride then 0 else xPan
    let yPan := if yPan > u32Sub ySize scr.yres then 0 else yPan
    let xOffs := if u32 (xOffs + xSize) > xStride then 0 else xOffs
    let yOffs := if u32 (yOffs + ySize) > scr.yres then 0 else yOffs
    (Depth.ofBpp scr.bitsPerPixel).bind fun d =>
      (convertRGB2FB rgbbuff (u32 (xSize * ySize)) d).bind fun fbbuff =>
        blit2FB fb fbbuff alpha xSize ySize xStride scr.yresVirtual xPan yPan xOffs
          (u32 (yOffs + scr.yoffset)) d.cpp

end MaixSpeech.Display
