import MaixSpeech.Common.Loop
import MaixSpeech.Font.Registry

/-!
# `font_draw`

Reference: `components/utils/src/font.c`.

A text is drawn in two steps: the scan finds the glyph of each character, and `fontCharDraw` puts
the glyphs one behind the other, wrapping lines at the right edge. The two renderers differ only in
how a pixel is stored, so they are one definition over a `put`; `paint` is a third `put`, for an
abstract canvas that keeps the colour of every pixel painted. `none` stands for an access out of
bounds.
-/

namespace MaixSpeech.Font

open Common

/-! ## Colours -/

structure Rgb where
  red : UInt8
  green : UInt8
  blue : UInt8
deriving DecidableEq, Repr

/-- The first three bytes of a colour in memory. -/
def Rgb.ofColor (c : UInt32) : Rgb := ⟨c.toUInt8, (c >>> 8).toUInt8, (c >>> 16).toUInt8⟩

/-- `FONT_NO_BG`. -/
def fontNoBg : UInt32 := 0xff000000

/-! ## Glyphs -/

/-- The tables of `ascii_font.c`: one glyph for each code below 128. -/
structure AsciiFonts where
  font16 : List UInt8
  font24 : List UInt8
  font32 : List UInt8
  font48 : List UInt8
  length16 : font16.length = 2048
  length24 : font24.length = 6144
  length32 : font32.length = 8192
  length48 : font48.length = 18432

/-- `ascii_buf`. -/
def AsciiFonts.buf (a : AsciiFonts) (size : FontSize) : Option (List UInt8) :=
  if size.px = 16 then some a.font16
  else if size.px = 24 then some a.font24
  else if size.px = 32 then some a.font32
  else if size.px = 48 then some a.font48
  else none

/-- Everything `font_draw` takes glyphs from. -/
structure FontEnv where
  ascii : AsciiFonts
  fonts : Fonts

/-- A character to draw: its width, and the bytes from `char_buf` on. -/
structure Glyph where
  width : ℕ
  bits : ℕ → Option UInt8

/-- `ascii_csize` of `_font_get_ascii`. -/
def asciiCsize (size : FontSize) : ℕ :=
  size.px * (size.px / 8 / 2 + if size.px / 2 % 8 ≠ 0 then 1 else 0)

/-- `_font_get_ascii`: the bytes from the glyph's pointer on, `none` for `NULL`. -/
def fontGetAscii (a : AsciiFonts) (size : FontSize) (data : UInt8) : Option (ℕ → Option UInt8) :=
  (a.buf size).bind fun buf =>
    if data ≥ 128 then none else some fun i => buf[asciiCsize size * data.toNat + i]?

/-- The byte at an address of a live mapping. -/
def peek (live : List Mapping) (addr : ℕ) : Option UInt8 :=
  live.findSome? fun m => if m.base ≤ addr then m.bytes[addr - m.base]? else none

/-- `unknow_charbuf` behind the `memset` of its first `csize` bytes. -/
def unknowCharbuf (csize : ℕ) (i : ℕ) : Option UInt8 := if i < csize then some 0xff else none

/-- The glyph of an ASCII character. -/
def asciiGlyph (env : FontEnv) (size : FontSize) (data : UInt8) : Glyph where
  width := size.px / 2
  bits := (fontGetAscii env.ascii size data).getD (unknowCharbuf (size.px * size.px / 2 / 8))

/-- The glyph at an address of the font file. -/
def gbkGlyph (env : FontEnv) (size : FontSize) (addr : ℕ) : Glyph where
  width := size.px
  bits i := peek env.fonts.live (addr + i)

/-- The glyph of a two-byte character that the font does not have. -/
def unknownGlyph (size : FontSize) : Glyph where
  width := size.px
  bits := unknowCharbuf (size.px * size.px / 8)

/-- The scanning loop of `font_draw` on the bytes from `p` on. A two-byte character without a glyph
moves `p` by four. -/
def fontScan (env : FontEnv) (size : FontSize) : ℕ → List UInt8 → Option (List Glyph)
  | 0, _ => none
  | _ + 1, [] => none
  | fuel + 1, b :: rest =>
    if b = 0 then some []
    else if b < 128 then (fontScan env size fuel rest).map (asciiGlyph env size b :: ·)
    else
      (fontGetGbk env.fonts size (b :: rest)).bind fun
        | none => (fontScan env size fuel (rest.drop 3)).map (unknownGlyph size :: ·)
        | some addr => (fontScan env size fuel (rest.drop 1)).map (gbkGlyph env size addr :: ·)

/-! ## Pixels -/

/-- How `_font_char_draw_rgb` stores the pixel with number `i`. -/
def putRgb {n : ℕ} (fb : Arr UInt8 n) (i : ℤ) (c : Rgb) : Option (Arr UInt8 n) :=
  (fb.store (i * 3 + 0) c.red).bind fun fb =>
    (fb.store (i * 3 + 1) c.green).bind fun fb => fb.store (i * 3 + 2) c.blue

/-- How `_font_char_draw_argb` stores it. -/
def putArgb {n : ℕ} (fb : Arr UInt8 n) (i : ℤ) (c : Rgb) : Option (Arr UInt8 n) :=
  (fb.store (i * 4 + 0) c.red).bind fun fb =>
    (fb.store (i * 4 + 1) c.green).bind fun fb =>
      (fb.store (i * 4 + 2) c.blue).bind fun fb => fb.store (i * 4 + 3) 0xff

/-- The colours painted so far, pixel by pixel. -/
abbrev Canvas := ℤ → Option Rgb

def paint (cv : Canvas) (i : ℤ) (c : Rgb) : Option Canvas := some (Function.update cv i (some c))

variable {S : Type*}

/-- The pixel in row `y` and column `x` of a glyph. -/
def fontPixel (put : S → ℤ → Rgb → Option S) (fb : S) (lcdW xOft yOft : ℤ) (g : Glyph)
    (cColor bgColor : UInt32) (y x : ℕ) : Option S :=
  let lcdX := x + xOft
  let lcdY := y + yOft
  (g.bits (y * (g.width / 8 + if g.width % 8 ≠ 0 then 1 else 0) + x / 8)).bind fun data =>
    if data &&& (1 <<< UInt8.ofNat (x % 8)) ≠ 0 then put fb (lcdX + lcdY * lcdW) (Rgb.ofColor cColor)
    else if bgColor ≠ fontNoBg then put fb (lcdX + lcdY * lcdW) (Rgb.ofColor bgColor)
    else some fb

/-- `_font_char_draw_rgb` and `_font_char_draw_argb`: the buffer, `x_oft` and `y_oft` behind the
character. -/
def fontCharDraw (put : S → ℤ → Rgb → Option S) (lcdW lcdH : ℤ) (charH : ℕ)
    (cColor bgColor : UInt32) : S × ℤ × ℤ → Glyph → Option (S × ℤ × ℤ)
  | (fb, xOft, yOft), g =>
    let (xOft, yOft) := if xOft + g.width > lcdW then (0, yOft + charH) else (xOft, yOft)
    -- the character would leave the screen
    if yOft + charH > lcdH then some (fb, xOft, yOft)
    else (forLoop charH (fun y fb => forLoop g.width
        (fun x fb => fontPixel put fb lcdW xOft yOft g cColor bgColor y x) fb) fb).map fun fb =>
      (fb, xOft + g.width, yOft)

/-! ## The text -/

def size24 : FontSize := ⟨24, by decide, by decide, by decide⟩
def size32 : FontSize := ⟨32, by decide, by decide, by decide⟩
def size48 : FontSize := ⟨48, by decide, by decide, by decide⟩

/-- The font sizes `font_draw` takes. -/
def drawnSize (charSize : ℤ) : Option FontSize :=
  if charSize = 16 then some size16
  else if charSize = 24 then some size24
  else if charSize = 32 then some size32
  else if charSize = 48 then some size48
  else none

/-- The arguments of `font_draw` behind the buffer. -/
structure DrawArgs where
  bpp : ℤ
  lcdW : ℤ
  lcdH : ℤ
  charSize : ℤ
  xOft : ℤ
  yOft : ℤ
  cColor : UInt32
  bgColor : UInt32

/-- The body of `font_draw`, with the pixel stores of its two renderers as arguments: the buffer and
the return value. -/
def fontDrawOn (put24 put32 : S → ℤ → Rgb → Option S) (env : FontEnv) (fb : S) (a : DrawArgs)
    (str : List UInt8) : Option (S × ℤ) :=
  match drawnSize a.charSize with
  | none => some (fb, -1)
  | some size =>
    if a.bpp ≠ 24 ∧ a.bpp ≠ 32 ∧ a.bpp ≠ 16 then some (fb, a.yOft)
    else
      let put := if a.bpp = 24 ∨ a.bpp = 16 then put24 else put32
      (fontScan env size str.length str).bind fun glyphs =>
        (glyphs.foldlM (fontCharDraw put a.lcdW a.lcdH size.px a.cColor a.bgColor)
          (fb, a.xOft, a.yOft)).map fun (fb, _, yOft) => (fb, yOft + size.px)

/-- `font_draw` on the bytes from `str` on. -/
def fontDraw {n : ℕ} (env : FontEnv) (fb : Arr UInt8 n) (a : DrawArgs) (str : List UInt8) :
    Option (Arr UInt8 n × ℤ) :=
  fontDrawOn putRgb putArgb env fb a str

/-- What `font_draw` paints: the same calls on an abstract canvas. -/
def fontPaint (env : FontEnv) (a : DrawArgs) (str : List UInt8) : Option (Canvas × ℤ) :=
  fontDrawOn paint paint env (fun _ => none) a str

end MaixSpeech.Font
