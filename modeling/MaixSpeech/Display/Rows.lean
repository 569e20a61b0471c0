import Mathlib.Tactic.Ring
import MaixSpeech.Display.Framebuffer
import MaixSpeech.Font.Pixels

/-!
# Where `fb_display` puts a picture

Reference: `components/utils/src/fb_display.c`.

`fb_display` without a mask is a conversion and a copy of rows (`fbDisplay_eq`). A picture that fits
is shown where its rows start right (`fbDisplay_shows`); on a screen whose rows are whole pixels, a
picture no wider and no higher than the screen lands row by row at the start of the screen's rows
(`fbDisplay_spec`). The proofs follow the two loops: `convertRGB2FB_spec` for the encoded picture,
`RowCopy.run_load` for the copy.
-/

namespace MaixSpeech.Display

open Common
open Font (Rgb Canvas HoldsRgb)

/-! ## The encoded picture -/

/-- A pixel of the picture is the three bytes it is read from. -/
theorem rgbAt_eq_some_iff {n : ℕ} {rgbbuff : Arr UInt8 n} {i : ℕ} {c : Rgb} :
    rgbAt rgbbuff i = some c ↔
      rgbbuff.load ((i : ℤ) * 3) = some c.red ∧ rgbbuff.load ((i : ℤ) * 3 + 1) = some c.green ∧
        rgbbuff.load ((i : ℤ) * 3 + 2) = some c.blue := by
  constructor
  · intro h
    obtain ⟨r, hr, h⟩ := Option.bind_eq_some_iff.mp h
    obtain ⟨g, hg, h⟩ := Option.bind_eq_some_iff.mp h
    obtain ⟨b, hb, rfl⟩ := Option.map_eq_some_iff.mp h
    exact ⟨hr, hg, hb⟩
  · rintro ⟨hr, hg, hb⟩
    rw [rgbAt, hr, Option.bind_some, hg, Option.bind_some, hb, Option.map_some]

/-- A colour on the canvas is a pixel of the picture `convertRGB2FB` reads. -/
theorem rgbAt_of_holdsRgb {n : ℕ} {fb : Arr UInt8 n} {cv : Canvas} (h : HoldsRgb fb cv) {i : ℕ}
    {c : Rgb} (hc : cv i = some c) : rgbAt fb i = some c := by
  obtain ⟨hr, hg, hb⟩ := h i c hc
  rw [Int.add_zero] at hr
  exact rgbAt_eq_some_iff.mpr ⟨hr, hg, hb⟩

theorem rgbAt_of_lt {n : ℕ} (rgbbuff : Arr UInt8 n) {i : ℕ} (h : i * 3 + 2 < n) :
    ∃ c, rgbAt rgbbuff i = some c := by
  obtain ⟨r, hr⟩ := Arr.load_of_mem (a := rgbbuff) (i := i * 3) (by omega)
  obtain ⟨g, hg⟩ := Arr.load_of_mem (a := rgbbuff) (i := i * 3 + 1) (by omega)
  obtain ⟨b, hb⟩ := Arr.load_of_mem (a := rgbbuff) (i := i * 3 + 2) (by omega)
  exact ⟨⟨r, g, b⟩, by simp [rgbAt, hr, hg, hb]⟩

/-- **The conversion of a buffer with `count` pixels**: pixel `i` is encoded in the `cpp` bytes from
`i * cpp` on. -/
theorem convertRGB2FB_spec {n count : ℕ} (rgbbuff : Arr UInt8 n) (hn : count * 3 ≤ n) (d : Depth) :
    ∃ fbbuff, convertRGB2FB rgbbuff count d = some fbbuff ∧ fbbuff.length = count * d.cpp ∧
      ∀ i < count, ∀ c, rgbAt rgbbuff i = some c →
        ∀ k < d.cpp, fbbuff[i * d.cpp + k]? = (encode d c)[k]? := by
  apply forLoop_spec fun (m : ℕ) (out : List UInt8) => out.length = m * d.cpp ∧
    ∀ i < m, ∀ c, rgbAt rgbbuff i = some c → ∀ k < d.cpp,
      out[i * d.cpp + k]? = (encode d c)[k]?
  · exact ⟨by simp, fun i hi => absurd hi (by omega)⟩
  · rintro m out hm ⟨hlen, hout⟩
    obtain ⟨c, hc⟩ := rgbAt_of_lt rgbbuff (i := m) (by omega)
    refine ⟨out ++ encode d c, by rw [hc, Option.map_some], ?_, ?_⟩
    · rw [List.length_append, hlen, length_encode, Nat.succ_mul]
    · intro i hi c' hc' k hk
      by_cases him : i = m
      · subst him
        obtain rfl := Option.some.inj (hc.symm.trans hc')
        rw [List.getElem?_append_right (by omega), hlen, Nat.add_sub_cancel_left]
      · have hle : (i + 1) * d.cpp ≤ m * d.cpp := Nat.mul_le_mul_right _ (by omega)
        rw [Nat.succ_mul] at hle
        rw [List.getElem?_append_left (by omega)]
        exact hout i (by omega) c' hc' k hk

/-! ## The rows -/

/-- A copy of rows: their number and length, where the first one starts on the screen and in the
picture, and how far their starts lie apart there. -/
structure RowCopy where
  rows : ℕ
  len : ℕ
  dst : ℕ
  src : ℕ
  dstStep : ℕ
  srcStep : ℕ
deriving DecidableEq, Repr

namespace RowCopy

variable {n mapLen : ℕ} {fbbuff : List UInt8} {fb fb' : Arr UInt8 n} {dst src len : ℕ} {g : RowCopy}

/-- The loop over the rows. -/
def run (g : RowCopy) (fb : Arr UInt8 n) (mapLen : ℕ) (fbbuff : List UInt8) : Option (Arr UInt8 n) :=
  forLoop g.rows (fun i fb =>
    copyRow fb mapLen (g.dst + i * g.dstStep) fbbuff (g.src + i * g.srcStep) g.len) fb

/-- The last row ends inside the mapping, and inside the picture. -/
def Inside (g : RowCopy) (mapLen size : ℕ) : Prop :=
  g.dst + (g.rows - 1) * g.dstStep + g.len ≤ mapLen ∧ g.src + (g.rows - 1) * g.srcStep + g.len ≤ size

theorem copyRow_isSome_iff (fb : Arr UInt8 n) (fbbuff : List UInt8) (hmap : mapLen ≤ n) (hlen : 0 < len) :
    (∃ fb', copyRow fb mapLen dst fbbuff src len = some fb') ↔
      dst + len ≤ mapLen ∧ src + len ≤ fbbuff.length := by
  rw [copyRow, if_neg (Nat.ne_of_gt hlen)]
  constructor
  · rintro ⟨fb', h⟩
    by_contra hout
    rw [if_neg hout] at h
    cases h
  · rintro ⟨hdst, hsrc⟩
    have hcopy : (fb.copy dst ((fbbuff.drop src).take len)).isSome := by
      rw [Arr.copy_isSome_iff, List.length_take, List.length_drop]
      omega
    rw [if_pos ⟨hdst, hsrc⟩]
    exact Option.isSome_iff_exists.mp hcopy

/-- A row that is copied changes its own bytes only. -/
theorem copyRow_writes (h : copyRow fb mapLen dst fbbuff src len = some fb') :
    Arr.Writes (fun j : ℤ => ∃ b < len, j = (dst + b : ℕ))
      (fun j => fbbuff[src + (j - dst).toNat]?) fb fb' := by
  unfold copyRow at h
  split at h
  · rename_i hlen
    obtain rfl := Option.some.inj h
    exact .refl fun j ⟨b, hb, _⟩ => absurd hb (by omega)
  · split at h
    · rename_i hin
      have hlen : ((fbbuff.drop src).take len).length = len := by
        rw [List.length_take, List.length_drop]
        omega
      constructor
      · rintro _ ⟨b, hb, rfl⟩
        rw [Arr.load_copy h, hlen, if_pos (by omega), List.getElem?_take_of_lt (by omega),
          List.getElem?_drop]
      · intro j hj
        rw [Arr.load_copy h, hlen, if_neg]
        exact fun hin => hj ⟨(j - dst).toNat, by omega, by omega⟩
    · cases h

/-- **When the copy gets through**: only its last row matters. -/
theorem run_isSome_iff (fb : Arr UInt8 n) (hmap : mapLen ≤ n) (hrows : 0 < g.rows) (hlen : 0 < g.len) :
    (∃ fb', g.run fb mapLen fbbuff = some fb') ↔ g.Inside mapLen fbbuff.length := by
  constructor
  · rintro ⟨fb', h⟩
    obtain ⟨fb₁, fb₂, hturn⟩ := forLoop_turn h (Nat.sub_lt hrows one_pos)
    exact (copyRow_isSome_iff fb₁ fbbuff hmap hlen).mp ⟨fb₂, hturn⟩
  · rintro ⟨hdst, hsrc⟩
    refine forLoop_isSome fun i hi s => (copyRow_isSome_iff s fbbuff hmap hlen).mpr ?_
    have hd : i * g.dstStep ≤ (g.rows - 1) * g.dstStep := Nat.mul_le_mul_right _ (by omega)
    have hs : i * g.srcStep ≤ (g.rows - 1) * g.srcStep := Nat.mul_le_mul_right _ (by omega)
    omega

/-- No rows, or rows of no bytes, change nothing. -/
theorem run_of_empty (fb : Arr UInt8 n) (h : g.rows = 0 ∨ g.len = 0) :
    g.run fb mapLen fbbuff = some fb := by
  rcases h with hrows | hlen
  · rw [run, hrows]
    rfl
  · exact forLoop_of_fixed fun i _ => if_pos hlen

/-- **What the copy leaves**: every row at its place, every other byte as it was. The rows must not
overlap on the screen. -/
theorem run_load (hstep : g.len ≤ g.dstStep) (h : g.run fb mapLen fbbuff = some fb') :
    (∀ i < g.rows, ∀ b < g.len,
        fb'.load (g.dst + i * g.dstStep + b : ℕ) = fbbuff[g.src + i * g.srcStep + b]?) ∧
      ∀ j : ℤ, (∀ i < g.rows, ∀ b < g.len, j ≠ (g.dst + i * g.dstStep + b : ℕ)) →
        fb'.load j = fb.load j := by
  have hdisjoint : ∀ i < g.rows, ∀ i' < g.rows, ∀ j : ℤ,
      (∃ b < g.len, j = (g.dst + i * g.dstStep + b : ℕ)) →
        (∃ b < g.len, j = (g.dst + i' * g.dstStep + b : ℕ)) → i = i' := by
    rintro i _ i' _ j ⟨b, hb, rfl⟩ ⟨b', hb', heq⟩
    exact (eq_of_rowMajor (hb.trans_le hstep) (hb'.trans_le hstep) (by omega)).1
  obtain ⟨hrows, hrest⟩ := Arr.forLoop_writes hdisjoint (fun i _ s s' hs => copyRow_writes hs) h
  constructor
  · intro i hi b hb
    have hidx : (((g.dst + i * g.dstStep + b : ℕ) : ℤ) - (g.dst + i * g.dstStep : ℕ)).toNat = b := by
      omega
    rw [hrows i hi _ ⟨b, hb, rfl⟩, hidx]
  · exact fun j hj => hrest j fun i hi ⟨b, hb, heq⟩ => hj i hi b hb heq

end RowCopy

/-! ## `fb_display` -/

theorem u32_of_lt {n : ℕ} (h : n < 2 ^ 32) : u32 n = n := Nat.mod_eq_of_lt h

theorem asInt_of_lt {n : ℕ} (h : n < 2 ^ 31) : asInt n = n := by
  rw [asInt, u32_of_lt (by omega), if_pos h]

theorem intSize_of_lt {n : ℕ} (h : n < 2 ^ 31) : intSize n = some n := by
  rw [intSize, if_pos (by omega), Int.toNat_natCast]

/-- `blit2FB` clips the picture to the screen. -/
theorem clip_eq_min (a b : ℕ) : (if a > b then b else a) = min a b := by
  split <;> omega

theorem ofBpp_bpp (d : Depth) : Depth.ofBpp d.bpp = some d := by cases d <;> rfl

/-- `x_stride`, the pixels of a line. -/
def Screen.xStride (scr : Screen) : ℕ := u32 (scr.lineLength * 8) / scr.bitsPerPixel

/-- The length `blit2FB` maps. -/
def Screen.mapLen (scr : Screen) (d : Depth) : ℕ := u32 (scr.xStride * scr.yresVirtual * d.cpp)

/-- "correct panning" -/
def correctPan (pan size screen : ℕ) : ℕ := if pan > u32Sub size screen then 0 else pan

/-- "correct offset" -/
def correctOffs (offs size screen : ℕ) : ℕ := if u32 (offs + size) > screen then 0 else offs

/-- The rows `blit2FB` copies when there is no mask. -/
def displayCopy (scr : Screen) (d : Depth) (xSize ySize xPan yPan xOffs yOffs : ℕ) : RowCopy where
  rows := (asInt (min ySize scr.yresVirtual)).toNat
  len := min xSize scr.xStride * d.cpp
  dst := u32 ((u32 (correctOffs yOffs ySize scr.yres + scr.yoffset) * scr.xStride +
    correctOffs xOffs xSize scr.xStride) * d.cpp)
  src := u32 ((correctPan yPan ySize scr.yres * xSize + correctPan xPan xSize scr.xStride) * d.cpp)
  dstStep := u32 (scr.xStride * d.cpp)
  srcStep := u32 (xSize * d.cpp)

/-- A line never has so many pixels that its length in bytes leaves `int`. -/
theorem Screen.xStride_mul_cpp_lt {scr : Screen} {d : Depth} (hbpp : scr.bitsPerPixel = d.bpp) :
    scr.xStride * d.cpp < 2 ^ 30 := by
  have hu : u32 (scr.lineLength * 8) < 2 ^ 32 := Nat.mod_lt _ (by decide)
  have hdiv : scr.xStride * d.bpp ≤ u32 (scr.lineLength * 8) := by
    rw [Screen.xStride, hbpp]
    exact Nat.div_mul_le_self _ _
  cases d <;> simp only [Depth.bpp, Depth.cpp] at hdiv ⊢ <;> omega

/-- `fb_display` without a mask is the conversion and the copy. -/
theorem fbDisplay_eq {n : ℕ} {scr : Screen} {d : Depth} (hbpp : scr.bitsPerPixel = d.bpp)
    (fb : Arr UInt8 scr.memLen) (rgbbuff : Arr UInt8 n) (xSize ySize xPan yPan xOffs yOffs : ℕ) :
    fbDisplay scr fb rgbbuff none xSize ySize xPan yPan xOffs yOffs =
      (convertRGB2FB rgbbuff (u32 (xSize * ySize)) d).bind fun fbbuff =>
        if scr.mapLen d = 0 ∨ scr.memLen < scr.mapLen d then some fb
        else (displayCopy scr d xSize ySize xPan yPan xOffs yOffs).run fb (scr.mapLen d) fbbuff := by
  have hbpp0 : d.bpp ≠ 0 := by cases d <;> decide
  have hcpp : 0 < d.cpp := by cases d <;> decide
  have hmin : min xSize scr.xStride * d.cpp ≤ scr.xStride * d.cpp :=
    Nat.mul_le_mul_right _ (min_le_right _ _)
  have hstride := Screen.xStride_mul_cpp_lt hbpp
  have hcols : min xSize scr.xStride ≤ min xSize scr.xStride * d.cpp := Nat.le_mul_of_pos_right _ hcpp
  have hlen : intSize (asInt (min xSize scr.xStride) * d.cpp) =
      some (min xSize scr.xStride * d.cpp) := by
    rw [asInt_of_lt (by omega), ← Nat.cast_mul]
    exact intSize_of_lt (by omega)
  have hx : u32 (scr.lineLength * 8) / d.bpp = scr.xStride := by rw [Screen.xStride, hbpp]
  simp only [fbDisplay, hbpp, if_neg hbpp0, ofBpp_bpp, Option.bind_some, blit2FB, clip_eq_min, hx, hlen]
  rfl

/-! ## The picture on the screen -/

/-- The byte of the framebuffer where the pixel in column `x` of row `y` starts. -/
def Screen.pixel (scr : Screen) (d : Depth) (x y : ℕ) : ℕ := y * scr.lineLength + x * d.cpp

/-- `fb'` is `fb` with the picture at column `x` of row `y`. -/
structure Shows {n : ℕ} (scr : Screen) (d : Depth) (xSize ySize x y : ℕ) (rgbbuff : Arr UInt8 n)
    (fb fb' : Arr UInt8 scr.memLen) : Prop where
  pixels : ∀ j < ySize, ∀ i < xSize, ∀ c, rgbAt rgbbuff (j * xSize + i) = some c →
    ∀ k < d.cpp, fb'.load (scr.pixel d (x + i) (y + j) + k : ℕ) = (encode d c)[k]?
  rest : ∀ b : ℤ, (∀ j < ySize, ∀ i < xSize, ∀ k < d.cpp,
    b ≠ (scr.pixel d (x + i) (y + j) + k : ℕ)) → fb'.load b = fb.load b

section Shown

variable {n : ℕ} {scr : Screen} {d : Depth} {xSize ySize xOffs yOffs : ℕ}

theorem Depth.cpp_pos (d : Depth) : 0 < d.cpp := by cases d <;> decide

/-- The byte of a pixel is a byte of its row. -/
theorem cell_lt {i w cpp k : ℕ} (hi : i < w) (hk : k < cpp) : i * cpp + k < w * cpp := by
  have hle : (i + 1) * cpp ≤ w * cpp := Nat.mul_le_mul_right _ hi
  rw [Nat.succ_mul] at hle
  omega

/-- A copy whose rows start at the picture's places on the screen shows the picture. -/
theorem shows_of_run {g : RowCopy} {x y mapLen : ℕ} {rgbbuff : Arr UInt8 n} {fbbuff : List UInt8}
    {fb fb' : Arr UInt8 scr.memLen} (hn : xSize * ySize * 3 ≤ n) (hrows : g.rows = ySize)
    (hlen : g.len = xSize * d.cpp) (hstep : g.len ≤ g.dstStep)
    (hdst : ∀ j < ySize, g.dst + j * g.dstStep = scr.pixel d x (y + j))
    (hsrc : ∀ j < ySize, g.src + j * g.srcStep = j * xSize * d.cpp)
    (hconv : convertRGB2FB rgbbuff (xSize * ySize) d = some fbbuff)
    (h : g.run fb mapLen fbbuff = some fb') : Shows scr d xSize ySize x y rgbbuff fb fb' := by
  obtain ⟨_, hconv', -, hpix⟩ := convertRGB2FB_spec rgbbuff hn d
  obtain rfl := Option.some.inj (hconv.symm.trans hconv')
  obtain ⟨hrow, hrest⟩ := RowCopy.run_load hstep h
  have hpixel : ∀ i j, scr.pixel d (x + i) (y + j) = scr.pixel d x (y + j) + i * d.cpp := by
    intro i j
    simp only [Screen.pixel, Nat.add_mul, Nat.add_assoc]
  constructor
  · intro j hj i hi c hc k hk
    have hb := cell_lt hi hk
    have hsrcIdx : j * xSize * d.cpp + (i * d.cpp + k) = (j * xSize + i) * d.cpp + k := by ring
    have hcount : j * xSize + i < xSize * ySize := by
      rw [Nat.mul_comm xSize]
      exact rowMajor_lt hj hi
    rw [hpixel, ← hdst j hj, Nat.add_assoc (g.dst + _), hrow j (hrows ▸ hj) _ (hlen ▸ hb), hsrc j hj,
      hsrcIdx]
    exact hpix _ hcount c hc k hk
  · intro b hb
    apply hrest
    rintro j hj o ho rfl
    rw [hrows] at hj
    rw [hlen] at ho
    have hi : o / d.cpp < xSize := (Nat.div_lt_iff_lt_mul d.cpp_pos).mpr ho
    refine hb j hj _ hi _ (Nat.mod_lt o d.cpp_pos) ?_
    rw [hpixel, hdst j hj, Nat.add_assoc, Nat.div_add_mod']

/-- What `fb_display` copies of a picture without pan that fits at its offsets. -/
theorem displayCopy_eq (hbpp : scr.bitsPerPixel = d.bpp) (hx : xOffs + xSize ≤ scr.xStride)
    (hy : yOffs + ySize ≤ scr.yres) (hyres : scr.yoffset + scr.yres ≤ scr.yresVirtual)
    (hvirt : scr.yresVirtual < 2 ^ 32) (hrows : ySize < 2 ^ 31) :
    displayCopy scr d xSize ySize 0 0 xOffs yOffs =
      ⟨ySize, xSize * d.cpp, u32 (((yOffs + scr.yoffset) * scr.xStride + xOffs) * d.cpp), 0,
        scr.xStride * d.cpp, xSize * d.cpp⟩ := by
  have hstride := Screen.xStride_mul_cpp_lt hbpp
  have hcpp := d.cpp_pos
  have hS : scr.xStride ≤ scr.xStride * d.cpp := Nat.le_mul_of_pos_right _ hcpp
  have hW : xSize * d.cpp ≤ scr.xStride * d.cpp := Nat.mul_le_mul_right _ (by omega)
  have hxOffs : correctOffs xOffs xSize scr.xStride = xOffs := by
    rw [correctOffs, u32_of_lt (by omega), if_neg (by omega)]
  have hyOffs : correctOffs yOffs ySize scr.yres = yOffs := by
    rw [correctOffs, u32_of_lt (by omega), if_neg (by omega)]
  rw [displayCopy, min_eq_left (by omega), min_eq_left (by omega), asInt_of_lt hrows,
    Int.toNat_natCast, hxOffs, hyOffs, u32_of_lt (show yOffs + scr.yoffset < 2 ^ 32 by omega),
    u32_of_lt (show scr.xStride * d.cpp < 2 ^ 32 by omega),
    u32_of_lt (show xSize * d.cpp < 2 ^ 32 by omega)]
  simp only [correctPan, ite_self, Nat.zero_mul, Nat.zero_add, u32, Nat.zero_mod]

/-- A picture without pixels changes nothing. -/
theorem fbDisplay_of_empty (hbpp : scr.bitsPerPixel = d.bpp) (h : xSize = 0 ∨ ySize = 0)
    (fb : Arr UInt8 scr.memLen) (rgbbuff : Arr UInt8 n) (xPan yPan : ℕ) :
    fbDisplay scr fb rgbbuff none xSize ySize xPan yPan xOffs yOffs = some fb := by
  have hcount : xSize * ySize = 0 := Nat.mul_eq_zero.mpr h
  have hempty : (displayCopy scr d xSize ySize xPan yPan xOffs yOffs).rows = 0 ∨
      (displayCopy scr d xSize ySize xPan yPan xOffs yOffs).len = 0 := by
    rcases h with rfl | rfl
    · right
      simp only [displayCopy, Nat.zero_min, Nat.zero_mul]
    · left
      simp only [displayCopy, Nat.zero_min]
      rfl
  rw [fbDisplay_eq hbpp, hcount]
  simp only [u32, Nat.zero_mod, convertRGB2FB, forLoop, Option.bind_some,
    RowCopy.run_of_empty fb hempty, ite_self]

/-- **A picture that fits**: where the first row starts at its place and the others follow at the
screen's pitch, `fb_display` shows the picture. -/
theorem fbDisplay_shows (hbpp : scr.bitsPerPixel = d.bpp) (hxSize : 0 < xSize) (hySize : 0 < ySize)
    (hx : xOffs + xSize ≤ scr.xStride) (hy : yOffs + ySize ≤ scr.yres)
    (hyres : scr.yoffset + scr.yres ≤ scr.yresVirtual) (hvirt : scr.yresVirtual < 2 ^ 32)
    (hrows : ySize < 2 ^ 31) (hcount : xSize * ySize < 2 ^ 32) (hmem : scr.mapLen d ≤ scr.memLen)
    (hdst : ∀ j < ySize, u32 (((yOffs + scr.yoffset) * scr.xStride + xOffs) * d.cpp) +
      j * (scr.xStride * d.cpp) = scr.pixel d xOffs (yOffs + scr.yoffset + j))
    (hend : scr.pixel d xOffs (yOffs + scr.yoffset + (ySize - 1)) + xSize * d.cpp ≤ scr.mapLen d)
    (fb : Arr UInt8 scr.memLen) (rgbbuff : Arr UInt8 n) (hn : xSize * ySize * 3 ≤ n) :
    ∃ fb', fbDisplay scr fb rgbbuff none xSize ySize 0 0 xOffs yOffs = some fb' ∧
      Shows scr d xSize ySize xOffs (yOffs + scr.yoffset) rgbbuff fb fb' := by
  obtain ⟨fbbuff, hconv, hlen, -⟩ := convertRGB2FB_spec rgbbuff hn d
  have hrow : 0 < xSize * d.cpp := Nat.mul_pos hxSize d.cpp_pos
  have hsize : (ySize - 1) * (xSize * d.cpp) + xSize * d.cpp = xSize * ySize * d.cpp := by
    rw [← Nat.succ_mul, Nat.succ_eq_add_one, Nat.sub_add_cancel hySize]
    ring
  have hlast := hdst (ySize - 1) (by omega)
  rw [fbDisplay_eq hbpp, u32_of_lt hcount, hconv, Option.bind_some, if_neg (by omega),
    displayCopy_eq hbpp hx hy hyres hvirt hrows]
  have hinside : RowCopy.Inside ⟨ySize, xSize * d.cpp,
      u32 (((yOffs + scr.yoffset) * scr.xStride + xOffs) * d.cpp), 0, scr.xStride * d.cpp,
      xSize * d.cpp⟩ (scr.mapLen d) fbbuff.length := by
    constructor
    · rw [hlast]
      exact hend
    · rw [Nat.zero_add, hsize, hlen]
  obtain ⟨fb', hrun⟩ := (RowCopy.run_isSome_iff fb hmem hySize hrow).mpr hinside
  refine ⟨fb', hrun, shows_of_run hn rfl rfl ?_ hdst ?_ hconv hrun⟩
  · exact Nat.mul_le_mul_right _ (by omega)
  · intro j _
    simp only [Nat.zero_add, Nat.mul_assoc]

/-- On a screen whose pitch `fb_display` recomputes right, a picture that fits is shown. -/
theorem fbDisplay_shows_of_pitch (hbpp : scr.bitsPerPixel = d.bpp)
    (hpitch : scr.xStride * d.cpp = scr.lineLength) (hxSize : 0 < xSize) (hySize : 0 < ySize)
    (hx : xOffs + xSize ≤ scr.xStride) (hy : yOffs + ySize ≤ scr.yres)
    (hyres : scr.yoffset + scr.yres ≤ scr.yresVirtual)
    (hmem : scr.lineLength * scr.yresVirtual ≤ scr.memLen) (hsize : scr.memLen < 2 ^ 32)
    (hrows : ySize < 2 ^ 31) (fb : Arr UInt8 scr.memLen) (rgbbuff : Arr UInt8 n)
    (hn : xSize * ySize * 3 ≤ n) :
    ∃ fb', fbDisplay scr fb rgbbuff none xSize ySize 0 0 xOffs yOffs = some fb' ∧
      Shows scr d xSize ySize xOffs (yOffs + scr.yoffset) rgbbuff fb fb' := by
  have hcpp := d.cpp_pos
  have hS : scr.xStride ≤ scr.lineLength := hpitch ▸ Nat.le_mul_of_pos_right _ hcpp
  have hwidth : xOffs * d.cpp + xSize * d.cpp ≤ scr.lineLength := by
    rw [← hpitch, ← Nat.add_mul]
    exact Nat.mul_le_mul_right _ hx
  have hvirt : scr.yresVirtual ≤ scr.lineLength * scr.yresVirtual :=
    Nat.le_mul_of_pos_left _ (by omega)
  have hcount : xSize * ySize ≤ scr.lineLength * scr.yresVirtual :=
    Nat.mul_le_mul (by omega) (by omega)
  have hbytes : scr.xStride * scr.yresVirtual * d.cpp = scr.lineLength * scr.yresVirtual := by
    rw [← hpitch]
    exact Nat.mul_right_comm ..
  have hmapLen : scr.mapLen d = scr.lineLength * scr.yresVirtual := by
    rw [Screen.mapLen, hbytes, u32_of_lt (by omega)]
  -- the last row the picture reaches is a row of the screen
  have hrow : ∀ y < scr.yresVirtual, y * scr.lineLength + scr.lineLength ≤
      scr.lineLength * scr.yresVirtual := by
    intro y hy
    rw [← Nat.succ_mul, Nat.mul_comm scr.lineLength]
    exact Nat.mul_le_mul_right _ hy
  have hstart : ((yOffs + scr.yoffset) * scr.xStride + xOffs) * d.cpp =
      (yOffs + scr.yoffset) * scr.lineLength + xOffs * d.cpp := by
    rw [Nat.add_mul, Nat.mul_assoc, hpitch]
  have hfirst := hrow (yOffs + scr.yoffset) (by omega)
  have hlast := hrow (yOffs + scr.yoffset + (ySize - 1)) (by omega)
  refine fbDisplay_shows hbpp hxSize hySize hx hy hyres (by omega) hrows (by omega) (by omega) ?_ ?_ fb
    rgbbuff hn
  · intro j _
    rw [hstart, u32_of_lt (by omega), hpitch, Screen.pixel]
    ring
  · rw [hmapLen, Screen.pixel]
    omega

end Shown

/-- The screen has this depth, rows of whole pixels, room for a picture of this size at its top
left, and the memory its geometry asks for. -/
structure Screen.Holds (scr : Screen) (d : Depth) (w h : ℕ) : Prop where
  depth : scr.bitsPerPixel = d.bpp
  whole : d.cpp ∣ scr.lineLength
  width : w * d.cpp ≤ scr.lineLength
  height : h ≤ scr.yres
  rows : scr.yres ≤ scr.yresVirtual
  top : scr.yoffset = 0
  memory : scr.lineLength * scr.yresVirtual ≤ scr.memLen
  size : scr.memLen < 2 ^ 32

/-- A screen of exactly `w × h` pixels. -/
def Screen.exact (d : Depth) (w h : ℕ) : Screen where
  bitsPerPixel := d.bpp
  yres := h
  yresVirtual := h
  yoffset := 0
  lineLength := w * d.cpp
  memLen := w * d.cpp * h

theorem Screen.exact_holds (d : Depth) {w h : ℕ} (hsize : w * d.cpp * h < 2 ^ 32) :
    (Screen.exact d w h).Holds d w h where
  depth := rfl
  whole := Nat.dvd_mul_left ..
  width := le_rfl
  height := le_rfl
  rows := le_rfl
  top := rfl
  memory := le_rfl
  size := hsize

/-- **What `fb_display` shows**: at every depth of whole bytes, a picture as wide as the screen's
visible part appears at its top left, and the rest of the framebuffer stays. -/
theorem fbDisplay_spec {n : ℕ} {scr : Screen} {d : Depth} {w h : ℕ} (hscr : scr.Holds d w h)
    (hd : d.bpp = d.cpp * 8) (hw : 8 ≤ w) (hh : 8 ≤ h) (fb : Arr UInt8 scr.memLen)
    (rgbbuff : Arr UInt8 n) {ySize : ℕ} (hy : ySize ≤ h) (hn : w * ySize * 3 ≤ n) :
    ∃ fb', fbDisplay scr fb rgbbuff none w ySize 0 0 0 0 = some fb' ∧
      (∀ y < ySize, ∀ x < w, ∀ c, rgbAt rgbbuff (y * w + x) = some c →
        ∀ k < d.cpp, fb'.load (scr.pixel d x y + k : ℕ) = (encode d c)[k]?) ∧
      ∀ j : ℤ, (∀ y < ySize, ∀ b < w * d.cpp, j ≠ (y * scr.lineLength + b : ℕ)) →
        fb'.load j = fb.load j := by
  obtain ⟨hdepth, ⟨stride, hline⟩, hwidth, hheight, hrows, htop, hmemory, hsize⟩ := hscr
  rcases Nat.eq_zero_or_pos ySize with rfl | hpos
  · exact ⟨fb, fbDisplay_of_empty hdepth (.inr rfl) fb rgbbuff 0 0, fun y hy => absurd hy (by omega),
      fun j _ => rfl⟩
  -- eight rows and eight columns already keep everything below `2 ^ 32`
  have hcols8 : scr.lineLength * 8 ≤ scr.lineLength * scr.yresVirtual :=
    Nat.mul_le_mul_left _ (by omega)
  have hvirt8 : 8 * scr.yresVirtual ≤ scr.lineLength * scr.yresVirtual :=
    Nat.mul_le_mul_right _ ((hw.trans (Nat.le_mul_of_pos_right _ d.cpp_pos)).trans hwidth)
  have hstride : scr.xStride = stride := by
    rw [Screen.xStride, u32_of_lt (by omega), hdepth, hd, hline, Nat.mul_right_comm]
    exact Nat.mul_div_cancel_left _ (Nat.mul_pos d.cpp_pos (by decide))
  have hpitch : scr.xStride * d.cpp = scr.lineLength := by rw [hstride, hline, Nat.mul_comm]
  have hws : w ≤ scr.xStride := Nat.le_of_mul_le_mul_right (hpitch ▸ hwidth) d.cpp_pos
  have hshown : ∃ fb', fbDisplay scr fb rgbbuff none w ySize 0 0 0 0 = some fb' ∧
      Shows scr d w ySize 0 (0 + scr.yoffset) rgbbuff fb fb' :=
    fbDisplay_shows_of_pitch hdepth hpitch (by omega) hpos (by omega) (by omega) (by omega) hmemory
      hsize (by omega) fb rgbbuff hn
  obtain ⟨fb', hrun, hpixels, hrest⟩ := hshown
  simp only [htop, Nat.zero_add] at hpixels hrest
  refine ⟨fb', hrun, hpixels, fun j hj => hrest j ?_⟩
  intro y hy x hx k hk hjb
  rw [Screen.pixel, Nat.add_assoc] at hjb
  exact hj y hy _ (cell_lt hx hk) hjb

end MaixSpeech.Display
