import MaixSpeech.Display.Rows

/-!
# Bounds and pitch of the copy

Reference: `components/utils/src/fb_display.c`.

`fb_display` corrects pan and offset against `yres`, while `blit2FB` clips against `yres_virtual`
and starts `yoffset` rows further down; and it steps from row to row by a pitch it recomputes from
`line_length`. `fbDisplay_inBounds_iff` says from which starting points the copy stays inside the
picture and inside the mapping, `lands_iff` on which screens a picture that fits lands at the pixels
it was meant for.
-/

namespace MaixSpeech.Display

open Common

/-! ## Bounds -/

/-- Rows of a `w × h` rectangle end inside it when the first one starts early enough. -/
theorem lastRow_le_iff {rows cols w h cpp start : ℕ} (hrows : 0 < rows) (hh : rows ≤ h)
    (hw : cols ≤ w) :
    start + (rows - 1) * (w * cpp) + cols * cpp ≤ w * h * cpp ↔
      start ≤ ((h - rows) * w + (w - cols)) * cpp := by
  obtain ⟨r, rfl⟩ := Nat.exists_eq_add_of_lt hrows
  obtain ⟨a, rfl⟩ := Nat.exists_eq_add_of_le hh
  obtain ⟨b, rfl⟩ := Nat.exists_eq_add_of_le hw
  have hsplit : (cols + b) * (0 + r + 1 + a) * cpp =
      (a * (cols + b) + b) * cpp + r * ((cols + b) * cpp) + cols * cpp := by ring
  rw [hsplit, Nat.add_sub_cancel_left, Nat.add_sub_cancel_left, Nat.zero_add, Nat.add_sub_cancel]
  omega

/-- Starts are ordered by their rows. -/
theorem firstRow_le_iff {y y' w x slack : ℕ} (hslack : slack < w) (hx : x ≤ slack) :
    y * w + x ≤ y' * w + slack ↔ y ≤ y' := by
  constructor
  · intro h
    by_contra hlt
    have hrow : (y' + 1) * w ≤ y * w := Nat.mul_le_mul_right _ (by omega)
    rw [Nat.succ_mul] at hrow
    omega
  · intro h
    have hrow : y * w ≤ y' * w := Nat.mul_le_mul_right _ h
    omega

section Bounds

variable {n : ℕ} {scr : Screen} {d : Depth} {xSize ySize xPan yPan xOffs yOffs : ℕ}

/-- The first row that is read and the first that is written start early enough: by the rows and
columns that the picture has more than the screen, and the screen more than the picture. -/
structure StartsInside (scr : Screen) (d : Depth) (xSize ySize xPan yPan xOffs yOffs : ℕ) : Prop where
  read : u32 ((correctPan yPan ySize scr.yres * xSize + correctPan xPan xSize scr.xStride) * d.cpp) ≤
    ((ySize - scr.yresVirtual) * xSize + (xSize - scr.xStride)) * d.cpp
  write : u32 ((u32 (correctOffs yOffs ySize scr.yres + scr.yoffset) * scr.xStride +
      correctOffs xOffs xSize scr.xStride) * d.cpp) ≤
    ((scr.yresVirtual - ySize) * scr.xStride + (scr.xStride - xSize)) * d.cpp

/-- The copy ends inside the picture and inside the screen. -/
theorem displayCopy_inside_iff (hySize : 0 < ySize) (hvirt : 0 < scr.yresVirtual)
    (hrows : min ySize scr.yresVirtual < 2 ^ 31) (hstride : scr.xStride * d.cpp < 2 ^ 32)
    (hpitch : xSize * d.cpp < 2 ^ 32) :
    (displayCopy scr d xSize ySize xPan yPan xOffs yOffs).Inside
        (scr.xStride * scr.yresVirtual * d.cpp) (xSize * ySize * d.cpp) ↔
      StartsInside scr d xSize ySize xPan yPan xOffs yOffs := by
  have hmin : 0 < min ySize scr.yresVirtual := lt_min hySize hvirt
  simp only [RowCopy.Inside, displayCopy, asInt_of_lt hrows, Int.toNat_natCast, u32_of_lt hstride,
    u32_of_lt hpitch]
  have hpicRows : ySize - min ySize scr.yresVirtual = ySize - scr.yresVirtual := by omega
  have hpicCols : xSize - min xSize scr.xStride = xSize - scr.xStride := by omega
  have hscrRows : scr.yresVirtual - min ySize scr.yresVirtual = scr.yresVirtual - ySize := by omega
  have hscrCols : scr.xStride - min xSize scr.xStride = scr.xStride - xSize := by omega
  rw [lastRow_le_iff hmin (min_le_right _ _) (min_le_right _ _),
    lastRow_le_iff hmin (min_le_left _ _) (min_le_left _ _), hpicRows, hpicCols, hscrRows, hscrCols]
  exact ⟨fun h => ⟨h.2, h.1⟩, fun h => ⟨h.write, h.read⟩⟩

/-- **Bounds**: once the screen is mapped and there are rows to copy, `fb_display` stays inside the
picture and inside the mapping exactly if both first rows start early enough. -/
theorem fbDisplay_inBounds_iff (hbpp : scr.bitsPerPixel = d.bpp) (hxSize : 1 ≤ xSize)
    (hySize : 1 ≤ ySize) (hpic : xSize * ySize * d.cpp < 2 ^ 32)
    (hscr : scr.xStride * scr.yresVirtual * d.cpp < 2 ^ 32) (fb : Arr UInt8 scr.memLen)
    (rgbbuff : Arr UInt8 n) (hn : xSize * ySize * 3 ≤ n) :
    (∃ fb', fbDisplay scr fb rgbbuff none xSize ySize xPan yPan xOffs yOffs = some fb') ↔
      (0 < scr.xStride * scr.yresVirtual * d.cpp →
        scr.xStride * scr.yresVirtual * d.cpp ≤ scr.memLen → min ySize scr.yresVirtual < 2 ^ 31 →
          StartsInside scr d xSize ySize xPan yPan xOffs yOffs) := by
  have hcpp := d.cpp_pos
  have hstride := Screen.xStride_mul_cpp_lt hbpp
  have hcount : xSize * ySize ≤ xSize * ySize * d.cpp := Nat.le_mul_of_pos_right _ hcpp
  have hpitch : xSize * d.cpp ≤ xSize * ySize * d.cpp :=
    Nat.mul_le_mul_right _ (Nat.le_mul_of_pos_right _ hySize)
  have hmapLen : scr.mapLen d = scr.xStride * scr.yresVirtual * d.cpp := u32_of_lt hscr
  obtain ⟨fbbuff, hconv, hlen, -⟩ := convertRGB2FB_spec rgbbuff hn d
  rw [fbDisplay_eq hbpp, u32_of_lt (by omega), hconv, Option.bind_some, hmapLen]
  split
  · rename_i hunmapped
    exact iff_of_true ⟨fb, rfl⟩ fun hpos hmem => absurd hunmapped (by omega)
  rename_i hmapped
  have hpos : 0 < scr.xStride * scr.yresVirtual * d.cpp := by omega
  have hmem : scr.xStride * scr.yresVirtual * d.cpp ≤ scr.memLen := by omega
  have hvirt : 0 < scr.yresVirtual := Nat.pos_of_mul_pos_left (Nat.pos_of_mul_pos_right hpos)
  have hS : 0 < scr.xStride := Nat.pos_of_mul_pos_right (Nat.pos_of_mul_pos_right hpos)
  by_cases hrows : min ySize scr.yresVirtual < 2 ^ 31
  · have hone : 0 < (displayCopy scr d xSize ySize xPan yPan xOffs yOffs).rows := by
      rw [displayCopy, asInt_of_lt hrows, Int.toNat_natCast]
      exact lt_min hySize hvirt
    have hrow : 0 < (displayCopy scr d xSize ySize xPan yPan xOffs yOffs).len :=
      Nat.mul_pos (lt_min hxSize hS) hcpp
    rw [RowCopy.run_isSome_iff fb hmem hone hrow, hlen,
      displayCopy_inside_iff hySize hvirt hrows (by omega) (by omega)]
    exact ⟨fun h _ _ _ => h, fun h => h hpos hmem hrows⟩
  · -- a row count from `2 ^ 31` on is negative as an `int`
    have hnone : (displayCopy scr d xSize ySize xPan yPan xOffs yOffs).rows = 0 := by
      have hsize : ySize ≤ xSize * ySize := Nat.le_mul_of_pos_left _ hxSize
      change (asInt (min ySize scr.yresVirtual)).toNat = 0
      rw [asInt, u32_of_lt (by omega), if_neg hrows]
      omega
    exact iff_of_true ⟨fb, RowCopy.run_of_empty fb (.inl hnone)⟩ fun _ _ h => absurd h hrows

/-- A screen of two columns and one row, 8 bits deep. -/
def twoColumns : Screen where
  bitsPerPixel := 8
  yres := 1
  yresVirtual := 1
  yoffset := 0
  lineLength := 2
  memLen := 2

/-- A screen of one column whose second half is shown. -/
def secondHalf : Screen where
  bitsPerPixel := 8
  yres := 1
  yresVirtual := 2
  yoffset := 1
  lineLength := 1
  memLen := 2

/-- A picture of two rows, put back to the top of the second half, is written past the screen's end;
a single pixel panned by one column is read past its end. -/
theorem fbDisplay_outOfBounds :
    secondHalf.yoffset + secondHalf.yres ≤ secondHalf.yresVirtual ∧
      (¬ ∃ fb', fbDisplay secondHalf (fun _ => 0) (fun _ : Fin 6 => 255) none 1 2 0 0 0 0 = some fb') ∧
      twoColumns.yoffset + twoColumns.yres ≤ twoColumns.yresVirtual ∧
      ¬ ∃ fb', fbDisplay twoColumns (fun _ => 0) (fun _ : Fin 3 => 255) none 1 1 1 0 0 0 = some fb' := by
  have hwrite : (fbDisplay secondHalf (fun _ => 0) (fun _ : Fin 6 => 255) none 1 2 0 0 0 0).isSome =
      false := by decide
  have hread : (fbDisplay twoColumns (fun _ => 0) (fun _ : Fin 3 => 255) none 1 1 1 0 0 0).isSome =
      false := by decide
  refine ⟨by decide, ?_, by decide, ?_⟩
  · rintro ⟨fb', h⟩
    rw [h] at hwrite
    cases hwrite
  · rintro ⟨fb', h⟩
    rw [h] at hread
    cases hread

theorem fbDisplay_inBounds_twoColumns :
    ∃ fb', fbDisplay twoColumns (fun _ => 0) (fun _ : Fin 6 => 255) none 2 1 0 0 0 0 = some fb' :=
  (fbDisplay_inBounds_iff (d := .d8) rfl (by decide) (by decide) (by decide) (by decide) (fun _ => 0)
    (fun _ : Fin 6 => 255) (by decide)).mpr fun _ _ _ => ⟨by decide, by decide⟩

/-- **What is written**, where no product wraps: a picture put back to row 0 because it is higher
than the visible part leaves the screen exactly if it is moved down too far by `yoffset`. -/
theorem write_iff (hS : 0 < scr.xStride) (hxSize : 1 ≤ xSize) (hySize : 1 ≤ ySize)
    (hyres : 1 ≤ scr.yres) (hvirt : scr.yoffset + scr.yres ≤ scr.yresVirtual)
    (hscr : scr.xStride * scr.yresVirtual * d.cpp < 2 ^ 32) (hx : xOffs + xSize < 2 ^ 32)
    (hy : yOffs + ySize < 2 ^ 32) :
    u32 ((u32 (correctOffs yOffs ySize scr.yres + scr.yoffset) * scr.xStride +
          correctOffs xOffs xSize scr.xStride) * d.cpp) ≤
        ((scr.yresVirtual - ySize) * scr.xStride + (scr.xStride - xSize)) * d.cpp ↔
      scr.yoffset = 0 ∨ scr.yoffset + ySize ≤ scr.yresVirtual := by
  have hcpp := d.cpp_pos
  have hxOffs : correctOffs xOffs xSize scr.xStride ≤ scr.xStride - xSize := by
    rw [correctOffs, u32_of_lt hx]
    split <;> omega
  have hyOffs : correctOffs yOffs ySize scr.yres + ySize ≤ scr.yres ∨
      correctOffs yOffs ySize scr.yres = 0 ∧ scr.yres < yOffs + ySize := by
    rw [correctOffs, u32_of_lt hy]
    split <;> omega
  have hV : scr.yresVirtual ≤ scr.xStride * scr.yresVirtual * d.cpp :=
    (Nat.le_mul_of_pos_left _ hS).trans (Nat.le_mul_of_pos_right _ hcpp)
  have hstart : (correctOffs yOffs ySize scr.yres + scr.yoffset) * scr.xStride +
      correctOffs xOffs xSize scr.xStride ≤ scr.xStride * scr.yresVirtual := by
    have hrow : (correctOffs yOffs ySize scr.yres + scr.yoffset + 1) * scr.xStride ≤
        scr.yresVirtual * scr.xStride := Nat.mul_le_mul_right _ (by omega)
    rw [Nat.succ_mul, Nat.mul_comm scr.yresVirtual] at hrow
    omega
  rw [u32_of_lt (show correctOffs yOffs ySize scr.yres + scr.yoffset < 2 ^ 32 by omega),
    u32_of_lt (lt_of_le_of_lt (Nat.mul_le_mul_right _ hstart) hscr),
    Nat.mul_le_mul_right_iff hcpp, firstRow_le_iff (by omega) hxOffs]
  omega

theorem u32Sub_of_le {a b : ℕ} (h : b ≤ a) (ha : a < 2 ^ 32) : u32Sub a b = a - b := by
  have hsplit : a + (2 ^ 32 - b) = a - b + 2 ^ 32 := by omega
  rw [u32Sub, u32_of_lt (lt_of_le_of_lt h ha), u32, hsplit, Nat.add_mod_right, Nat.mod_eq_of_lt (by omega)]

/-- The limit of the pan wraps where the picture is smaller than the screen: no pan is put back. -/
theorem correctPan_of_lt {pan size screen : ℕ} (h : size < screen) (hscreen : screen < 2 ^ 31)
    (hpan : pan ≤ 2 ^ 31) : correctPan pan size screen = pan := by
  have hlimit : u32Sub size screen = size + (2 ^ 32 - screen) := by
    rw [u32Sub, u32_of_lt (show screen < 2 ^ 32 by omega), u32_of_lt (by omega)]
  rw [correctPan, hlimit, if_neg (by omega)]

/-- **What is read** of a picture at least as wide and as high as the visible part: the rows that
`y_pan` skips must be rows the virtual screen has no place for. -/
theorem read_iff (hS : 0 < scr.xStride) (hx : scr.xStride ≤ xSize) (hyres : 1 ≤ scr.yres)
    (hy : scr.yres ≤ ySize) (hpic : xSize * ySize * d.cpp < 2 ^ 32) :
    u32 ((correctPan yPan ySize scr.yres * xSize + correctPan xPan xSize scr.xStride) * d.cpp) ≤
        ((ySize - scr.yresVirtual) * xSize + (xSize - scr.xStride)) * d.cpp ↔
      yPan ≤ ySize - scr.yresVirtual ∨ ySize - scr.yres < yPan := by
  have hcpp := d.cpp_pos
  have hxSize : xSize ≤ xSize * ySize * d.cpp :=
    (Nat.le_mul_of_pos_right _ (by omega)).trans (Nat.le_mul_of_pos_right _ hcpp)
  have hySize : ySize ≤ xSize * ySize * d.cpp :=
    (Nat.le_mul_of_pos_left _ (by omega)).trans (Nat.le_mul_of_pos_right _ hcpp)
  have hxPan : correctPan xPan xSize scr.xStride ≤ xSize - scr.xStride := by
    rw [correctPan, u32Sub_of_le hx (by omega)]
    split <;> omega
  have hyPan : correctPan yPan ySize scr.yres = if ySize - scr.yres < yPan then 0 else yPan := by
    rw [correctPan, u32Sub_of_le hy (by omega)]
  have hle : correctPan yPan ySize scr.yres + 1 ≤ ySize := by
    rw [hyPan]
    split <;> omega
  have hstart : correctPan yPan ySize scr.yres * xSize + correctPan xPan xSize scr.xStride ≤
      xSize * ySize := by
    have hrow : (correctPan yPan ySize scr.yres + 1) * xSize ≤ ySize * xSize :=
      Nat.mul_le_mul_right _ hle
    rw [Nat.succ_mul, Nat.mul_comm ySize] at hrow
    omega
  rw [u32_of_lt (lt_of_le_of_lt (Nat.mul_le_mul_right _ hstart) hpic), Nat.mul_le_mul_right_iff hcpp,
    firstRow_le_iff (by omega) hxPan, hyPan]
  split <;> omega

/-- Of a picture smaller than the screen nothing may be skipped. -/
theorem read_iff_of_lt (hx : xSize < scr.xStride) (hy : ySize < scr.yres)
    (hvirt : scr.yres ≤ scr.yresVirtual) (hyres : scr.yres < 2 ^ 31) (hstride : scr.xStride < 2 ^ 31)
    (hxSize : 1 ≤ xSize) (hxPan : xPan ≤ 2 ^ 31) (hyPan : yPan ≤ 2 ^ 31)
    (hstart : (yPan * xSize + xPan) * d.cpp < 2 ^ 32) :
    u32 ((correctPan yPan ySize scr.yres * xSize + correctPan xPan xSize scr.xStride) * d.cpp) ≤
        ((ySize - scr.yresVirtual) * xSize + (xSize - scr.xStride)) * d.cpp ↔
      xPan = 0 ∧ yPan = 0 := by
  have hrows : ySize - scr.yresVirtual = 0 := by omega
  have hcols : xSize - scr.xStride = 0 := by omega
  rw [correctPan_of_lt hx hstride hxPan, correctPan_of_lt hy hyres hyPan, u32_of_lt hstart,
    hrows, hcols, Nat.mul_le_mul_right_iff d.cpp_pos, Nat.zero_mul, Nat.add_zero, Nat.le_zero,
    Nat.add_eq_zero_iff, Nat.mul_eq_zero]
  omega

end Bounds

/-! ## Pitch -/

section Pitch

variable {scr : Screen} {d : Depth} {xres xSize ySize xOffs yOffs : ℕ}

/-- Every picture of this size is shown where the driver has the pixels from column `xOffs` of the
visible row `yOffs` on. -/
def Lands (scr : Screen) (d : Depth) (xSize ySize xOffs yOffs : ℕ) : Prop :=
  ∀ (n : ℕ) (rgbbuff : Arr UInt8 n), xSize * ySize * 3 ≤ n → ∀ fb : Arr UInt8 scr.memLen,
    ∃ fb', fbDisplay scr fb rgbbuff none xSize ySize 0 0 xOffs yOffs = some fb' ∧
      Shows scr d xSize ySize xOffs (yOffs + scr.yoffset) rgbbuff fb fb'

/-- The pitch is recomputed right, or there is only one row and it is the first one of the
framebuffer, or there is no pixel. -/
inductive PitchKept (scr : Screen) (d : Depth) (xSize ySize xOffs yOffs : ℕ) : Prop where
  | empty (h : xSize = 0 ∨ ySize = 0)
  | pitch (h : scr.xStride * d.cpp = scr.lineLength) (hrows : ySize < 2 ^ 31)
  | top (hrow : ySize = 1) (htop : yOffs + scr.yoffset = 0) (hx : xOffs + xSize ≤ scr.xStride)
      (hend : (xOffs + xSize) * d.cpp ≤ scr.mapLen d) (hmem : scr.mapLen d ≤ scr.memLen)

theorem lands_of_pitchKept (hbpp : scr.bitsPerPixel = d.bpp) (hline : xres * d.cpp ≤ scr.lineLength)
    (hvirt : scr.yoffset + scr.yres ≤ scr.yresVirtual)
    (hmem : scr.lineLength * scr.yresVirtual ≤ scr.memLen) (hsize : scr.memLen < 2 ^ 32)
    (hx : xOffs + xSize ≤ xres) (hy : yOffs + ySize ≤ scr.yres)
    (h : PitchKept scr d xSize ySize xOffs yOffs) : Lands scr d xSize ySize xOffs yOffs := by
  intro n rgbbuff hn fb
  have hcpp := d.cpp_pos
  by_cases hempty : xSize = 0 ∨ ySize = 0
  · exact ⟨fb, fbDisplay_of_empty hbpp hempty fb rgbbuff 0 0,
      fun j hj i hi => absurd hempty (by omega), fun _ _ => rfl⟩
  have hxSize : 0 < xSize := by omega
  have hySize : 0 < ySize := by omega
  cases h with
  | empty h => exact absurd h hempty
  | pitch hpitch hrows =>
    have hwidth : xOffs + xSize ≤ scr.xStride :=
      hx.trans (Nat.le_of_mul_le_mul_right (hpitch ▸ hline) hcpp)
    exact fbDisplay_shows_of_pitch hbpp hpitch hxSize hySize hwidth hy hvirt hmem hsize hrows fb
      rgbbuff hn
  | top hrow htop hwidth hend hmap =>
    subst hrow
    have hstride := Screen.xStride_mul_cpp_lt hbpp
    have hbytes : (xOffs + xSize) * d.cpp ≤ scr.xStride * d.cpp := Nat.mul_le_mul_right _ hwidth
    have hcols : xSize ≤ (xOffs + xSize) * d.cpp :=
      (Nat.le_add_left _ _).trans (Nat.le_mul_of_pos_right _ hcpp)
    have hlineV : scr.yresVirtual ≤ scr.lineLength * scr.yresVirtual := by
      refine Nat.le_mul_of_pos_left _ (lt_of_lt_of_le ?_ hline)
      exact Nat.mul_pos (by omega) hcpp
    rw [Nat.add_mul] at hbytes hend hcols
    refine fbDisplay_shows hbpp hxSize hySize hwidth hy hvirt (by omega) (by decide) (by omega) hmap
      ?_ ?_ fb rgbbuff hn
    · intro j hj
      obtain rfl : j = 0 := by omega
      rw [htop, Nat.zero_mul, Nat.zero_add, u32_of_lt (by omega), Screen.pixel]
      omega
    · rw [htop, Screen.pixel]
      omega

/-! ### A white picture on a black screen -/

/-- The bytes a copy writes. -/
def RowCopy.Covers (g : RowCopy) (b : ℕ) : Prop :=
  ∃ i < g.rows, ∃ o < g.len, b = g.dst + i * g.dstStep + o

theorem RowCopy.Covers.bounds {g : RowCopy} {b : ℕ} (h : g.Covers b) :
    g.dst ≤ b ∧ b < g.dst + (g.rows - 1) * g.dstStep + g.len := by
  obtain ⟨i, hi, o, ho, rfl⟩ := h
  have hle : i * g.dstStep ≤ (g.rows - 1) * g.dstStep := Nat.mul_le_mul_right _ (by omega)
  omega

/-- Copies that write the same bytes start and end at the same byte. -/
theorem RowCopy.ends_eq {g g' : RowCopy} (hrows : 0 < g.rows) (hlen : 0 < g.len)
    (hrows' : 0 < g'.rows) (hlen' : 0 < g'.len) (h : ∀ b, g.Covers b ↔ g'.Covers b) :
    g.dst = g'.dst ∧ g.dst + (g.rows - 1) * g.dstStep + g.len =
      g'.dst + (g'.rows - 1) * g'.dstStep + g'.len := by
  have hfirst : ∀ {g : RowCopy}, 0 < g.rows → 0 < g.len → g.Covers g.dst :=
    fun hr hl => ⟨0, hr, 0, hl, by omega⟩
  have hlast : ∀ {g : RowCopy}, 0 < g.rows → 0 < g.len →
      g.Covers (g.dst + (g.rows - 1) * g.dstStep + (g.len - 1)) :=
    fun hr hl => ⟨_, by omega, _, by omega, rfl⟩
  have h₁ := ((h _).mp (hfirst hrows hlen)).bounds
  have h₂ := ((h _).mpr (hfirst hrows' hlen')).bounds
  have h₃ := ((h _).mp (hlast hrows hlen)).bounds
  have h₄ := ((h _).mpr (hlast hrows' hlen')).bounds
  omega

/-- White has no zero byte. -/
theorem encode_white_ne (d : Depth) {k : ℕ} (hk : k < d.cpp) :
    ∃ v ≠ 0, (encode d ⟨255, 255, 255⟩)[k]? = some v := by
  have hzero : 0 ∉ encode d ⟨255, 255, 255⟩ := by
    cases d <;> decide +kernel
  have hlen : k < (encode d ⟨255, 255, 255⟩).length := by rwa [length_encode]
  exact ⟨_, ne_of_mem_of_not_mem (List.getElem_mem hlen) hzero, List.getElem?_eq_getElem hlen⟩

theorem rgbAt_white {n i : ℕ} (h : i * 3 + 2 < n) :
    rgbAt (fun _ : Fin n => 255) i = some ⟨255, 255, 255⟩ := by
  have hload : ∀ k < 3, (Arr.load (fun _ : Fin n => (255 : UInt8)) ((i : ℤ) * 3 + (k : ℕ))) =
      some 255 := fun k hk => dif_pos (by omega)
  exact rgbAt_eq_some_iff.mpr ⟨hload 0 (by decide), hload 1 (by decide), hload 2 (by decide)⟩

theorem convertRGB2FB_white {count : ℕ} {fbbuff : List UInt8}
    (h : convertRGB2FB (fun _ : Fin (count * 3) => 255) count d = some fbbuff) {m : ℕ}
    (hm : m < count * d.cpp) : ∃ v ≠ 0, fbbuff[m]? = some v := by
  obtain ⟨_, h', -, hpix⟩ := convertRGB2FB_spec (fun _ : Fin (count * 3) => 255) le_rfl d
  obtain rfl := Option.some.inj (h.symm.trans h')
  have hi : m / d.cpp < count := (Nat.div_lt_iff_lt_mul d.cpp_pos).mpr hm
  have hk := Nat.mod_lt m d.cpp_pos
  obtain ⟨v, hv, hget⟩ := encode_white_ne d hk
  refine ⟨v, hv, ?_⟩
  rw [← Nat.div_add_mod' m d.cpp, hpix _ hi _ (rgbAt_white (by omega)) _ hk, hget]

theorem eq_zero_of_load_black {n : ℕ} {j : ℤ} {v : UInt8}
    (h : Arr.load (fun _ : Fin n => (0 : UInt8)) j = some v) : v = 0 := by
  unfold Arr.load at h
  split at h
  · exact (Option.some.inj h).symm
  · cases h

theorem asInt_toNat_le (n : ℕ) : (asInt n).toNat ≤ n := by
  have hle : u32 n ≤ n := Nat.mod_le _ _
  unfold asInt
  split <;> omega

/-- Where the picture belongs. -/
def pictureCopy (scr : Screen) (d : Depth) (xSize ySize x y : ℕ) : RowCopy where
  rows := ySize
  len := xSize * d.cpp
  dst := scr.pixel d x y
  src := 0
  dstStep := scr.lineLength
  srcStep := 0

/-- The bytes where the picture belongs are the bytes of its pixels. -/
theorem pictureCopy_covers_iff {x y b : ℕ} :
    (pictureCopy scr d xSize ySize x y).Covers b ↔
      ∃ j < ySize, ∃ i < xSize, ∃ k < d.cpp, b = scr.pixel d (x + i) (y + j) + k := by
  have hpixel : ∀ i j k, scr.pixel d (x + i) (y + j) + k =
      scr.pixel d x y + j * scr.lineLength + (i * d.cpp + k) := by
    intro i j k
    simp only [Screen.pixel]
    ring
  constructor
  · rintro ⟨j, hj, o, ho, rfl⟩
    refine ⟨j, hj, o / d.cpp, (Nat.div_lt_iff_lt_mul d.cpp_pos).mpr ho, o % d.cpp,
      Nat.mod_lt o d.cpp_pos, ?_⟩
    rw [hpixel, Nat.div_add_mod']
    rfl
  · rintro ⟨j, hj, i, hi, k, hk, rfl⟩
    exact ⟨j, hj, _, cell_lt hi hk, hpixel i j k⟩

/-- What a screen that shows every picture maps and writes. -/
structure WritesPlace (scr : Screen) (d : Depth) (xSize ySize xOffs yOffs : ℕ) : Prop where
  mem : scr.mapLen d ≤ scr.memLen
  covers : ∀ b, (displayCopy scr d xSize ySize 0 0 xOffs yOffs).Covers b ↔
    (pictureCopy scr d xSize ySize xOffs (yOffs + scr.yoffset)).Covers b
  inside : ∀ b, (displayCopy scr d xSize ySize 0 0 xOffs yOffs).Covers b → b < scr.mapLen d

/-- A shown white picture leaves no zero byte in its place. -/
theorem load_of_shows_white {x y b : ℕ} {fb fb' : Arr UInt8 scr.memLen}
    (h : Shows scr d xSize ySize x y (fun _ : Fin (xSize * ySize * 3) => 255) fb fb')
    (hb : (pictureCopy scr d xSize ySize x y).Covers b) : ∃ v ≠ 0, fb'.load (b : ℕ) = some v := by
  obtain ⟨j, hj, i, hi, k, hk, rfl⟩ := pictureCopy_covers_iff.mp hb
  obtain ⟨v, hv, hget⟩ := encode_white_ne d hk
  have hcell : j * xSize + i < ySize * xSize := rowMajor_lt hj hi
  rw [Nat.mul_comm ySize] at hcell
  exact ⟨v, hv, by rw [h.1 j hj i hi _ (rgbAt_white (by omega)) k hk, hget]⟩

/-- Without pans the rows are read inside the picture. -/
theorem displayCopy_src_lt {i o : ℕ} (hpitch : xSize * d.cpp < 2 ^ 32)
    (hi : i < (displayCopy scr d xSize ySize 0 0 xOffs yOffs).rows)
    (ho : o < (displayCopy scr d xSize ySize 0 0 xOffs yOffs).len) :
    (displayCopy scr d xSize ySize 0 0 xOffs yOffs).src +
      i * (displayCopy scr d xSize ySize 0 0 xOffs yOffs).srcStep + o < xSize * ySize * d.cpp := by
  have hi' : i < ySize := (hi.trans_le (asInt_toNat_le _)).trans_le (min_le_left _ _)
  have ho' : o < xSize * d.cpp := ho.trans_le (Nat.mul_le_mul_right _ (min_le_left _ _))
  have hsrc : (displayCopy scr d xSize ySize 0 0 xOffs yOffs).src = 0 := by
    simp only [displayCopy, correctPan, ite_self, Nat.zero_mul, Nat.zero_add, u32, Nat.zero_mod]
  have hsrcStep : (displayCopy scr d xSize ySize 0 0 xOffs yOffs).srcStep = xSize * d.cpp :=
    u32_of_lt hpitch
  have harea : xSize * ySize * d.cpp = ySize * (xSize * d.cpp) := by ring
  rw [hsrc, hsrcStep, Nat.zero_add, harea]
  exact rowMajor_lt hi' ho'

theorem writesPlace_of_lands (hbpp : scr.bitsPerPixel = d.bpp) (hxSize : 0 < xSize)
    (hySize : 0 < ySize) (hcount : xSize * ySize < 2 ^ 32) (hpitch : xSize * d.cpp < 2 ^ 32)
    (h : Lands scr d xSize ySize xOffs yOffs) : WritesPlace scr d xSize ySize xOffs yOffs := by
  obtain ⟨fb', hrun, hshows⟩ := h _ (fun _ : Fin (xSize * ySize * 3) => 255) le_rfl fun _ => 0
  have hstride := Screen.xStride_mul_cpp_lt hbpp
  have hfirst : (pictureCopy scr d xSize ySize xOffs (yOffs + scr.yoffset)).Covers
      (scr.pixel d xOffs (yOffs + scr.yoffset)) :=
    pictureCopy_covers_iff.mpr ⟨0, hySize, 0, hxSize, 0, d.cpp_pos, rfl⟩
  obtain ⟨fbbuff, hconv, hlen, -⟩ :=
    convertRGB2FB_spec (fun _ : Fin (xSize * ySize * 3) => 255) le_rfl d
  rw [fbDisplay_eq hbpp, u32_of_lt hcount, hconv, Option.bind_some] at hrun
  split at hrun
  · obtain rfl := Option.some.inj hrun
    obtain ⟨v, hv, hload⟩ := load_of_shows_white hshows hfirst
    exact absurd (eq_zero_of_load_black hload) hv
  rename_i hmapped
  have hmem : scr.mapLen d ≤ scr.memLen := by omega
  have hrow : (displayCopy scr d xSize ySize 0 0 xOffs yOffs).len ≤
      (displayCopy scr d xSize ySize 0 0 xOffs yOffs).dstStep := by
    change min xSize scr.xStride * d.cpp ≤ u32 (scr.xStride * d.cpp)
    rw [u32_of_lt (by omega)]
    exact Nat.mul_le_mul_right _ (min_le_right _ _)
  obtain ⟨hwritten, hkept⟩ := RowCopy.run_load hrow hrun
  have hwhite : ∀ b, (displayCopy scr d xSize ySize 0 0 xOffs yOffs).Covers b →
      ∃ v ≠ 0, fb'.load (b : ℕ) = some v := by
    rintro b ⟨i, hi, o, ho, rfl⟩
    rw [hwritten i hi o ho]
    exact convertRGB2FB_white hconv (displayCopy_src_lt hpitch hi ho)
  refine ⟨hmem, fun b => ⟨fun hb => ?_, fun hb => ?_⟩, fun b hb => ?_⟩
  · by_contra hout
    obtain ⟨v, hv, hload⟩ := hwhite b hb
    rw [hshows.2 b fun j hj i hi k hk hbk => hout (pictureCopy_covers_iff.mpr
      ⟨j, hj, i, hi, k, hk, Nat.cast_injective hbk⟩)] at hload
    exact hv (eq_zero_of_load_black hload)
  · by_contra hout
    obtain ⟨v, hv, hload⟩ := load_of_shows_white hshows hb
    rw [hkept b fun i hi o ho hbo => hout ⟨i, hi, o, ho, Nat.cast_injective hbo⟩] at hload
    exact hv (eq_zero_of_load_black hload)
  · obtain ⟨i, hi, o, ho, rfl⟩ := hb
    obtain ⟨hend, -⟩ := (RowCopy.run_isSome_iff _ hmem (by omega) (by omega)).mp ⟨fb', hrun⟩
    have hlast := RowCopy.Covers.bounds ⟨i, hi, o, ho, rfl⟩
    omega

/-- `fb_display` computes at most twice the driver's pitch. -/
theorem Screen.pitch_le (hbpp : scr.bitsPerPixel = d.bpp) :
    scr.xStride * d.cpp ≤ 2 * scr.lineLength := by
  have hu : u32 (scr.lineLength * 8) ≤ scr.lineLength * 8 := Nat.mod_le _ _
  have hdiv : scr.xStride * d.bpp ≤ u32 (scr.lineLength * 8) := by
    rw [Screen.xStride, hbpp]
    exact Nat.div_mul_le_self _ _
  cases d <;> simp only [Depth.bpp, Depth.cpp] at hdiv ⊢ <;> omega

theorem correctOffs_cases (hx : xOffs + xSize < 2 ^ 32) :
    (correctOffs xOffs xSize scr.xStride = xOffs ∧ xOffs + xSize ≤ scr.xStride) ∨
      (correctOffs xOffs xSize scr.xStride = 0 ∧ scr.xStride < xOffs + xSize) := by
  rw [correctOffs, u32_of_lt hx]
  split
  · exact .inr ⟨rfl, by omega⟩
  · exact .inl ⟨rfl, by omega⟩

/-- Where the first row starts right at another pitch than the driver's, it is the first row of the
framebuffer. -/
theorem top_of_start {P L cpp S ox t : ℕ} (hcpp : 0 < cpp) (hP : S * cpp = P) (hne : P ≠ L)
    (hle : P ≤ 2 * L) (hwidth : (xOffs + xSize) * cpp ≤ L) (hcols : xSize ≤ S)
    (hsmall : t * L + L < 2 ^ 32)
    (hox : (ox = xOffs ∧ xOffs + xSize ≤ S) ∨ (ox = 0 ∧ S < xOffs + xSize))
    (hstart : u32 ((t * S + ox) * cpp) = t * L + xOffs * cpp) : t = 0 ∧ xOffs + xSize ≤ S := by
  have hexp : (t * S + ox) * cpp = t * P + ox * cpp := by rw [← hP]; ring
  rw [hexp] at hstart
  have hoxle : ox * cpp ≤ xOffs * cpp := Nat.mul_le_mul_right _ (by omega)
  rw [Nat.add_mul] at hwidth
  rcases Nat.lt_or_gt_of_ne hne with hlt | hgt
  · -- a smaller pitch: nothing wraps, so both summands agree
    have htP : t * P ≤ t * L := Nat.mul_le_mul_left _ hlt.le
    rw [u32_of_lt (by omega)] at hstart
    have htop : t * P = t * L := by omega
    have hcell : ox * cpp = xOffs * cpp := by omega
    refine ⟨?_, ?_⟩
    · by_contra ht
      exact hne (Nat.eq_of_mul_eq_mul_left (Nat.pos_of_ne_zero ht) htop)
    · have heq := Nat.eq_of_mul_eq_mul_right hcpp hcell
      omega
  · -- a larger pitch: the offset stays, and what `t` rows are too long by is no multiple of `2 ^ 32`
    have hfit : xOffs + xSize ≤ S := by
      by_contra hout
      have hover : S * cpp ≤ (xOffs + xSize) * cpp := Nat.mul_le_mul_right _ (by omega)
      rw [Nat.add_mul] at hover
      omega
    obtain ⟨e, rfl⟩ := Nat.exists_eq_add_of_lt hgt
    have hrows : t * (L + e + 1) = t * L + t * (e + 1) := by ring
    have hover : t * (e + 1) ≤ t * L := Nat.mul_le_mul_left _ (by omega)
    obtain rfl : ox = xOffs := by omega
    refine ⟨?_, hfit⟩
    rw [hrows, u32] at hstart
    have hzero : t * (e + 1) = 0 := by omega
    exact (Nat.mul_eq_zero.mp hzero).resolve_right (by omega)

/-- The rows end together only if they are as long as the picture's, and then there is one row or
the pitch is the driver's. -/
theorem pitch_of_end {P L cpp S H : ℕ} (hcpp : 0 < cpp) (hP : S * cpp = P) (hwidth : xSize * cpp ≤ L)
    (hH : 0 < H)
    (hend : (H - 1) * P + min xSize S * cpp = (H - 1) * L + xSize * cpp) :
    xSize ≤ S ∧ (H = 1 ∨ P = L) := by
  have hcols : xSize ≤ S := by
    by_contra hlt
    have hcut : S * cpp < xSize * cpp := Nat.mul_lt_mul_of_pos_right (by omega) hcpp
    have hrows : (H - 1) * P ≤ (H - 1) * L := Nat.mul_le_mul_left _ (by omega)
    rw [min_eq_right (by omega)] at hend
    omega
  rw [min_eq_left hcols] at hend
  refine ⟨hcols, ?_⟩
  by_cases hone : H = 1
  · exact .inl hone
  · exact .inr (Nat.eq_of_mul_eq_mul_left (by omega) (Nat.add_right_cancel hend))

/-- A picture of which rows are copied is copied as a whole: a count of rows from `2 ^ 31` on is
negative as an `int`. -/
theorem displayCopy_rows (hvirt : ySize ≤ scr.yresVirtual) (hlt : ySize < 2 ^ 32)
    (hpos : 0 < (displayCopy scr d xSize ySize 0 0 xOffs yOffs).rows) :
    ySize < 2 ^ 31 ∧ (displayCopy scr d xSize ySize 0 0 xOffs yOffs).rows = ySize := by
  have hrows : (displayCopy scr d xSize ySize 0 0 xOffs yOffs).rows = (asInt ySize).toNat := by
    change (asInt (min ySize scr.yresVirtual)).toNat = _
    rw [min_eq_left hvirt]
  have hint : ySize < 2 ^ 31 := by
    by_contra hlarge
    rw [hrows, asInt, u32_of_lt hlt, if_neg hlarge] at hpos
    omega
  rw [hrows, asInt_of_lt hint, Int.toNat_natCast]
  exact ⟨hint, rfl⟩

/-- Where the bytes of the picture's place are written, the pitch is kept. -/
theorem pitchKept_of_writesPlace (hbpp : scr.bitsPerPixel = d.bpp) (hxSize : 0 < xSize)
    (hySize : 0 < ySize) (hwidth : (xOffs + xSize) * d.cpp ≤ scr.lineLength)
    (hy : yOffs + ySize ≤ scr.yres) (hvirt : scr.yoffset + scr.yres ≤ scr.yresVirtual)
    (hsize : scr.lineLength * scr.yresVirtual < 2 ^ 32)
    (hw : WritesPlace scr d xSize ySize xOffs yOffs) : PitchKept scr d xSize ySize xOffs yOffs := by
  have hcpp := d.cpp_pos
  have hlen : 0 < xSize * d.cpp := Nat.mul_pos hxSize hcpp
  have hpitch : xSize * d.cpp ≤ (xOffs + xSize) * d.cpp := Nat.mul_le_mul_right _ (by omega)
  have hcols : xOffs + xSize ≤ (xOffs + xSize) * d.cpp := Nat.le_mul_of_pos_right _ hcpp
  have hlast : (yOffs + scr.yoffset + 1) * scr.lineLength ≤ scr.lineLength * scr.yresVirtual := by
    rw [Nat.mul_comm scr.lineLength]
    exact Nat.mul_le_mul_right _ (by omega)
  rw [Nat.succ_mul] at hlast
  have hvirtual : scr.yresVirtual ≤ scr.lineLength * scr.yresVirtual :=
    Nat.le_mul_of_pos_left _ (by omega)
  obtain ⟨i, hi, o, ho, -⟩ := (hw.covers _).mpr
    (pictureCopy_covers_iff.mpr ⟨0, hySize, 0, hxSize, 0, hcpp, rfl⟩)
  obtain ⟨hint, hrows⟩ := displayCopy_rows (by omega) (by omega) (Nat.zero_lt_of_lt hi)
  obtain ⟨hdst, hend⟩ := RowCopy.ends_eq (by omega) (by omega) hySize hlen hw.covers
  have hstride := Screen.xStride_mul_cpp_lt hbpp
  have hstep : (displayCopy scr d xSize ySize 0 0 xOffs yOffs).dstStep = scr.xStride * d.cpp :=
    u32_of_lt (by omega)
  have hends : (ySize - 1) * (scr.xStride * d.cpp) + min xSize scr.xStride * d.cpp =
      (ySize - 1) * scr.lineLength + xSize * d.cpp := by
    rw [hrows, hstep, hdst, Nat.add_assoc, Nat.add_assoc] at hend
    exact Nat.add_left_cancel hend
  obtain ⟨hfit, hone⟩ := pitch_of_end hcpp rfl (by omega) hySize hends
  by_cases hkept : scr.xStride * d.cpp = scr.lineLength
  · exact .pitch hkept hint
  have hrow : ySize = 1 := hone.resolve_right hkept
  have hyOffs : correctOffs yOffs ySize scr.yres = yOffs := by
    rw [correctOffs, u32_of_lt (by omega), if_neg (by omega)]
  have hstart : u32 (((yOffs + scr.yoffset) * scr.xStride + correctOffs xOffs xSize scr.xStride) *
      d.cpp) = (yOffs + scr.yoffset) * scr.lineLength + xOffs * d.cpp := by
    have h := hdst
    simp only [displayCopy, hyOffs, u32_of_lt (show yOffs + scr.yoffset < 2 ^ 32 by omega)] at h
    exact h
  obtain ⟨htop, hwide⟩ := top_of_start hcpp rfl hkept (Screen.pitch_le hbpp) hwidth hfit (by omega)
    (correctOffs_cases (by omega)) hstart
  have hcover : (pictureCopy scr d xSize ySize xOffs (yOffs + scr.yoffset)).Covers
      (scr.pixel d xOffs (yOffs + scr.yoffset) + 0 * scr.lineLength + (xSize * d.cpp - 1)) :=
    ⟨0, hySize, xSize * d.cpp - 1, Nat.sub_lt hlen one_pos, rfl⟩
  have hbyte := hw.inside _ ((hw.covers _).mpr hcover)
  refine .top hrow htop hwide ?_ hw.mem
  rw [htop, Screen.pixel] at hbyte
  rw [Nat.add_mul]
  omega

/-- **Where pictures land**: on the driver's pixels exactly if the recomputed pitch is the driver's,
or the only row is the first one of the framebuffer. -/
theorem lands_iff (hbpp : scr.bitsPerPixel = d.bpp) (hline : xres * d.cpp ≤ scr.lineLength)
    (hvirt : scr.yoffset + scr.yres ≤ scr.yresVirtual)
    (hmem : scr.lineLength * scr.yresVirtual ≤ scr.memLen) (hsize : scr.memLen < 2 ^ 32)
    (hx : xOffs + xSize ≤ xres) (hy : yOffs + ySize ≤ scr.yres) :
    Lands scr d xSize ySize xOffs yOffs ↔ PitchKept scr d xSize ySize xOffs yOffs := by
  refine ⟨fun h => ?_, lands_of_pitchKept hbpp hline hvirt hmem hsize hx hy⟩
  have hcpp := d.cpp_pos
  by_cases hempty : xSize = 0 ∨ ySize = 0
  · exact .empty hempty
  have hxSize : 0 < xSize := by omega
  have hySize : 0 < ySize := by omega
  have hwidth : (xOffs + xSize) * d.cpp ≤ scr.lineLength :=
    (Nat.mul_le_mul_right _ hx).trans hline
  have hpitch : xSize * d.cpp ≤ (xOffs + xSize) * d.cpp := Nat.mul_le_mul_right _ (by omega)
  have hcols : xOffs + xSize ≤ (xOffs + xSize) * d.cpp := Nat.le_mul_of_pos_right _ hcpp
  have hlines : scr.lineLength ≤ scr.lineLength * scr.yresVirtual :=
    Nat.le_mul_of_pos_right _ (by omega)
  have hcount : xSize * ySize ≤ scr.lineLength * scr.yresVirtual :=
    Nat.mul_le_mul (by omega) (by omega)
  exact pitchKept_of_writesPlace hbpp hxSize hySize hwidth hy hvirt (by omega)
    (writesPlace_of_lands hbpp hxSize hySize (by omega) (by omega) h)

/-- 24 bits a pixel, one column and two rows, lines padded to four bytes. -/
def paddedLines : Screen where
  bitsPerPixel := 24
  yres := 2
  yresVirtual := 2
  yoffset := 0
  lineLength := 4
  memLen := 8

/-- The second row starts a byte too early. -/
theorem not_lands_paddedLines : ¬ Lands paddedLines .d24 1 2 0 0 := by
  intro h
  obtain ⟨fb', hrun, hpixels, -⟩ := h 6 (fun _ => 255) (by decide) fun _ => 0
  have hwhite := hpixels 1 (by decide) 0 (by decide) ⟨255, 255, 255⟩ (rgbAt_white (by decide)) 2
    (by decide)
  have hbyte : (fbDisplay paddedLines (fun _ => 0) (fun _ : Fin 6 => 255) none 1 2 0 0 0 0).map
      (fun fb => fb.load 6) = some (some 0) := by decide
  rw [hrun, Option.map_some, Option.some.injEq] at hbyte
  exact absurd (hbyte.symm.trans hwhite) (by decide)

/-- 24 bits a pixel, three columns and three rows, panned down by one row. -/
def pannedLines : Screen where
  bitsPerPixel := 24
  yres := 3
  yresVirtual := 4
  yoffset := 1
  lineLength := 9
  memLen := 36

/-- A picture of two columns and two rows lands there one pixel from the corner. -/
theorem lands_pannedLines : Lands pannedLines .d24 2 2 1 1 :=
  (lands_iff rfl (show 3 * Depth.d24.cpp ≤ pannedLines.lineLength by decide) (by decide)
    (by decide) (by decide) (by decide) (by decide)).mpr (.pitch (by decide) (by decide))

/-- At a depth of whole bytes the pitch is kept on lines of whole pixels. -/
theorem pitch_iff_dvd (hbpp : scr.bitsPerPixel = d.bpp) (hd : d.bpp = d.cpp * 8)
    (hline : scr.lineLength * 8 < 2 ^ 32) :
    scr.xStride * d.cpp = scr.lineLength ↔ d.cpp ∣ scr.lineLength := by
  have hstride : scr.xStride = scr.lineLength / d.cpp := by
    rw [Screen.xStride, u32_of_lt hline, hbpp, hd]
    exact Nat.mul_div_mul_right _ _ (by decide)
  rw [hstride]
  exact ⟨fun h => ⟨_, by rw [Nat.mul_comm]; exact h.symm⟩, Nat.div_mul_cancel⟩

/-- At 15 bits a pixel it is kept on lines of less than 30 bytes only. -/
theorem pitch_iff_of_d15 (hbpp : scr.bitsPerPixel = Depth.d15.bpp)
    (hline : scr.lineLength * 8 < 2 ^ 32) :
    scr.xStride * Depth.d15.cpp = scr.lineLength ↔ 2 ∣ scr.lineLength ∧ scr.lineLength < 30 := by
  rw [Screen.xStride, u32_of_lt hline, hbpp, Depth.bpp, Depth.cpp]
  omega

end Pitch

end MaixSpeech.Display
