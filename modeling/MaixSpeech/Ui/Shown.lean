import MaixSpeech.Display.Rows
import MaixSpeech.Font.Paint
import MaixSpeech.Font.Pixels
import MaixSpeech.Ui.Callbacks

/-!
# What is drawn and what is shown

Reference: `projects/maix_asr/main/src/main.cpp`, `components/utils/src/font.c` and
`components/utils/src/fb_display.c`.

`font_draw` writes `lcd_buf` with three bytes a pixel, or with four at 32 bits, and `convertRGB2FB`
always reads it with three. `shownAsDrawn_iff` compares the two ends: at every depth but 32 each
pixel painted appears on the screen in its colour. At 8 and 15 bits nothing is painted, since
`font_draw` refuses these depths.
-/

namespace MaixSpeech.Ui

open Common Font Display

/-- The arguments of `font_draw` for the whole of `lcd_buf`. -/
def lcdArgs (lBpp charSize xOft yOft : ℤ) (cColor bgColor : UInt32) : DrawArgs where
  bpp := lBpp
  lcdW := lcdW
  lcdH := lcdH
  charSize := charSize
  xOft := xOft
  yOft := yOft
  cColor := cColor
  bgColor := bgColor

/-- At this depth of the framebuffer every text drawn into `lcd_buf` is shown as drawn: from offsets
on the screen `font_draw` gets through, and when it does, `fb_display` gives every pixel painted its
colour on the screen. -/
def ShownAsDrawn (depth : Depth) : Prop :=
  ∀ (env : FontEnv) (charSize xOft yOft : ℤ) (cColor bgColor : UInt32) (text : List Character)
    (lcdBuf : LcdBuf) (scr : Screen) (fb : Arr UInt8 scr.memLen),
    (∀ size, drawnSize charSize = some size → TextAvailable env size text) →
    scr.Holds depth lcdW lcdH →
    let a := lcdArgs (lcdInit depth.bpp) charSize xOft yOft cColor bgColor
    (0 ≤ xOft → 0 ≤ yOft → (fontDraw env lcdBuf a (textCstr text)).isSome) ∧
      ∀ drawn ret, fontDraw env lcdBuf a (textCstr text) = some (drawn, ret) →
        ∃ cv, fontPaint env a (textCstr text) = some (cv, ret) ∧
          ∀ x < lcdW, ∀ y < lcdH, ∀ c, cv (x + y * lcdW : ℕ) = some c →
            ∃ fb', fbDisplay scr fb drawn none lcdW lcdH 0 0 0 0 = some fb' ∧
              fb'.slice (scr.pixel depth x y) depth.cpp = some (encode depth c)

/-! ## From the canvas to the screen -/

section Depths

variable {env : FontEnv} {lBpp charSize xOft yOft : ℤ} {cColor bgColor : UInt32} {lcdBuf : LcdBuf}

/-- From offsets on the screen an available text gets drawn, at 24 and at 32 bits. -/
theorem fontDraw_isSome (hbpp : lBpp = 24 ∨ lBpp = 32) {text : List Character}
    (htext : ∀ size, drawnSize charSize = some size → TextAvailable env size text) (hx : 0 ≤ xOft)
    (hy : 0 ≤ yOft) (lcdBuf : LcdBuf) :
    (fontDraw env lcdBuf (lcdArgs lBpp charSize xOft yOft cColor bgColor) (textCstr text)).isSome := by
  cases hsize : drawnSize charSize with
  | none => simp [fontDraw, fontDrawOn, lcdArgs, hsize]
  | some size =>
    have hpx : (size.px : ℤ) ≤ 240 := by
      have := size.upper
      omega
    have ha : (lcdArgs lBpp charSize xOft yOft cColor bgColor).Valid size :=
      ⟨hsize, by rcases hbpp with rfl | rfl <;> simp [lcdArgs], hpx, hx, hy⟩
    have hroom : (240 * 240 * pixelBytes lBpp : ℤ) ≤ ((lcdW * lcdH * 4 : ℕ) : ℤ) := by
      rcases hbpp with rfl | rfl <;> decide
    have hscan : fontScan env size (textCstr text).length (textCstr text) =
        some (text.map (Character.glyph env size)) :=
      fontScan_textBytes (htext size hsize) [] (by simp [textCstr])
    have hleg : Legible 240 240 size.px (xOft, yOft) (text.map (Character.glyph env size)) :=
      legible_of_readable ((htext size hsize).readable hsize)
    obtain ⟨fb', hdraw, -⟩ := fontDraw_spec ha hscan hleg lcdBuf hroom
    exact Option.isSome_of_eq_some hdraw

/-- At a depth `font_draw` does not support it paints nothing. -/
theorem fontDrawOn_unsupported {S : Type*} {put24 put32 : S → ℤ → Rgb → Option S}
    (hbpp : lBpp ≠ 24 ∧ lBpp ≠ 32 ∧ lBpp ≠ 16) (s : S) (str : List UInt8) :
    fontDrawOn put24 put32 env s (lcdArgs lBpp charSize xOft yOft cColor bgColor) str =
      some (s, if (drawnSize charSize).isNone then -1 else yOft) := by
  cases hsize : drawnSize charSize with
  | none => simp [fontDrawOn, lcdArgs, hsize]
  | some size => simp [fontDrawOn, lcdArgs, hsize, hbpp]

end Depths

/-- **16 and 24 bits**: `font_draw` and `convertRGB2FB` agree. -/
theorem shownAsDrawn_of_rgb {d : Depth} (hd : d.bpp = d.cpp * 8) (hbpp : lcdInit d.bpp = 24) :
    ShownAsDrawn d := by
  intro env charSize xOft yOft cColor bgColor text lcdBuf scr fb htext hscr a
  refine ⟨fun hx hy => ?_, fun drawn ret hdraw => ?_⟩
  · exact fontDraw_isSome (Or.inl hbpp) htext hx hy lcdBuf
  · obtain ⟨⟨cv, ret'⟩, hpaint, hholds, hret⟩ :=
      fontDraw_simulates_paint (Or.inl hbpp) env lcdBuf (textCstr text) _ hdraw
    obtain rfl : ret = ret' := hret
    refine ⟨cv, hpaint, fun x hx y hy c hc => ?_⟩
    obtain ⟨fb', hrun, hshown, -⟩ :=
      fbDisplay_spec hscr hd (by decide) (by decide) fb drawn (le_refl lcdH) (by decide)
    refine ⟨fb', hrun, ?_⟩
    rw [← length_encode d c]
    apply Arr.slice_eq_list
    intro k hk
    rw [length_encode] at hk
    rw [Nat.add_comm] at hc
    exact hshown y hy x hx c (rgbAt_of_holdsRgb hholds hc) k hk

/-- **8 and 15 bits**: nothing is painted. -/
theorem shownAsDrawn_of_unsupported {d : Depth}
    (hbpp : lcdInit d.bpp ≠ 24 ∧ lcdInit d.bpp ≠ 32 ∧ lcdInit d.bpp ≠ 16) : ShownAsDrawn d := by
  intro env charSize xOft yOft cColor bgColor text lcdBuf scr fb htext hscr a
  refine ⟨fun _ _ => ?_, fun drawn ret hdraw => ?_⟩
  · exact Option.isSome_of_eq_some (fontDrawOn_unsupported hbpp lcdBuf _)
  · rw [fontDraw, fontDrawOn_unsupported hbpp] at hdraw
    obtain ⟨rfl, rfl⟩ := Prod.mk.inj (Option.some.inj hdraw)
    refine ⟨_, fontDrawOn_unsupported hbpp _ _, fun x _ y _ c hc => ?_⟩
    exact absurd hc (by simp)

/-! ## 32 bits -/

theorem rgb_black_of_ink {c : Rgb} (h : Ink 0 0 c) : c = ⟨0, 0, 0⟩ := by
  rcases h with rfl | rfl <;> decide

/-- A picture that is black but for byte 3. -/
def almostBlack : LcdBuf := fun j => if (j : ℕ) = 3 then 0xff else 0

/-- The bytes 3, 4 and 5 hold `0xff`, 0 and 0. -/
def Bytes345 (fb : LcdBuf) : Prop :=
  fb.load 3 = some 0xff ∧ fb.load 4 = some 0 ∧ fb.load 5 = some 0

/-- Drawing black in four bytes a pixel keeps the bytes 3, 4 and 5. -/
theorem puts_bytes345 : Puts (putAt putRgb putArgb 32) Bytes345 0 0 0 57600 := by
  intro i c fb hlo hhi hc ⟨h3, h4, h5⟩
  obtain rfl := rgb_black_of_ink hc
  obtain ⟨fb', hput⟩ := putArgb_of_mem fb ⟨0, 0, 0⟩ hlo (by simp only [lcdW, lcdH]; omega)
  refine ⟨fb', hput, ?_, ?_, ?_⟩
  · rw [load_putArgb hput]
    split_ifs <;> first | rfl | exact h3 | omega
  · rw [load_putArgb hput]
    split_ifs <;> first | rfl | exact h4 | omega
  · rw [load_putArgb hput]
    split_ifs <;> first | rfl | exact h5 | omega

/-- **32 bits**: `convertRGB2FB` takes the fourth byte of a pixel for the next pixel's red. -/
theorem not_shownAsDrawn_d32 : ¬ ShownAsDrawn .d32 := by
  intro h
  have hscr : (Screen.exact .d32 lcdW lcdH).Holds .d32 lcdW lcdH :=
    Screen.exact_holds .d32 (by decide)
  have htext : TextAvailable FontEnv.plain size16 [.seven] := available_seven 1 size16
  have ha : (lcdArgs 32 16 0 0 0 0).Valid size16 :=
    ⟨rfl, Or.inr (Or.inl rfl), (by decide : (16 : ℤ) ≤ 240), le_rfl, le_rfl⟩
  let g := Character.seven.glyph FontEnv.plain size16
  have hscan : fontScan FontEnv.plain size16 (textCstr [.seven]).length (textCstr [.seven]) =
      some ([] ++ [g]) := fontScan_textBytes htext [] (by decide)
  have hleg : Legible 240 240 16 (0, 0) ([] ++ [g]) :=
    legible_of_readable (htext.readable (rfl : drawnSize 16 = some size16))
  -- a black 7 in the top left corner keeps byte 3 and paints pixel 1
  have hput : Puts (putAt putRgb putArgb 32) Bytes345 0 0 (240 * 0)
      (240 * min 240 (bottom (lcdArgs 32 16 0 0 0 0) size16 ([] ++ [g]))) :=
    puts_bytes345.mono (by decide) (by omega)
  have hstart : Bytes345 almostBlack := ⟨rfl, rfl, rfl⟩
  obtain ⟨drawn, hdraw, h3, h4, h5⟩ := fontDrawOn_spec Bytes345 ha hscan hleg hput hstart
  obtain ⟨cv, hpaint, c, hink, hcv⟩ := fontPaint_spec ha hscan hleg (by decide) rfl rfl
    (by decide) (by decide : 1 < 8) (by decide : 0 < 16)
  obtain rfl := rgb_black_of_ink hink
  obtain ⟨cv', hpaint', hshown⟩ :=
    (h FontEnv.plain 16 0 0 0 0 [.seven] almostBlack (Screen.exact .d32 lcdW lcdH) (fun _ => 0)
      (fun size _ => available_seven 1 size) hscr).2 drawn _ hdraw
  obtain rfl : cv = cv' := (Prod.mk.inj (Option.some.inj (hpaint.symm.trans hpaint'))).1
  obtain ⟨fb', hrun, hslice⟩ := hshown 1 (by decide) 0 (by decide) _ hcv
  -- the screen shows the bytes 3, 4 and 5 instead
  have hread : rgbAt drawn (0 * lcdW + 1) = some ⟨0xff, 0, 0⟩ := by
    change rgbAt drawn 1 = _
    simp [rgbAt, h3, h4, h5]
  obtain ⟨fb'', hrun', hpix, -⟩ := fbDisplay_spec hscr rfl (by decide) (by decide) (fun _ => 0) drawn
    (le_refl lcdH) (by decide)
  obtain rfl := Option.some.inj (hrun.symm.trans hrun')
  have hslice' : fb'.slice ((Screen.exact .d32 lcdW lcdH).pixel .d32 1 0) Depth.d32.cpp =
      some (encode .d32 ⟨0xff, 0, 0⟩) := by
    apply Arr.slice_eq_list (l := encode .d32 ⟨0xff, 0, 0⟩)
    intro k hk
    exact hpix 0 (by decide) 1 (by decide) _ hread k hk
  rw [hslice] at hslice'
  exact absurd (Option.some.inj hslice') (by decide)

/-- **What is drawn is what is shown, at every depth but 32**. -/
theorem shownAsDrawn_iff (depth : Depth) : ShownAsDrawn depth ↔ depth ≠ .d32 := by
  constructor
  · rintro h rfl
    exact not_shownAsDrawn_d32 h
  · intro h
    cases depth with
    | d8 => exact shownAsDrawn_of_unsupported (by decide)
    | d15 => exact shownAsDrawn_of_unsupported (by decide)
    | d16 => exact shownAsDrawn_of_rgb rfl rfl
    | d24 => exact shownAsDrawn_of_rgb rfl rfl
    | d32 => exact absurd rfl h

/-- A 32-bit framebuffer does not show what is drawn. -/
theorem not_forall_shownAsDrawn : ¬ ∀ depth, ShownAsDrawn depth :=
  fun h => not_shownAsDrawn_d32 (h .d32)

end MaixSpeech.Ui
