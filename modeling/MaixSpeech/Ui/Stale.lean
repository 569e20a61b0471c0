import MaixSpeech.Common.Runs
import MaixSpeech.Display.Rows
import MaixSpeech.Font.Paint
import MaixSpeech.Ui.Flush

/-!
# What stays on the screen

Reference: `projects/maix_asr/main/src/main.cpp`.

A result callback clears `lcd_buf` below the title but shows only the rows down to the end of the
new result. `Shown` says that the screen agrees with `lcd_buf`. From such a state, a callback leads
to such a state exactly when the rows it does not show were black already
(`callbackStep_shown_iff`): otherwise pixels of an earlier result stay on the screen. `noStale_iff`
says so for runs of callbacks on a 24-bit framebuffer.
-/

namespace MaixSpeech.Ui

open Common Font Display

/-! ## The screen -/

/-- `lcd_buf` and the memory of the framebuffer. -/
structure Panel (scr : Screen) where
  lcdBuf : LcdBuf
  fb : Arr UInt8 scr.memLen

variable {F : Type*} {scr : Screen} {env : FontEnv}

/-- An operation on an open framebuffer; `none` behind an access out of bounds. -/
def panelStep (op : LcdBuf → Option (LcdBuf × List FbCall)) (p : Panel scr) : Option (Panel scr) :=
  (op p.lcdBuf).bind fun (lcdBuf, calls) =>
    (calls.foldlM (fun fb (c : FbCall) => fbDisplay scr fb c.rgbbuff none c.xSize c.ySize 0 0 0 0)
      p.fb).map fun fb => ⟨lcdBuf, fb⟩

/-- A result callback. -/
def callbackStep (env : FontEnv) (num : Scores F) (s : Option (Panel scr)) (cb : Callback F) :
    Option (Panel scr) :=
  s.bind (panelStep (callback env num (lcdInit scr.bitsPerPixel) cb))

/-- The left end of row `y` of the screen shows row `y` of `lcd_buf`. -/
def RowShown (p : Panel scr) (y : ℕ) : Prop :=
  ∀ x < lcdW, ∀ c, rgbAt p.lcdBuf (y * lcdW + x) = some c →
    ∀ k < 3, p.fb.load (scr.pixel .d24 x y + k : ℕ) = (encode .d24 c)[k]?

/-- The top left of the screen shows `lcd_buf`. -/
def Shown (s : Option (Panel scr)) : Prop := ∃ p, s = some p ∧ ∀ y < lcdH, RowShown p y

/-- The text of the callback can be drawn, and the rows of `lcd_buf` that it will not show are
black. -/
def NothingStale (env : FontEnv) (s : Option (Panel scr)) (cb : Callback F) : Prop :=
  cb.Drawable env ∧ ∀ p, s = some p → BlackBelow 24 (flushRows env cb) p.lcdBuf

/-! ## Black rows -/

/-- The rows from `rows` on are black when each of their pixels is. -/
theorem blackBelow_iff {rows : ℕ} {lcdBuf : LcdBuf} :
    BlackBelow 24 rows lcdBuf ↔
      ∀ y, rows ≤ y → y < 240 → ∀ x < 240, rgbAt lcdBuf (y * 240 + x) = some ⟨0, 0, 0⟩ := by
  have hpb : pixelBytes 24 = 3 := rfl
  constructor
  · intro h y hy hyh x hx
    have hload (j : ℤ) (hlo : ((y * 240 + x : ℕ) : ℤ) * 3 ≤ j)
        (hhi : j < ((y * 240 + x : ℕ) : ℤ) * 3 + 3) : lcdBuf.load j = some 0 := by
      apply h <;> rw [hpb] <;> push_cast at hlo hhi ⊢ <;> omega
    refine rgbAt_eq_some_iff.mpr ⟨hload _ ?_ ?_, hload _ ?_ ?_, hload _ ?_ ?_⟩ <;> omega
  · intro h j hlo hhi
    rw [hpb] at hlo hhi
    push_cast at hlo hhi
    -- byte `j` belongs to pixel `j / 3`
    obtain ⟨hr, hg, hb⟩ := rgbAt_eq_some_iff.mp
      (h (j.toNat / 720) (by omega) (by omega) (j.toNat / 3 % 240) (by omega))
    have hpix : ((j.toNat / 720 * 240 + j.toNat / 3 % 240 : ℕ) : ℤ) = j / 3 := by omega
    rw [hpix] at hr hg hb
    have hcases : j = j / 3 * 3 ∨ j = j / 3 * 3 + 1 ∨ j = j / 3 * 3 + 2 := by omega
    rcases hcases with hj | hj | hj
    · rw [hj]
      exact hr
    · rw [hj]
      exact hg
    · rw [hj]
      exact hb

/-! ## One operation -/

/-- On a 24-bit framebuffer `l_bpp` is 24. -/
theorem lcdInit_of_holds (hscr : scr.Holds .d24 lcdW lcdH) : lcdInit scr.bitsPerPixel = 24 := by
  rw [hscr.depth]
  rfl

/-- `fb_display` of the upper rows of `lcd_buf` shows these rows and keeps the ones below. -/
theorem fbDisplay_rows (hscr : scr.Holds .d24 lcdW lcdH) (lcdBuf : LcdBuf) (fb : Arr UInt8 scr.memLen)
    {rows : ℕ} (hrows : rows ≤ lcdH) :
    ∃ fb', fbDisplay scr fb lcdBuf none lcdW rows 0 0 0 0 = some fb' ∧
      (∀ y < rows, RowShown ⟨lcdBuf, fb'⟩ y) ∧
      ∀ y, rows ≤ y → ∀ x k, fb'.load (scr.pixel .d24 x y + k : ℕ) =
        fb.load (scr.pixel .d24 x y + k : ℕ) := by
  have hn : lcdW * rows * 3 ≤ lcdW * lcdH * 4 := by
    simp only [lcdW, lcdH] at hrows ⊢
    omega
  obtain ⟨fb', hrun, hshown, hrest⟩ :=
    fbDisplay_spec hscr rfl (by decide) (by decide) fb lcdBuf hrows hn
  refine ⟨fb', hrun, hshown, fun y hy x k => hrest _ fun y' hy' b hb => ?_⟩
  -- row `y'` of the picture ends before row `y` of the screen starts
  have hline : lcdW * 3 ≤ scr.lineLength := hscr.width
  have hrow : (y' + 1) * scr.lineLength ≤ y * scr.lineLength := Nat.mul_le_mul_right _ (by omega)
  have hb3 : b < lcdW * 3 := hb
  rw [Nat.succ_mul] at hrow
  rw [Screen.pixel, Ne, Nat.cast_inj]
  omega

/-- **`lcd_clear`** leads from any state to a black picture on a black screen. -/
theorem lcdClear_shown (hscr : scr.Holds .d24 lcdW lcdH) (p : Panel scr) :
    ∃ p', panelStep (lcdClear (lcdInit scr.bitsPerPixel)) p = some p' ∧ Shown (some p') ∧
      BlackBelow 24 0 p'.lcdBuf := by
  have hbpp := lcdInit_of_holds hscr
  have hlen : ((lcdW : ℤ) * lcdH * 24).tdiv 8 = 172800 := by decide
  have hmemset (buf : LcdBuf) (v : UInt8) : ∃ buf', memset buf 0 v 172800 = some buf' := by
    apply Option.isSome_iff_exists.mp
    rw [memset, if_pos (by decide), Arr.fill_isSome_iff]
    simp only [lcdW, lcdH]
    omega
  obtain ⟨white, hwhite⟩ := hmemset p.lcdBuf 0xff
  obtain ⟨black, hblack⟩ := hmemset white 0x00
  obtain ⟨fb₁, hshow₁, -, -⟩ := fbDisplay_rows hscr white p.fb (le_refl lcdH)
  obtain ⟨fb₂, hshow₂, hrows, -⟩ := fbDisplay_rows hscr black fb₁ (le_refl lcdH)
  refine ⟨⟨black, fb₂⟩, ?_, ⟨_, rfl, hrows⟩, fun j hlo hhi => ?_⟩
  · simp only [panelStep, lcdClear, lcdFlash, hbpp, hlen, hwhite, hblack, Option.bind_some,
      Option.map_some, List.foldlM_cons, hshow₁, hshow₂, List.foldlM_nil, Option.bind_eq_bind,
      Option.pure_def]
  · have hpb : pixelBytes 24 = 3 := rfl
    rw [hpb] at hlo hhi
    push_cast at hlo hhi
    rw [memset, if_pos (by decide)] at hblack
    rw [Arr.load_fill hblack, if_pos (by omega)]

/-- A callback that gets through shows the upper rows of the new `lcd_buf`, keeps the rest of the
screen, and leaves the rest of `lcd_buf` black. -/
theorem callbackStep_spec (num : Scores F) (hscr : scr.Holds .d24 lcdW lcdH) {cb : Callback F}
    (hdraw : cb.Drawable env) (hfits : cb.Fits) (p : Panel scr) :
    ∃ p', callbackStep env num (some p) cb = some p' ∧
      (∀ y < flushRows env cb, RowShown p' y) ∧
      (∀ y, flushRows env cb ≤ y → ∀ x k, p'.fb.load (scr.pixel .d24 x y + k : ℕ) =
        p.fb.load (scr.pixel .d24 x y + k : ℕ)) ∧
      BlackBelow 24 (flushRows env cb) p'.lcdBuf := by
  have hbpp := lcdInit_of_holds hscr
  obtain ⟨lcdBuf', hrun, hblack⟩ := callback_spec num (Or.inl rfl) hdraw hfits p.lcdBuf
  obtain ⟨fb', hshow, hrows, hrest⟩ := fbDisplay_rows hscr lcdBuf' p.fb (flushRows_le hfits)
  refine ⟨⟨lcdBuf', fb'⟩, ?_, hrows, hrest, hblack⟩
  simp only [callbackStep, panelStep, Option.bind_some, hbpp, hrun, List.foldlM_cons, hshow,
    List.foldlM_nil, Option.bind_eq_bind, Option.map_some, Option.pure_def]

/-- Two colours with one encoding at 24 bits are the same. -/
theorem encode_d24_inj {c c' : Rgb} (h : ∀ k < 3, (encode .d24 c)[k]? = (encode .d24 c')[k]?) :
    c = c' := by
  have hb := h 0 (by decide)
  have hg := h 1 (by decide)
  have hr := h 2 (by decide)
  simp only [encode, List.getElem?_cons_zero, List.getElem?_cons_succ, Option.some.injEq] at hb hg hr
  cases c
  cases c'
  simp_all

/-- **One callback**: from a screen that shows `lcd_buf` it leads to one that does exactly when
nothing stale is left below the rows it shows. -/
theorem callbackStep_shown_iff (num : Scores F) (hscr : scr.Holds .d24 lcdW lcdH) {cb : Callback F}
    (hfits : cb.Fits) {s : Option (Panel scr)} (hs : Shown s) :
    Shown (callbackStep env num s cb) ↔ NothingStale env s cb := by
  obtain ⟨p, rfl, hshown⟩ := hs
  constructor
  · rintro ⟨p', hstep, hshown'⟩
    have hdraw : cb.Drawable env := by
      have hrun := hstep
      rw [callbackStep, Option.bind_some, lcdInit_of_holds hscr] at hrun
      obtain ⟨r, hrun, -⟩ := Option.bind_eq_some_iff.mp hrun
      exact drawable_of_callback num (Or.inl rfl) hrun
    refine ⟨hdraw, fun q hq => ?_⟩
    obtain rfl := Option.some.inj hq
    obtain ⟨p₁, hstep₁, -, hkept, hblack⟩ := callbackStep_spec num hscr hdraw hfits p
    obtain rfl := Option.some.inj (hstep.symm.trans hstep₁)
    apply blackBelow_iff.mpr
    intro y hy hyh x hx
    -- the screen still shows the old pixel, and it must show the new, black one
    have hnew := blackBelow_iff.mp hblack y hy hyh x hx
    obtain ⟨c, hc⟩ := rgbAt_of_lt p.lcdBuf (i := y * 240 + x) (by simp only [lcdW, lcdH]; omega)
    have hsame : c = ⟨0, 0, 0⟩ := by
      apply encode_d24_inj
      intro k hk
      rw [← hshown y hyh x hx c hc k hk, ← hkept y hy x k]
      exact hshown' y hyh x hx _ hnew k hk
    rw [hc, hsame]
  · rintro ⟨hdraw, hold⟩
    obtain ⟨p', hstep, hrows, hkept, hblack⟩ := callbackStep_spec num hscr hdraw hfits p
    refine ⟨p', hstep, fun y hy => ?_⟩
    by_cases hlt : y < flushRows env cb
    · exact hrows y hlt
    · intro x hx c hc k hk
      have hnew := blackBelow_iff.mp hblack y (not_lt.mp hlt) hy x hx
      have hblackOld := blackBelow_iff.mp (hold p rfl) y (not_lt.mp hlt) hy x hx
      obtain rfl := Option.some.inj (hnew.symm.trans hc)
      rw [hkept y (not_lt.mp hlt) x k]
      exact hshown y hy x hx _ hblackOld k hk

/-! ## What a result paints -/

/-- **A result text paints its cells**: behind `font_draw`, every pixel of a character on the screen
has one of the two colours of a result. -/
theorem fontDraw_result_paints {yOft : ℤ} (hy : 0 ≤ yOft) {pre post : List Character} {c : Character}
    (htext : TextAvailable env size32 (pre ++ c :: post)) {q : ℤ × ℤ}
    (hq : q = place 240 32 (cursor 240 240 32 (0, yOft) (pre.map (Character.width size32)))
      (c.width size32)) (hfit : q.2 + 32 ≤ 240) {dx dy i : ℕ} (hdx : dx < c.width size32)
    (hdy : dy < 32) (hi : (i : ℤ) = dx + q.1 + (dy + q.2) * 240) {lcdBuf lcdBuf' : LcdBuf} {ret : ℤ}
    (hrun : fontDraw env lcdBuf (resultArgs 24 yOft) (textCstr (pre ++ c :: post)) =
      some (lcdBuf', ret)) :
    ∃ col, Ink fontCYellow fontCBlue col ∧ rgbAt lcdBuf' i = some col := by
  have hscan : fontScan env size32 (textCstr (pre ++ c :: post)).length
      (textCstr (pre ++ c :: post)) =
        some (pre.map (Character.glyph env size32) ++ c.glyph env size32 ::
          post.map (Character.glyph env size32)) := by
    rw [← List.map_cons, ← List.map_append]
    exact fontScan_textBytes htext [] (by simp [textCstr])
  have hleg : Legible 240 240 32 (0, yOft) (pre.map (Character.glyph env size32) ++
      c.glyph env size32 :: post.map (Character.glyph env size32)) := by
    rw [← List.map_cons, ← List.map_append]
    exact legible_of_readable (htext.readable (rfl : drawnSize 32 = some size32))
  rw [← c.glyph_width env size32] at hq hdx
  rw [← map_glyph_width env] at hq
  obtain ⟨cv, hpaint, col, hink, hcv⟩ := fontPaint_spec (resultArgs_valid (Or.inl rfl) hy) hscan hleg
    (by decide : fontCBlue ≠ fontNoBg) rfl hq hfit hdx hdy
  obtain ⟨⟨cv', ret'⟩, hpaint', hholds, -⟩ :=
    fontDraw_simulates_paint (Or.inl rfl) env lcdBuf (textCstr (pre ++ c :: post)) _ hrun
  obtain ⟨rfl, -⟩ := Prod.mk.inj (Option.some.inj (hpaint.symm.trans hpaint'))
  refine ⟨col, hink, rgbAt_of_holdsRgb hholds ?_⟩
  rw [hi]
  exact hcv

/-- The picture behind a digit or word result is the one `font_draw` has left. -/
theorem fontDraw_of_callbackStep (num : Scores F) (hscr : scr.Holds .d24 lcdW lcdH) {cb : Callback F}
    {text : List Character} (hcb : cb = .digit text ∨ cb = .lvcsr text) {s : Option (Panel scr)}
    {p' : Panel scr} (hstep : callbackStep env num s cb = some p') :
    ∃ lcdBuf ret, fontDraw env lcdBuf (resultArgs 24 32) (textCstr text) =
      some (p'.lcdBuf, ret) := by
  obtain ⟨p, -, hstep⟩ := Option.bind_eq_some_iff.mp hstep
  obtain ⟨⟨lcdBuf', calls⟩, hrun, hshow⟩ := Option.bind_eq_some_iff.mp hstep
  obtain ⟨fb, -, rfl⟩ := Option.map_eq_some_iff.mp hshow
  rw [lcdInit_of_holds hscr] at hrun
  exact fontDraw_of_callback num hcb hrun

/-! ## Runs -/

/-- Results that never get shorter leave nothing stale. -/
theorem nothingStale_of_growing (num : Scores F) (hscr : scr.Holds .d24 lcdW lcdH)
    {cbs : List (Callback F)} (hfits : ∀ cb ∈ cbs, cb.Fits) (hdraw : ∀ cb ∈ cbs, cb.Drawable env)
    {rows : ℕ} {p : Panel scr} (hblack : BlackBelow 24 rows p.lcdBuf)
    (hgrow : (rows :: cbs.map (flushRows env)).Pairwise (· ≤ ·)) :
    Along (callbackStep env num) (NothingStale env) (some p) cbs := by
  induction cbs generalizing rows p with
  | nil => trivial
  | cons cb cbs ih =>
    rw [List.map_cons, List.pairwise_cons] at hgrow
    have hle : rows ≤ flushRows env cb := hgrow.1 _ List.mem_cons_self
    obtain ⟨p', hstep, -, -, hblack'⟩ := callbackStep_spec num hscr (hdraw cb List.mem_cons_self)
      (hfits cb List.mem_cons_self) p
    refine ⟨⟨hdraw cb List.mem_cons_self, fun q hq => ?_⟩, ?_⟩
    · obtain rfl := Option.some.inj hq
      exact hblack.mono hle
    · rw [hstep]
      exact ih (fun c hc => hfits c (List.mem_cons_of_mem cb hc))
        (fun c hc => hdraw c (List.mem_cons_of_mem cb hc)) hblack' hgrow.2

/-- **Nothing stale stays on the screen exactly when** every callback draws a text that can be drawn
over a `lcd_buf` whose rows below the shown ones are black: over every sequence of result callbacks
on a 24-bit framebuffer that starts by showing `lcd_buf`. -/
theorem noStale_iff (env : FontEnv) (num : Scores F) (hscr : scr.Holds .d24 lcdW lcdH)
    (cbs : List (Callback F)) (hfits : ∀ cb ∈ cbs, cb.Fits) {s : Option (Panel scr)} (hs : Shown s) :
    Always (callbackStep env num) Shown s cbs ↔
      Along (callbackStep env num) (NothingStale env) s cbs := by
  apply always_iff_along Shown
  · exact fun s hs => hs
  · exact fun s cb hs hcb hok => (callbackStep_shown_iff num hscr hcb hs).mpr hok
  · exact fun s cb hs hcb hshown => (callbackStep_shown_iff num hscr hcb hs).mp hshown
  · exact hs
  · exact (along_input cbs).mpr hfits

/-- A screen of the size of `lcd_buf`, with zeros in both. -/
def Panel.blank : Panel (Screen.exact .d24 lcdW lcdH) := ⟨fun _ => 0, fun _ => 0⟩

/-- After `lcd_clear`, a short text and then a keyword are shown without stale rows. -/
theorem noStale_run :
    Always (callbackStep FontEnv.plain Scores.rational) Shown
      (panelStep (lcdClear 24) Panel.blank) [.lvcsr [.seven], .kws [3 / 4]] := by
  have hscr : (Screen.exact .d24 lcdW lcdH).Holds .d24 lcdW lcdH :=
    Screen.exact_holds .d24 (by decide)
  obtain ⟨p, hclear, hshown, hblack⟩ := lcdClear_shown hscr Panel.blank
  change panelStep (lcdClear 24) Panel.blank = some p at hclear
  rw [hclear]
  have hfits : ∀ cb ∈ [Callback.lvcsr [.seven], Callback.kws [(3 / 4 : ℚ)]], cb.Fits :=
    List.forall_mem_cons.mpr ⟨trivial, List.forall_mem_singleton.mpr (by decide : 1 ≤ 3)⟩
  have hdraw : ∀ cb ∈ [Callback.lvcsr [.seven], Callback.kws [(3 / 4 : ℚ)]],
      cb.Drawable FontEnv.plain :=
    List.forall_mem_cons.mpr ⟨drawable_of_available (available_seven 1 size32) 32,
      List.forall_mem_singleton.mpr trivial⟩
  refine (noStale_iff FontEnv.plain Scores.rational hscr _ hfits hshown).mpr ?_
  exact nothingStale_of_growing Scores.rational hscr hfits hdraw hblack (by decide)

/-- After a text of two lines, a text of one line leaves the second line on the screen. -/
theorem stale_of_longer_before :
    ¬ Always (callbackStep FontEnv.plain Scores.rational) Shown
      (panelStep (lcdClear 24) Panel.blank) [.lvcsr (List.replicate 16 .seven), .lvcsr [.seven]] := by
  intro h
  have hscr : (Screen.exact .d24 lcdW lcdH).Holds .d24 lcdW lcdH :=
    Screen.exact_holds .d24 (by decide)
  rw [always_cons, always_cons, always_nil] at h
  obtain ⟨-, hlong, hshort⟩ := h
  have hfits : (Callback.lvcsr (F := ℚ) [.seven]).Fits := trivial
  obtain ⟨-, hblack⟩ := (callbackStep_shown_iff Scores.rational hscr hfits hlong).mp hshort
  obtain ⟨p, hp, -⟩ := hlong
  obtain ⟨cleared, ret, hdraw⟩ := fontDraw_of_callbackStep Scores.rational hscr (Or.inr rfl) hp
  -- the sixteenth character starts in row 64
  have htext : TextAvailable FontEnv.plain size32 (List.replicate 15 .seven ++ .seven :: []) :=
    available_seven 16 size32
  have hq : ((0, 64) : ℤ × ℤ) = place 240 32 (cursor 240 240 32 (0, 32)
      ((List.replicate 15 Character.seven).map (Character.width size32)))
        (Character.seven.width size32) := by
    rw [List.map_replicate, cursor_of_fits (by decide) (by decide)]
    decide
  have hcell : 0 < Character.seven.width size32 := by decide
  have hi : ((64 * 240 + 0 : ℕ) : ℤ) = (0 : ℕ) + 0 + ((0 : ℕ) + 64) * 240 := by decide
  obtain ⟨col, hink, hpixel⟩ :=
    fontDraw_result_paints (by decide) htext hq (by decide) hcell (by decide) hi hdraw
  have hrow : flushRows FontEnv.plain (Callback.lvcsr (F := ℚ) [.seven]) = 64 := by decide
  have hzero := blackBelow_iff.mp (hblack p hp) 64 hrow.le (by decide) 0 (by decide)
  obtain rfl := Option.some.inj (hpixel.symm.trans hzero)
  rcases hink with hink | hink <;> exact absurd hink (by decide)

end MaixSpeech.Ui
