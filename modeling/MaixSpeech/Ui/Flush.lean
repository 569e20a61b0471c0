import MaixSpeech.Font.Pixels
import MaixSpeech.Ui.Callbacks

/-!
# What a result callback draws and how much of it it shows

Reference: `projects/maix_asr/main/src/main.cpp`.

`flushRows` is the number of rows a result callback hands to `fb_display`: it depends on the widths
of the glyphs found for its text. `callback_spec` is the rule for the three callbacks: with data
that fits the buffers and a text that can be drawn, each gets through, shows `flushRows` rows of the
new `lcd_buf`, no more than the screen has, and leaves the rows below them black.
-/

namespace MaixSpeech.Ui

open Common Font Display

/-! ## Where a result ends -/

/-- The glyphs the scan finds for a text, `none` where it leaves the string. -/
def scanned (env : FontEnv) (text : List Character) : Option (List Glyph) :=
  fontScan env size32 (textCstr text).length (textCstr text)

/-- The first row below a text that is drawn from row `yOft` on. -/
def resultBottom (env : FontEnv) (yOft : ℤ) (text : List Character) : ℤ :=
  (cursor 240 240 32 (0, yOft) (((scanned env text).getD []).map Glyph.width)).2 + 32

/-- The text can be drawn from row `yOft` on: the scan stays inside the string, and the glyphs on
the screen inside the font file. -/
def Drawable (env : FontEnv) (yOft : ℤ) (text : List Character) : Prop :=
  ∃ glyphs, scanned env text = some glyphs ∧ Legible 240 240 32 (0, yOft) glyphs

theorem drawable_of_available {env : FontEnv} {text : List Character}
    (h : TextAvailable env size32 text) (yOft : ℤ) : Drawable env yOft text := by
  refine ⟨_, fontScan_textBytes h [] ?_, legible_of_readable ?_⟩
  · simp [textCstr]
  · exact h.readable (rfl : drawnSize 32 = some size32)

theorem resultBottom_of_available {env : FontEnv} {text : List Character}
    (h : TextAvailable env size32 text) (yOft : ℤ) :
    resultBottom env yOft text =
      (cursor 240 240 32 (0, yOft) (text.map (Character.width size32))).2 + 32 := by
  have hscan : scanned env text = some (text.map (Character.glyph env size32)) :=
    fontScan_textBytes h [] (by simp [textCstr])
  rw [resultBottom, hscan, Option.getD_some, map_glyph_width]

/-- A text that fits into the line moves the cursor along it. -/
theorem cursor_of_fits {W H : ℤ} {h : ℕ} {p : ℤ × ℤ} {ws : List ℕ} (hfit : p.1 + ws.sum ≤ W)
    (hin : p.2 + h ≤ H) : cursor W H h p ws = (p.1 + ws.sum, p.2) := by
  induction ws generalizing p with
  | nil => simp [cursor]
  | cons w ws ih =>
    rw [List.sum_cons, Nat.cast_add] at hfit
    have hplace : place W h p w = p := by
      rw [place, if_neg]
      omega
    have hstep : advance W H h p w = (p.1 + w, p.2) := by
      rw [advance, hplace, if_neg (not_lt.mpr hin)]
    have hrest : cursor W H h (p.1 + w, p.2) ws = (p.1 + w + ws.sum, p.2) :=
      ih (by simp only; omega) hin
    rw [cursor, List.foldl_cons, ← cursor, hstep, hrest]
    simp only [List.sum_cons, Nat.cast_add, add_assoc]

/-- One character: a line is filled at least up to column 224, so 224 columns stand for 32 rows. -/
theorem advance_sum {p : ℤ × ℤ} {w : ℕ} (hw : w = 16 ∨ w = 32) (hx : 16 ∣ p.1) :
    16 ∣ (advance 240 240 32 p w).1 ∧
      7 * (advance 240 240 32 p w).2 + (advance 240 240 32 p w).1 ≤ 7 * p.2 + p.1 + w := by
  unfold advance place
  split_ifs <;> refine ⟨?_, ?_⟩ <;> push_cast <;> omega

/-- How far down characters of these widths move the cursor. -/
theorem cursor_sum {p : ℤ × ℤ} {ws : List ℕ} (hw : ∀ w ∈ ws, w = 16 ∨ w = 32) (hx : 16 ∣ p.1) :
    7 * (cursor 240 240 32 p ws).2 + (cursor 240 240 32 p ws).1 ≤ 7 * p.2 + p.1 + ws.sum := by
  induction ws generalizing p with
  | nil => simp [cursor]
  | cons w ws ih =>
    obtain ⟨hx', hle⟩ := advance_sum (hw w (by simp)) hx
    have hrest := ih (fun v hv => hw v (by simp [hv])) hx'
    rw [List.sum_cons, Nat.cast_add, cursor, List.foldl_cons, ← cursor]
    omega

/-- Every scanned glyph has a byte for each of its 16 columns. -/
theorem fontScan_sum {env : FontEnv} {fuel : ℕ} {str : List UInt8} {glyphs : List Glyph}
    (hscan : fontScan env size32 fuel str = some glyphs) :
    (glyphs.map Glyph.width).sum + 16 ≤ 16 * str.length := by
  induction fuel generalizing str glyphs with
  | zero => cases hscan
  | succ fuel ih =>
    cases str with
    | nil => cases hscan
    | cons b rest =>
      rcases fontScan_turn hscan with rfl | ⟨g, gs, k, rfl, hgs, hw⟩
      · simp only [List.map_nil, List.sum_nil, List.length_cons]
        omega
      · have hrest := ih hgs
        rw [List.length_drop] at hrest
        simp only [List.map_cons, List.sum_cons, List.length_cons]
        simp only [size32] at hw
        omega

theorem scanned_widths (env : FontEnv) (text : List Character) :
    (∀ w ∈ ((scanned env text).getD []).map Glyph.width, w = 16 ∨ w = 32) ∧
      (((scanned env text).getD []).map Glyph.width).sum ≤ 16 * (textBytes text).length := by
  cases hscan : scanned env text with
  | none => simp
  | some glyphs =>
    constructor
    · intro w hmem
      obtain ⟨g, hg, rfl⟩ := List.mem_map.mp hmem
      exact fontScan_width hscan g hg
    · have hsum := fontScan_sum hscan
      rw [textCstr, List.length_append, List.length_singleton] at hsum
      rw [Option.getD_some]
      omega

/-- The cursor behind a result text is on the screen or below it. -/
theorem resultCursor_spec (env : FontEnv) (yOft : ℤ) (text : List Character) :
    0 ≤ (cursor 240 240 32 (0, yOft) (((scanned env text).getD []).map Glyph.width)).1 ∧
      yOft ≤ (cursor 240 240 32 (0, yOft) (((scanned env text).getD []).map Glyph.width)).2 := by
  apply cursor_spec 240 32 (p := (0, yOft)) _ le_rfl
  intro w hw
  rcases (scanned_widths env text).1 w hw with rfl | rfl <;> decide

/-- The text ends below its first row. -/
theorem resultBottom_ge (env : FontEnv) (yOft : ℤ) (text : List Character) :
    yOft + 32 ≤ resultBottom env yOft text := by
  have hy := (resultCursor_spec env yOft text).2
  unfold resultBottom
  omega

/-- A text of at most 32 bytes ends above the bottom of the screen. -/
theorem resultBottom_of_short (env : FontEnv) {text : List Character}
    (h : (textBytes text).length ≤ 32) : resultBottom env 32 text ≤ 240 := by
  obtain ⟨hw, hsum⟩ := scanned_widths env text
  have hle := cursor_sum (p := (0, 32)) hw (by decide)
  have hx := (resultCursor_spec env 32 text).1
  unfold resultBottom
  omega

/-! ## The steps of a callback -/

section Steps

variable {env : FontEnv} {lBpp yOft : ℤ} {text : List Character}

/-- The `memset` of a callback stays inside `lcd_buf` and blackens the rows below the title. -/
theorem clearResult_spec (hbpp : lBpp = 24 ∨ lBpp = 32) (lcdBuf : LcdBuf) :
    ∃ lcdBuf', clearResult lBpp lcdBuf = some lcdBuf' ∧
      ∀ j : ℤ, 240 * 32 * pixelBytes lBpp ≤ j → j < 240 * 240 * pixelBytes lBpp →
        lcdBuf'.load j = some 0 := by
  have hin : 0 ≤ (240 * (240 - 32) * lBpp).tdiv 8 ∧ 0 ≤ (32 * 240 * lBpp).tdiv 8 ∧
      (32 * 240 * lBpp).tdiv 8 = 240 * 32 * pixelBytes lBpp ∧
      (32 * 240 * lBpp).tdiv 8 + (240 * (240 - 32) * lBpp).tdiv 8 = 240 * 240 * pixelBytes lBpp ∧
      240 * 240 * (pixelBytes lBpp : ℤ) ≤ 230400 := by
    rcases hbpp with rfl | rfl <;> decide
  obtain ⟨hlen, hofs, hlo, hhi, hmax⟩ := hin
  have hfill : (lcdBuf.fill ((32 * 240 * lBpp).tdiv 8)
      ((240 * (240 - 32) * lBpp).tdiv 8).toNat 0).isSome := by
    rw [Arr.fill_isSome_iff]
    simp only [lcdW, lcdH]
    omega
  obtain ⟨lcdBuf', hlcd⟩ := Option.isSome_iff_exists.mp hfill
  refine ⟨lcdBuf', ?_, fun j h1 h2 => ?_⟩
  · rw [← hlcd]
    exact if_pos hlen
  · rw [Arr.load_fill hlcd, if_pos (by omega)]

theorem resultArgs_valid (hbpp : lBpp = 24 ∨ lBpp = 32) (hy : 0 ≤ yOft) :
    (resultArgs lBpp yOft).Valid size32 := by
  refine ⟨rfl, ?_, ?_, le_rfl, hy⟩
  · rcases hbpp with rfl | rfl <;> simp [resultArgs]
  · exact (by decide : (32 : ℤ) ≤ 240)

/-- A result text is drawn inside `lcd_buf`, and not below the row `font_draw` returns. -/
theorem fontDraw_result (hbpp : lBpp = 24 ∨ lBpp = 32) (hy : 0 ≤ yOft) (h : Drawable env yOft text)
    (lcdBuf : LcdBuf) :
    ∃ lcdBuf', fontDraw env lcdBuf (resultArgs lBpp yOft) (textCstr text) =
        some (lcdBuf', resultBottom env yOft text) ∧
      ∀ j : ℤ, 240 * resultBottom env yOft text * pixelBytes lBpp ≤ j →
        lcdBuf'.load j = lcdBuf.load j := by
  obtain ⟨glyphs, hscan, hleg⟩ := h
  have hn : (resultArgs lBpp yOft).lcdW * (resultArgs lBpp yOft).lcdH *
      pixelBytes (resultArgs lBpp yOft).bpp ≤ ((lcdW * lcdH * 4 : ℕ) : ℤ) := by
    rcases hbpp with rfl | rfl <;> exact of_decide_eq_true rfl
  have hbottom : bottom (resultArgs lBpp yOft) size32 glyphs = resultBottom env yOft text := by
    rw [resultBottom, hscan]
    rfl
  obtain ⟨lcdBuf', hdraw, hframe⟩ :=
    fontDraw_spec (resultArgs_valid hbpp hy) hscan hleg lcdBuf hn
  rw [hbottom] at hdraw hframe
  exact ⟨lcdBuf', hdraw, fun j hj => hframe j (Or.inr hj)⟩

/-- A text `font_draw` gets through is drawable. -/
theorem drawable_of_fontDraw (hbpp : lBpp = 24 ∨ lBpp = 32) (hy : 0 ≤ yOft) {lcdBuf : LcdBuf}
    {r : LcdBuf × ℤ} (hr : fontDraw env lcdBuf (resultArgs lBpp yOft) (textCstr text) = some r) :
    Drawable env yOft text :=
  legible_of_fontDrawOn (resultArgs_valid hbpp hy) hr

end Steps

/-! ## Keyword names -/

/-- A string of ASCII characters is a text whose characters are all in the font. -/
theorem exists_asciiText (env : FontEnv) (size : FontSize) {l : List UInt8}
    (h : ∀ b ∈ l, b ≠ 0 ∧ b < 128) :
    ∃ text, textBytes text = l ∧ TextAvailable env size text ∧
      text.map (Character.width size) = List.replicate l.length (size.px / 2) := by
  induction l with
  | nil => exact ⟨[], rfl, fun c hc => absurd hc (by simp), rfl⟩
  | cons b l ih =>
    obtain ⟨text, hbytes, havail, hwidth⟩ := ih fun b' hb' => h b' (by simp [hb'])
    obtain ⟨hnul, hlow⟩ := h b (by simp)
    refine ⟨.ascii b hnul hlow :: text, ?_, ?_, ?_⟩
    · rw [textBytes_cons, hbytes]
      rfl
    · intro c hc
      rcases List.mem_cons.mp hc with rfl | hc
      · trivial
      · exact havail c hc
    · rw [List.map_cons, hwidth]
      rfl

theorem myKwStr_ascii : ∀ str ∈ myKwStr, str.length ≤ 15 ∧ ∀ b ∈ str, b ≠ 0 ∧ b < 128 := by
  decide +kernel

/-- `maxi` is the index of a keyword, or 0. -/
theorem kwsMax_lt {F : Type*} (num : Scores F) (p : List F) :
    (kwsMax num p).2 < max 1 p.length := by
  refine List.foldlRecOn (motive := fun best : F × ℕ => best.2 < max 1 p.length) _ _
    (lt_max_of_lt_left one_pos) ?_
  rintro ⟨maxp, maxi⟩ hbest ⟨v, i⟩ hv
  simp only
  split_ifs
  · have hi : i < p.length := by simpa using List.snd_lt_of_mem_zipIdx hv
    exact lt_max_of_lt_right hi
  · exact hbest

/-! ## The callbacks -/

/-- The data of a result fits the buffers of its callback: a digit string its local copy, the scores
the table of keywords. -/
def Callback.Fits {F : Type*} : Callback F → Prop
  | .digit text => (textBytes text).length ≤ 32
  | .lvcsr _ => True
  | .kws p => p.length ≤ 3

/-- The text of a result can be drawn. -/
def Callback.Drawable {F : Type*} (env : FontEnv) : Callback F → Prop
  | .digit text => Ui.Drawable env 32 text
  | .lvcsr words => Ui.Drawable env 32 words
  | .kws _ => True

/-- How many rows a result callback shows. -/
def flushRows {F : Type*} (env : FontEnv) : Callback F → ℕ
  | .digit text => (resultBottom env 32 text).toNat
  | .lvcsr words => (min (lcdH : ℤ) (resultBottom env 32 words)).toNat
  | .kws _ => 32 * 5

/-- The buffer behind a callback is black below the rows shown. -/
def BlackBelow (lBpp : ℤ) (rows : ℕ) (lcdBuf : LcdBuf) : Prop :=
  ∀ j : ℤ, 240 * rows * pixelBytes lBpp ≤ j → j < 240 * 240 * pixelBytes lBpp →
    lcdBuf.load j = some 0

theorem BlackBelow.mono {lBpp : ℤ} {rows rows' : ℕ} {lcdBuf : LcdBuf}
    (h : BlackBelow lBpp rows lcdBuf) (hle : rows ≤ rows') : BlackBelow lBpp rows' lcdBuf := by
  intro j hlo hhi
  have hrows : 240 * (rows : ℤ) * pixelBytes lBpp ≤ 240 * rows' * pixelBytes lBpp :=
    mul_le_mul_of_nonneg_right (by omega) (by omega)
  exact h j (hrows.trans hlo) hhi

section Callbacks

variable {F : Type*} {env : FontEnv} {lBpp : ℤ} {text : List Character}

/-- The local copy of a digit string is defined exactly when the string fits. -/
theorem digitRes1_isSome_iff : (digitRes1 (textCstr text)).isSome ↔ (textBytes text).length ≤ 32 := by
  have hstr : cstr (textCstr text) = textBytes text := cstr_append_nul (nul_notMem_textBytes text) []
  have hfill : ∃ a : Arr UInt8 32, Arr.fill (fun _ => 0) 0 32 0x20 = some a :=
    Option.isSome_iff_exists.mp (Arr.fill_isSome_iff.mpr (by decide))
  obtain ⟨a, ha⟩ := hfill
  obtain ⟨b, hb⟩ := a.store_of_mem 0 (i := 31) (by decide)
  rw [digitRes1, ha, Option.bind_some, hb, Option.bind_some, Arr.copy_isSome_iff, hstr]
  omega

theorem asUnsigned_of_mem {n : ℤ} (h : 0 ≤ n ∧ n < 2 ^ 32) : asUnsigned n = n.toNat := by
  rw [asUnsigned, Int.emod_eq_of_lt h.1 h.2]

/-- A drawn text leaves the rows below it as the `memset` left them. -/
theorem drawResult_spec {yOft : ℤ} (hbpp : lBpp = 24 ∨ lBpp = 32) (hy : 0 ≤ yOft)
    (h : Drawable env yOft text) (lcdBuf : LcdBuf) :
    ∃ lcdBuf₁ lcdBuf₂, clearResult lBpp lcdBuf = some lcdBuf₁ ∧
      fontDraw env lcdBuf₁ (resultArgs lBpp yOft) (textCstr text) =
        some (lcdBuf₂, resultBottom env yOft text) ∧
      ∀ rows : ℕ, 32 ≤ rows → resultBottom env yOft text ≤ rows → BlackBelow lBpp rows lcdBuf₂ := by
  obtain ⟨lcdBuf₁, hclear, hblack⟩ := clearResult_spec hbpp lcdBuf
  obtain ⟨lcdBuf₂, hdraw, hframe⟩ := fontDraw_result hbpp hy h lcdBuf₁
  refine ⟨lcdBuf₁, lcdBuf₂, hclear, hdraw, fun rows hr hrows j hlo hhi => ?_⟩
  have hpb : (0 : ℤ) ≤ pixelBytes lBpp := by omega
  have hdrawn : 240 * resultBottom env yOft text * pixelBytes lBpp ≤ 240 * rows * pixelBytes lBpp :=
    mul_le_mul_of_nonneg_right (by omega) hpb
  have htitle : 240 * 32 * (pixelBytes lBpp : ℤ) ≤ 240 * rows * pixelBytes lBpp :=
    mul_le_mul_of_nonneg_right (by omega) hpb
  rw [hframe j (hdrawn.trans hlo)]
  exact hblack j (htitle.trans hlo) hhi

theorem blackBelow_screen (lcdBuf : LcdBuf) : BlackBelow lBpp lcdH lcdBuf := by
  intro j hlo hhi
  exact absurd hhi (not_lt.mpr hlo)

theorem myDigitcb_spec (hbpp : lBpp = 24 ∨ lBpp = 32) (h : Drawable env 32 text)
    (hfits : (textBytes text).length ≤ 32) (lcdBuf : LcdBuf) :
    ∃ lcdBuf', myDigitcb env lBpp (textCstr text) lcdBuf =
        some (lcdBuf', [⟨lcdBuf', lcdW, (resultBottom env 32 text).toNat⟩]) ∧
      BlackBelow lBpp (resultBottom env 32 text).toNat lcdBuf' := by
  have hbottom := resultBottom_of_short env hfits
  have htop := resultBottom_ge env 32 text
  obtain ⟨a, ha⟩ := Option.isSome_iff_exists.mp (digitRes1_isSome_iff.mpr hfits)
  obtain ⟨buf₁, buf₂, hclear, hdraw, hblack⟩ :=
    drawResult_spec hbpp (by decide : (0 : ℤ) ≤ 32) h lcdBuf
  refine ⟨buf₂, ?_, hblack _ (by omega) (by omega)⟩
  simp only [myDigitcb, ha, Option.bind_some, hclear, hdraw, Option.map_some]
  rw [asUnsigned_of_mem (by omega)]

theorem myLvcsrcb_spec (hbpp : lBpp = 24 ∨ lBpp = 32) (h : Drawable env 32 text)
    (lcdBuf : LcdBuf) :
    ∃ lcdBuf', myLvcsrcb env lBpp (textCstr text) lcdBuf =
        some (lcdBuf', [⟨lcdBuf', lcdW, (min (lcdH : ℤ) (resultBottom env 32 text)).toNat⟩]) ∧
      BlackBelow lBpp (min (lcdH : ℤ) (resultBottom env 32 text)).toNat lcdBuf' := by
  have htop := resultBottom_ge env 32 text
  obtain ⟨buf₁, buf₂, hclear, hdraw, hblack⟩ :=
    drawResult_spec hbpp (by decide : (0 : ℤ) ≤ 32) h lcdBuf
  have hflash : (if resultBottom env 32 text > (lcdH : ℤ) then (lcdH : ℤ)
      else resultBottom env 32 text) = min (lcdH : ℤ) (resultBottom env 32 text) := by
    split_ifs <;> omega
  refine ⟨buf₂, ?_, ?_⟩
  · simp only [myLvcsrcb, hclear, Option.bind_some, hdraw, Option.map_some, hflash]
    rw [asUnsigned_of_mem (by simp only [lcdH]; omega)]
  · rcases le_total (resultBottom env 32 text) (lcdH : ℤ) with hle | hle
    · rw [min_eq_right hle]
      exact hblack _ (by omega) (by omega)
    · rw [min_eq_left hle]
      exact blackBelow_screen buf₂

theorem myKwscb_spec (num : Scores F) {p : List F} (hbpp : lBpp = 24 ∨ lBpp = 32)
    (hp : p.length ≤ 3) (lcdBuf : LcdBuf) :
    ∃ lcdBuf', myKwscb env lBpp num p lcdBuf = some (lcdBuf', [⟨lcdBuf', lcdW, 32 * 5⟩]) ∧
      BlackBelow lBpp (32 * 5) lcdBuf' := by
  have hmaxi : (kwsMax num p).2 < 3 := lt_of_lt_of_le (kwsMax_lt num p) (max_le (by decide) hp)
  by_cases hgate : num.gtGate (kwsMax num p).1 = true
  · -- the keyword's name takes one line, at the latest the one from row 96 on
    obtain ⟨str, hstr⟩ : ∃ str, myKwStr[(kwsMax num p).2]? = some str :=
      ⟨_, List.getElem?_eq_getElem hmaxi⟩
    obtain ⟨hlen, hascii⟩ := myKwStr_ascii str (List.mem_of_getElem? hstr)
    obtain ⟨text, rfl, havail, hwidth⟩ := exists_asciiText env size32 hascii
    have hbottom : resultBottom env (((kwsMax num p).2 + 1) * 32) text =
        ((kwsMax num p).2 + 1) * 32 + 32 := by
      rw [resultBottom_of_available havail, cursor_of_fits]
      · rw [hwidth, List.sum_replicate_nat]
        simp only [size32]
        omega
      · simp only
        omega
    have hrow : (0 : ℤ) ≤ ((kwsMax num p).2 + 1) * 32 := by omega
    obtain ⟨buf₁, buf₂, hclear, hdraw, hblack⟩ :=
      drawResult_spec hbpp hrow (drawable_of_available havail _) lcdBuf
    refine ⟨buf₂, ?_, hblack _ (by decide) (by omega)⟩
    rw [textCstr] at hdraw
    simp only [myKwscb, hclear, Option.bind_some, if_pos hgate, hstr, hdraw, Option.map_some]
  · obtain ⟨buf₁, hclear, hblack⟩ := clearResult_spec hbpp lcdBuf
    refine ⟨buf₁, ?_, fun j hlo hhi => hblack j ?_ hhi⟩
    · simp only [myKwscb, hclear, Option.bind_some, if_neg hgate, Option.map_some]
    · push_cast at hlo
      omega

/-- **The rule for a result callback**: it gets through, shows `flushRows` rows of what it has
drawn, and everything below them is black. -/
theorem callback_spec (num : Scores F) {cb : Callback F} (hbpp : lBpp = 24 ∨ lBpp = 32)
    (hdraw : cb.Drawable env) (hfits : cb.Fits) (lcdBuf : LcdBuf) :
    ∃ lcdBuf', callback env num lBpp cb lcdBuf =
        some (lcdBuf', [⟨lcdBuf', lcdW, flushRows env cb⟩]) ∧
      BlackBelow lBpp (flushRows env cb) lcdBuf' := by
  cases cb with
  | digit text => exact myDigitcb_spec hbpp hdraw hfits lcdBuf
  | lvcsr words => exact myLvcsrcb_spec hbpp hdraw lcdBuf
  | kws p => exact myKwscb_spec num hbpp hfits lcdBuf

/-- The picture behind a digit or word result is the one `font_draw` has left. -/
theorem fontDraw_of_callback (num : Scores F) {cb : Callback F}
    (hcb : cb = .digit text ∨ cb = .lvcsr text) {lcdBuf : LcdBuf} {r : LcdBuf × List FbCall}
    (hr : callback env num lBpp cb lcdBuf = some r) :
    ∃ cleared ret, fontDraw env cleared (resultArgs lBpp 32) (textCstr text) = some (r.1, ret) := by
  rcases hcb with rfl | rfl
  · obtain ⟨a, -, hr⟩ := Option.bind_eq_some_iff.mp hr
    obtain ⟨cleared, -, hr⟩ := Option.bind_eq_some_iff.mp hr
    obtain ⟨⟨drawn, ret⟩, hdraw, rfl⟩ := Option.map_eq_some_iff.mp hr
    exact ⟨cleared, ret, hdraw⟩
  · obtain ⟨cleared, -, hr⟩ := Option.bind_eq_some_iff.mp hr
    obtain ⟨⟨drawn, ret⟩, hdraw, rfl⟩ := Option.map_eq_some_iff.mp hr
    exact ⟨cleared, ret, hdraw⟩

/-- A callback that gets through has a text that can be drawn. -/
theorem drawable_of_callback (num : Scores F) {cb : Callback F} (hbpp : lBpp = 24 ∨ lBpp = 32)
    {lcdBuf : LcdBuf} {r : LcdBuf × List FbCall}
    (hr : callback env num lBpp cb lcdBuf = some r) : cb.Drawable env := by
  cases cb with
  | digit text =>
    obtain ⟨cleared, ret, hdraw⟩ := fontDraw_of_callback num (Or.inl rfl) hr
    exact drawable_of_fontDraw hbpp (by decide) hdraw
  | lvcsr words =>
    obtain ⟨cleared, ret, hdraw⟩ := fontDraw_of_callback num (Or.inr rfl) hr
    exact drawable_of_fontDraw hbpp (by decide) hdraw
  | kws p => trivial

/-- No callback shows more rows than the screen has. -/
theorem flushRows_le {cb : Callback F} (hfits : cb.Fits) : flushRows env cb ≤ lcdH := by
  cases cb with
  | digit text =>
    have hbottom := resultBottom_of_short env hfits
    simp only [flushRows, lcdH]
    omega
  | lvcsr words =>
    simp only [flushRows, lcdH]
    omega
  | kws p => exact (by decide : 32 * 5 ≤ lcdH)

end Callbacks

end MaixSpeech.Ui
