import MaixSpeech.Common.Runs
import MaixSpeech.Display.Rows
import MaixSpeech.Ui.Flush

/-!
# Which operations of the user interface stay inside their buffers

Reference: `projects/maix_asr/main/src/main.cpp`.

`UiSafe` says of a state that no operation has left a buffer and that every call of `fb_display`
stayed inside `lcd_buf` and the screen. `uiOp_safe_iff` finds the two ways to leave it: `lcd_clear1`
at 32 bits, whose `memset` starts below the title but is as long as the whole picture, and a digit
string longer than its local copy. `uiSafe_iff` says so for runs.
-/

namespace MaixSpeech.Ui

open Common Font Display

/-- A call of `fb_display` asks for no more rows than the screen has, and the conversion reads
inside `lcd_buf`, whatever the depth. -/
def FbCall.Safe (c : FbCall) : Prop :=
  c.ySize ≤ lcdH ∧ ∀ d, (convertRGB2FB c.rgbbuff (u32 (c.xSize * c.ySize)) d).isSome

/-- `lcd_buf`, and the calls of `fb_display` so far. -/
structure Lcd where
  lcdBuf : LcdBuf
  shown : List FbCall

/-- One operation; `none` behind an access out of bounds. -/
def uiStep {F : Type*} (env : FontEnv) (num : Scores F) (lBpp : ℤ) (s : Option Lcd) (op : UiOp F) :
    Option Lcd :=
  s.bind fun s => (uiOp env num lBpp op s.lcdBuf).map fun (lcdBuf, calls) =>
    ⟨lcdBuf, s.shown ++ calls⟩

/-- No access was out of bounds, and every call of `fb_display` was safe. -/
def UiSafe (s : Option Lcd) : Prop := ∃ lcd, s = some lcd ∧ ∀ c ∈ lcd.shown, c.Safe

/-- The framebuffer is not 32 bits deep when `lcd_clear1` is called, and a digit string fits its
local copy. -/
def UiOp.Fits {F : Type*} (fbGetBpp : ℤ) : UiOp F → Prop
  | .clear => True
  | .clear1 => fbGetBpp ≠ 32
  | .result cb => cb.Fits

/-! ## One operation -/

section Operations

variable {F : Type*} {env : FontEnv} {lBpp : ℤ}

/-- The depths `font_draw` works with are the only ones `lcd_init` leaves. -/
theorem lcdInit_eq {fbGetBpp : ℤ}
    (h : fbGetBpp = 16 ∨ fbGetBpp = 24 ∨ fbGetBpp = 32 ∨ fbGetBpp = -1) :
    lcdInit fbGetBpp = 32 ∧ fbGetBpp = 32 ∨ lcdInit fbGetBpp = 24 ∧ fbGetBpp ≠ 32 := by
  rcases h with rfl | rfl | rfl | rfl <;> decide

/-- Showing full-width rows of the screen is safe. -/
theorem fbCall_safe (lcdBuf : LcdBuf) {rows : ℕ} (h : rows ≤ lcdH) :
    (⟨lcdBuf, lcdW, rows⟩ : FbCall).Safe := by
  refine ⟨h, fun d => ?_⟩
  simp only [lcdW, lcdH] at h ⊢
  rw [u32_of_lt (by omega)]
  have hin : 240 * rows * 3 ≤ lcdW * lcdH * 4 := by
    simp only [lcdW, lcdH]
    omega
  obtain ⟨fbbuff, hconv, -⟩ := convertRGB2FB_spec lcdBuf hin d
  exact Option.isSome_iff_exists.mpr ⟨fbbuff, hconv⟩

/-- The two `memset`s of a clearing function decide whether it is safe. -/
theorem lcdFlash_safe_iff (lBpp ofs len : ℤ) (hlen : (lcdW * lcdH * lBpp).tdiv 8 = len) (h0 : 0 ≤ len)
    (lcdBuf : LcdBuf) :
    (∃ s', lcdFlash lBpp ofs lcdBuf = some s' ∧ ∀ c ∈ s'.2, c.Safe) ↔
      0 ≤ ofs ∧ ofs + len ≤ 230400 := by
  have hmemset (buf : LcdBuf) (v : UInt8) :
      (memset buf ofs v len).isSome ↔ 0 ≤ ofs ∧ ofs + len ≤ 230400 := by
    rw [memset, if_pos h0, Arr.fill_isSome_iff]
    simp only [lcdW, lcdH]
    omega
  constructor
  · rintro ⟨s', hrun, -⟩
    rw [lcdFlash, hlen] at hrun
    obtain ⟨white, hwhite, -⟩ := Option.bind_eq_some_iff.mp hrun
    exact (hmemset lcdBuf 0xff).mp (Option.isSome_of_eq_some hwhite)
  · intro hin
    obtain ⟨white, hwhite⟩ := Option.isSome_iff_exists.mp ((hmemset lcdBuf 0xff).mpr hin)
    obtain ⟨black, hblack⟩ := Option.isSome_iff_exists.mp ((hmemset white 0x00).mpr hin)
    refine ⟨_, by rw [lcdFlash, hlen, hwhite, Option.bind_some, hblack, Option.map_some], ?_⟩
    intro c hc
    rcases List.mem_pair.mp hc with rfl | rfl
    · exact fbCall_safe white le_rfl
    · exact fbCall_safe black le_rfl

theorem Callback.Ok.drawable {cb : Callback F} (hok : cb.Ok env) : cb.Drawable env := by
  cases cb with
  | digit text => exact drawable_of_available hok 32
  | lvcsr words => exact drawable_of_available hok 32
  | kws p => trivial

/-- A result callback is safe exactly when its digit string fits. -/
theorem callback_safe_iff (num : Scores F) {cb : Callback F} (hbpp : lBpp = 24 ∨ lBpp = 32)
    (hok : cb.Ok env) (lcdBuf : LcdBuf) :
    (∃ s', callback env num lBpp cb lcdBuf = some s' ∧ ∀ c ∈ s'.2, c.Safe) ↔ cb.Fits := by
  constructor
  · rintro ⟨s', hrun, -⟩
    cases cb with
    | digit text =>
      obtain ⟨a, ha, -⟩ := Option.bind_eq_some_iff.mp hrun
      exact digitRes1_isSome_iff.mp (Option.isSome_of_eq_some ha)
    | lvcsr words => trivial
    | kws p => exact hok
  · intro hfits
    obtain ⟨lcdBuf', hrun, -⟩ := callback_spec num hbpp hok.drawable hfits lcdBuf
    refine ⟨_, hrun, fun c hc => ?_⟩
    rw [List.mem_singleton.mp hc]
    exact fbCall_safe lcdBuf' (flushRows_le hfits)

/-- **One operation** is safe exactly when it `Fits`. -/
theorem uiOp_safe_iff (num : Scores F) {op : UiOp F} {fbGetBpp : ℤ}
    (hbpp : fbGetBpp = 16 ∨ fbGetBpp = 24 ∨ fbGetBpp = 32 ∨ fbGetBpp = -1) (hok : op.Ok env)
    (lcdBuf : LcdBuf) :
    (∃ s', uiOp env num (lcdInit fbGetBpp) op lcdBuf = some s' ∧ ∀ c ∈ s'.2, c.Safe) ↔
      op.Fits fbGetBpp := by
  rcases lcdInit_eq hbpp with ⟨hl, hb⟩ | ⟨hl, hb⟩
  · rw [hl]
    cases op with
    | clear =>
      refine (lcdFlash_safe_iff 32 0 230400 (by decide) (by decide) lcdBuf).trans ?_
      exact iff_of_true (by decide) trivial
    | clear1 =>
      refine (lcdFlash_safe_iff 32 30720 230400 (by decide) (by decide) lcdBuf).trans ?_
      exact iff_of_false (by decide) fun hfits => hfits hb
    | result cb => exact callback_safe_iff num (Or.inr rfl) hok lcdBuf
  · rw [hl]
    cases op with
    | clear =>
      refine (lcdFlash_safe_iff 24 0 172800 (by decide) (by decide) lcdBuf).trans ?_
      exact iff_of_true (by decide) trivial
    | clear1 =>
      refine (lcdFlash_safe_iff 24 23040 172800 (by decide) (by decide) lcdBuf).trans ?_
      exact iff_of_true (by decide) hb
    | result cb => exact callback_safe_iff num (Or.inl rfl) hok lcdBuf

end Operations

/-! ## Runs -/

/-- A safe state stays safe exactly under a safe operation. -/
theorem uiStep_safe_iff {F : Type*} {env : FontEnv} (num : Scores F) {op : UiOp F} {fbGetBpp : ℤ}
    (hbpp : fbGetBpp = 16 ∨ fbGetBpp = 24 ∨ fbGetBpp = 32 ∨ fbGetBpp = -1) (hok : op.Ok env)
    {s : Option Lcd} (hs : UiSafe s) :
    UiSafe (uiStep env num (lcdInit fbGetBpp) s op) ↔ op.Fits fbGetBpp := by
  obtain ⟨lcd, rfl, hshown⟩ := hs
  rw [← uiOp_safe_iff num hbpp hok lcd.lcdBuf]
  constructor
  · rintro ⟨lcd', hrun, hsafe⟩
    obtain ⟨s', hop, rfl⟩ := Option.map_eq_some_iff.mp hrun
    exact ⟨s', hop, fun c hc => hsafe c (List.mem_append_right _ hc)⟩
  · rintro ⟨s', hop, hsafe⟩
    refine ⟨⟨s'.1, lcd.shown ++ s'.2⟩, by rw [uiStep, Option.bind_some, hop, Option.map_some], ?_⟩
    intro c hc
    rcases List.mem_append.mp hc with hc | hc
    · exact hshown c hc
    · exact hsafe c hc

/-- **The user interface stays inside its buffers exactly when** `lcd_clear1` is not called on a
32-bit framebuffer and every digit string has at most 32 bytes: over every sequence of operations,
for the depths 16, 24, 32 and unknown. -/
theorem uiSafe_iff {F : Type*} (env : FontEnv) (num : Scores F) {fbGetBpp : ℤ}
    (hbpp : fbGetBpp = 16 ∨ fbGetBpp = 24 ∨ fbGetBpp = 32 ∨ fbGetBpp = -1) (ops : List (UiOp F))
    (hok : ∀ op ∈ ops, op.Ok env) (lcdBuf : LcdBuf) :
    Always (uiStep env num (lcdInit fbGetBpp)) UiSafe (some ⟨lcdBuf, []⟩) ops ↔
      ∀ op ∈ ops, op.Fits fbGetBpp := by
  have hrun : Always (uiStep env num (lcdInit fbGetBpp)) UiSafe (some ⟨lcdBuf, []⟩) ops ↔
      Along (uiStep env num (lcdInit fbGetBpp)) (fun _ op => op.Fits fbGetBpp) (some ⟨lcdBuf, []⟩)
        ops := by
    apply always_iff_along UiSafe
    · exact fun s hs => hs
    · exact fun s op hs hop hfits => (uiStep_safe_iff num hbpp hop hs).mpr hfits
    · exact fun s op hs hop hsafe => (uiStep_safe_iff num hbpp hop hs).mp hsafe
    · exact ⟨_, rfl, fun c hc => absurd hc (by simp)⟩
    · exact (along_input ops).mpr hok
  exact hrun.trans (along_input ops)

/-- Clearing, a digit result and a keyword on a 32-bit framebuffer. -/
theorem uiSafe_run :
    Always (uiStep FontEnv.plain Scores.rational (lcdInit 32)) UiSafe (some ⟨fun _ => 0, []⟩)
      [.clear, .result (.digit [.seven]), .result (.kws [1 / 2, 3 / 4, 1 / 4])] := by
  refine (uiSafe_iff FontEnv.plain Scores.rational (by decide) _ ?_ _).mpr ?_
  · intro op hop
    simp only [List.mem_cons, List.not_mem_nil, or_false] at hop
    rcases hop with rfl | rfl | rfl
    · trivial
    · intro c hc
      rw [List.mem_singleton.mp hc]
      trivial
    · exact le_refl 3
  · intro op hop
    simp only [List.mem_cons, List.not_mem_nil, or_false] at hop
    rcases hop with rfl | rfl | rfl
    · trivial
    · exact (by decide : 1 ≤ 32)
    · exact le_refl 3

/-- `lcd_clear1` on a 32-bit framebuffer leaves `lcd_buf`, and a result of 33 digits leaves its
local copy. -/
theorem uiUnsafe_of_clear1_or_longDigits :
    ¬ Always (uiStep FontEnv.plain Scores.rational (lcdInit 32)) UiSafe (some ⟨fun _ => 0, []⟩)
        [.clear1] ∧
      ¬ Always (uiStep FontEnv.plain Scores.rational (lcdInit 24)) UiSafe (some ⟨fun _ => 0, []⟩)
        [.result (.digit (List.replicate 33 .seven))] := by
  have hstart : UiSafe (some ⟨fun _ => 0, []⟩) := ⟨_, rfl, fun c hc => absurd hc (by simp)⟩
  constructor
  · intro h
    have hok : (UiOp.clear1 (F := ℚ)).Ok FontEnv.plain := trivial
    have hfits : (UiOp.clear1 (F := ℚ)).Fits 32 :=
      (uiStep_safe_iff Scores.rational (by decide) hok hstart).mp h.last
    exact hfits rfl
  · intro h
    have hok : (UiOp.result (F := ℚ) (.digit (List.replicate 33 .seven))).Ok FontEnv.plain := by
      intro c hc
      rw [List.eq_of_mem_replicate hc]
      trivial
    have hfits : (UiOp.result (.digit (List.replicate 33 .seven))).Fits 24 :=
      (uiStep_safe_iff Scores.rational (by decide) hok hstart).mp h.last
    exact absurd hfits (by decide : ¬ 33 ≤ 32)

end MaixSpeech.Ui
