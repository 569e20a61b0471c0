import MaixSpeech.Font.Layout

/-!
# What the renderers leave in the buffer

Reference: `components/utils/src/font.c`.

`putRgb` uses three bytes for a pixel and `putArgb` four, the last one `0xff`. Both renderers keep
the bytes outside the rows they draw in (`fontDraw_spec`), and the three-byte one holds the colours
painted on the abstract canvas (`fontDraw_simulates_paint`).
-/

namespace MaixSpeech.Font

open Common

/-! ## One pixel -/

section Put

variable {n : ℕ} {fb fb' : Arr UInt8 n} {i : ℤ} {c : Rgb}

theorem load_putRgb (h : putRgb fb i c = some fb') (j : ℤ) :
    fb'.load j =
      if j = i * 3 + 2 then some c.blue
      else if j = i * 3 + 1 then some c.green
      else if j = i * 3 + 0 then some c.red
      else fb.load j := by
  obtain ⟨fb₁, h₁, h⟩ := Option.bind_eq_some_iff.mp h
  obtain ⟨fb₂, h₂, h₃⟩ := Option.bind_eq_some_iff.mp h
  rw [Arr.load_store h₃, Arr.load_store h₂, Arr.load_store h₁]

theorem load_putArgb (h : putArgb fb i c = some fb') (j : ℤ) :
    fb'.load j =
      if j = i * 4 + 3 then some 0xff
      else if j = i * 4 + 2 then some c.blue
      else if j = i * 4 + 1 then some c.green
      else if j = i * 4 + 0 then some c.red
      else fb.load j := by
  obtain ⟨fb₁, h₁, h⟩ := Option.bind_eq_some_iff.mp h
  obtain ⟨fb₂, h₂, h⟩ := Option.bind_eq_some_iff.mp h
  obtain ⟨fb₃, h₃, h₄⟩ := Option.bind_eq_some_iff.mp h
  rw [Arr.load_store h₄, Arr.load_store h₃, Arr.load_store h₂, Arr.load_store h₁]

theorem putRgb_of_mem (fb : Arr UInt8 n) (c : Rgb) (h0 : 0 ≤ i) (hn : (i + 1) * 3 ≤ n) :
    ∃ fb', putRgb fb i c = some fb' := by
  obtain ⟨fb₁, h₁⟩ := fb.store_of_mem c.red (i := i * 3 + 0) (by omega)
  obtain ⟨fb₂, h₂⟩ := fb₁.store_of_mem c.green (i := i * 3 + 1) (by omega)
  obtain ⟨fb₃, h₃⟩ := fb₂.store_of_mem c.blue (i := i * 3 + 2) (by omega)
  exact ⟨fb₃, by rw [putRgb, h₁, Option.bind_some, h₂, Option.bind_some, h₃]⟩

theorem putArgb_of_mem (fb : Arr UInt8 n) (c : Rgb) (h0 : 0 ≤ i) (hn : (i + 1) * 4 ≤ n) :
    ∃ fb', putArgb fb i c = some fb' := by
  obtain ⟨fb₁, h₁⟩ := fb.store_of_mem c.red (i := i * 4 + 0) (by omega)
  obtain ⟨fb₂, h₂⟩ := fb₁.store_of_mem c.green (i := i * 4 + 1) (by omega)
  obtain ⟨fb₃, h₃⟩ := fb₂.store_of_mem c.blue (i := i * 4 + 2) (by omega)
  obtain ⟨fb₄, h₄⟩ := fb₃.store_of_mem 0xff (i := i * 4 + 3) (by omega)
  exact ⟨fb₄, by
    rw [putArgb, h₁, Option.bind_some, h₂, Option.bind_some, h₃, Option.bind_some, h₄]⟩

/-- How many bytes `font_draw` gives a pixel. -/
def pixelBytes (bpp : ℤ) : ℕ := if bpp = 24 ∨ bpp = 16 then 3 else 4

/-- A store inside the buffer gets through and changes the bytes of its own pixel only. -/
theorem putAt_spec (bpp : ℤ) (fb : Arr UInt8 n) (c : Rgb) (h0 : 0 ≤ i)
    (hn : (i + 1) * pixelBytes bpp ≤ n) :
    ∃ fb', putAt putRgb putArgb bpp fb i c = some fb' ∧
      ∀ j, j < i * pixelBytes bpp ∨ (i + 1) * pixelBytes bpp ≤ j → fb'.load j = fb.load j := by
  unfold putAt
  unfold pixelBytes at hn ⊢
  split_ifs at hn ⊢ with hbpp
  · obtain ⟨fb', hput⟩ := putRgb_of_mem fb c h0 hn
    refine ⟨fb', hput, fun j hj => ?_⟩
    rw [load_putRgb hput, if_neg, if_neg, if_neg] <;> push_cast at hj <;> omega
  · obtain ⟨fb', hput⟩ := putArgb_of_mem fb c h0 hn
    refine ⟨fb', hput, fun j hj => ?_⟩
    rw [load_putArgb hput, if_neg, if_neg, if_neg, if_neg] <;> push_cast at hj <;> omega

end Put

/-! ## A string -/

/-- In a buffer with room for the screen, a store on its rows from the first one up to `b` gets
through and leaves the bytes of the other rows as they are. -/
theorem putAt_on_screen {n : ℕ} {a : DrawArgs} {size : FontSize} (ha : a.Valid size)
    (hn : a.lcdW * a.lcdH * pixelBytes a.bpp ≤ n) {i b : ℤ} (hlo : a.lcdW * a.yOft ≤ i)
    (hhi : i < a.lcdW * min a.lcdH b) (fb : Arr UInt8 n) (c : Rgb) :
    ∃ fb', putAt putRgb putArgb a.bpp fb i c = some fb' ∧
      ∀ j, j < a.lcdW * a.yOft * pixelBytes a.bpp ∨ a.lcdW * b * pixelBytes a.bpp ≤ j →
        fb'.load j = fb.load j := by
  have hW : 0 ≤ a.lcdW := le_trans (by omega) ha.width
  have hpb : (0 : ℤ) ≤ pixelBytes a.bpp := by omega
  have h0 : 0 ≤ i := le_trans (mul_nonneg hW ha.y) hlo
  have hlast : i + 1 ≤ a.lcdW * a.lcdH :=
    Int.add_one_le_of_lt (hhi.trans_le (mul_le_mul_of_nonneg_left (min_le_left _ _) hW))
  have hb : i + 1 ≤ a.lcdW * b :=
    Int.add_one_le_of_lt (hhi.trans_le (mul_le_mul_of_nonneg_left (min_le_right _ _) hW))
  obtain ⟨fb', hput, hframe⟩ := putAt_spec a.bpp fb c h0
    (le_trans (mul_le_mul_of_nonneg_right hlast hpb) hn)
  refine ⟨fb', hput, fun j hj => hframe j ?_⟩
  have hfirst := mul_le_mul_of_nonneg_right hlo hpb
  have hend := mul_le_mul_of_nonneg_right hb hpb
  rcases hj with hj | hj
  · exact Or.inl (lt_of_lt_of_le hj hfirst)
  · exact Or.inr (le_trans hend hj)

/-- **`font_draw` on a buffer with room for the screen** gets through, returns the row below the
string, and leaves the bytes above the first row and below that row as they were. -/
theorem fontDraw_spec {n : ℕ} {env : FontEnv} {a : DrawArgs} {size : FontSize} (ha : a.Valid size)
    {str : List UInt8} {glyphs : List Glyph}
    (hscan : fontScan env size str.length str = some glyphs)
    (hleg : Legible a.lcdW a.lcdH size.px (a.xOft, a.yOft) glyphs) (fb : Arr UInt8 n)
    (hn : a.lcdW * a.lcdH * pixelBytes a.bpp ≤ n) :
    ∃ fb', fontDraw env fb a str = some (fb', bottom a size glyphs) ∧
      ∀ j, j < a.lcdW * a.yOft * pixelBytes a.bpp ∨
        a.lcdW * bottom a size glyphs * pixelBytes a.bpp ≤ j → fb'.load j = fb.load j := by
  apply fontDrawOn_spec (fun fb' : Arr UInt8 n => ∀ j,
    j < a.lcdW * a.yOft * pixelBytes a.bpp ∨
      a.lcdW * bottom a size glyphs * pixelBytes a.bpp ≤ j → fb'.load j = fb.load j) ha hscan hleg
  · intro i c s hlo hhi _ hs
    obtain ⟨s', hput, hframe⟩ := putAt_on_screen ha hn hlo hhi s c
    refine ⟨s', hput, fun j hj => ?_⟩
    rw [hframe j hj, hs j hj]
  · exact fun _ _ => rfl

/-! ## The canvas -/

/-- The buffer holds, in three bytes a pixel, the colours of the canvas. -/
def HoldsRgb {n : ℕ} (fb : Arr UInt8 n) (cv : Canvas) : Prop :=
  ∀ i c, cv i = some c →
    fb.load (i * 3 + 0) = some c.red ∧ fb.load (i * 3 + 1) = some c.green ∧
      fb.load (i * 3 + 2) = some c.blue

/-- A three-byte store does what painting does. -/
theorem putRgb_simulates_paint {n : ℕ} {fb : Arr UInt8 n} {cv : Canvas} (h : HoldsRgb fb cv) (i : ℤ)
    (c : Rgb) : Simulates HoldsRgb (putRgb fb i c) (paint cv i c) := by
  intro fb' hput
  refine ⟨_, rfl, fun j d hd => ?_⟩
  by_cases hj : j = i
  · subst hj
    rw [Function.update_self] at hd
    obtain rfl := Option.some.inj hd
    rw [load_putRgb hput, load_putRgb hput, load_putRgb hput]
    exact ⟨by rw [if_neg, if_neg, if_pos] <;> omega, by rw [if_neg, if_pos] <;> omega,
      if_pos rfl⟩
  · rw [Function.update_of_ne hj] at hd
    obtain ⟨hr, hg, hb⟩ := h j d hd
    refine ⟨?_, ?_, ?_⟩
    · rw [load_putRgb hput, if_neg, if_neg, if_neg, hr] <;> omega
    · rw [load_putRgb hput, if_neg, if_neg, if_neg, hg] <;> omega
    · rw [load_putRgb hput, if_neg, if_neg, if_neg, hb] <;> omega

section Simulation

variable {S T : Type*} {R : S → T → Prop} {put : S → ℤ → Rgb → Option S}
  {put' : T → ℤ → Rgb → Option T}

/-- The stores of two renderers simulate each other. -/
def PutSimulates (R : S → T → Prop) (put : S → ℤ → Rgb → Option S) (put' : T → ℤ → Rgb → Option T) :
    Prop :=
  ∀ s t, R s t → ∀ i c, Simulates R (put s i c) (put' t i c)

theorem fontPixel_simulates (hput : PutSimulates R put put') {s : S} {t : T} (h : R s t)
    (lcdW x y : ℤ) (g : Glyph) (cColor bgColor : UInt32) (dy dx : ℕ) :
    Simulates R (fontPixel put s lcdW x y g cColor bgColor dy dx)
      (fontPixel put' t lcdW x y g cColor bgColor dy dx) := by
  unfold fontPixel
  cases g.bits (dy * (g.width / 8 + if g.width % 8 ≠ 0 then 1 else 0) + dx / 8) with
  | none => exact .none
  | some data =>
    simp only [Option.bind_some]
    split_ifs
    · exact hput s t h _ _
    · exact hput s t h _ _
    · exact .some h

/-- Such renderers draw a character alike. -/
theorem fontCharDraw_simulates (hput : PutSimulates R put put') {s : S} {t : T} (h : R s t)
    (lcdW lcdH : ℤ) (charH : ℕ) (cColor bgColor : UInt32) (p : ℤ × ℤ) (g : Glyph) :
    Simulates (fun (r : S × ℤ × ℤ) (r' : T × ℤ × ℤ) => R r.1 r'.1 ∧ r.2 = r'.2)
      (fontCharDraw put lcdW lcdH charH cColor bgColor (s, p) g)
      (fontCharDraw put' lcdW lcdH charH cColor bgColor (t, p) g) := by
  have hcell (q : ℤ × ℤ) : Simulates R
      (forLoop charH (fun y s => forLoop g.width
        (fun x s => fontPixel put s lcdW q.1 q.2 g cColor bgColor y x) s) s)
      (forLoop charH (fun y t => forLoop g.width
        (fun x t => fontPixel put' t lcdW q.1 q.2 g cColor bgColor y x) t) t) := by
    apply forLoop_simulates h
    intro y s t _ hst
    apply forLoop_simulates hst
    intro x s t _ hst
    apply fontPixel_simulates hput hst
  simp only [fontCharDraw]
  split_ifs
  · exact .some ⟨h, rfl⟩
  · exact (hcell (0, p.2 + charH)).map fun _ _ hst => ⟨hst, rfl⟩
  · exact .some ⟨h, rfl⟩
  · exact (hcell p).map fun _ _ hst => ⟨hst, rfl⟩

/-- Such renderers draw a text alike. -/
theorem fontDrawOn_simulates {put24 put32 : S → ℤ → Rgb → Option S}
    {put24' put32' : T → ℤ → Rgb → Option T} {a : DrawArgs}
    (hput : PutSimulates R (putAt put24 put32 a.bpp) (putAt put24' put32' a.bpp)) {s : S} {t : T}
    (h : R s t) (env : FontEnv) (str : List UInt8) :
    Simulates (fun (r : S × ℤ) (r' : T × ℤ) => R r.1 r'.1 ∧ r.2 = r'.2)
      (fontDrawOn put24 put32 env s a str) (fontDrawOn put24' put32' env t a str) := by
  unfold fontDrawOn
  cases drawnSize a.charSize with
  | none => exact .some ⟨h, rfl⟩
  | some size =>
    by_cases hbpp : a.bpp ≠ 24 ∧ a.bpp ≠ 32 ∧ a.bpp ≠ 16
    · simp only [if_pos hbpp]
      exact .some ⟨h, rfl⟩
    · simp only [if_neg hbpp]
      cases fontScan env size str.length str with
      | none => exact .none
      | some glyphs =>
        simp only [Option.bind_some]
        have hdraw : Simulates (fun (r : S × ℤ × ℤ) (r' : T × ℤ × ℤ) => R r.1 r'.1 ∧ r.2 = r'.2)
            (glyphs.foldlM (fontCharDraw (putAt put24 put32 a.bpp) a.lcdW a.lcdH size.px a.cColor
              a.bgColor) (s, a.xOft, a.yOft))
            (glyphs.foldlM (fontCharDraw (putAt put24' put32' a.bpp) a.lcdW a.lcdH size.px a.cColor
              a.bgColor) (t, a.xOft, a.yOft)) := by
          apply foldlM_simulates ⟨h, rfl⟩
          rintro g _ ⟨s, p⟩ ⟨t, q⟩ ⟨hst, rfl⟩
          apply fontCharDraw_simulates hput hst
        refine hdraw.map ?_
        rintro r r' ⟨hst, hp⟩
        exact ⟨hst, by simp only [hp]⟩

end Simulation

/-- **The three-byte renderer holds what is painted**: whenever `font_draw` gets through at depth 16
or 24, every pixel painted has its colour in the buffer. -/
theorem fontDraw_simulates_paint {n : ℕ} {a : DrawArgs} (hdepth : a.bpp = 24 ∨ a.bpp = 16)
    (env : FontEnv) (fb : Arr UInt8 n) (str : List UInt8) :
    Simulates (fun (r : Arr UInt8 n × ℤ) (r' : Canvas × ℤ) => HoldsRgb r.1 r'.1 ∧ r.2 = r'.2)
      (fontDraw env fb a str) (fontPaint env a str) := by
  apply fontDrawOn_simulates
  · intro s t hst i c
    simp only [putAt, if_pos hdepth]
    exact putRgb_simulates_paint hst i c
  · intro i c hc
    exact absurd hc (by simp)

end MaixSpeech.Font
