import MaixSpeech.Font.Layout

/-!
# What is painted

On the abstract canvas a character that fits on the screen paints every pixel of its cell in one of
its two colours, unless the background is `FONT_NO_BG`, and a painted pixel stays painted to the end
of the text.
-/

namespace MaixSpeech.Font

open Common

/-- The pixel has been painted, in a colour of the text. -/
def Painted (cColor bgColor : UInt32) (i : ℤ) (cv : Canvas) : Prop :=
  ∃ c, Ink cColor bgColor c ∧ cv i = some c

section Character

variable {cColor bgColor : UInt32} {cv : Canvas} {i lcdW lcdH : ℤ} {h : ℕ} {p : ℤ × ℤ} {g : Glyph}

/-- Painting keeps what is painted. -/
theorem puts_painted {lo hi : ℤ} :
    Puts paint (Painted cColor bgColor i) cColor bgColor lo hi := by
  rintro j c s - - hc ⟨d, hd, hs⟩
  refine ⟨_, rfl, ?_⟩
  by_cases hij : i = j
  · subst hij
    exact ⟨c, hc, Function.update_self ..⟩
  · exact ⟨d, hd, by rw [Function.update_of_ne hij, hs]⟩

/-- With a background colour, a pixel of a cell is painted. -/
theorem fontPixel_paints {dx dy : ℕ} (hg : g.Readable h) (hbg : bgColor ≠ fontNoBg)
    (hdx : dx < g.width) (hdy : dy < h) (cv : Canvas) (lcdW : ℤ) (p : ℤ × ℤ) :
    ∃ cv', fontPixel paint cv lcdW p.1 p.2 g cColor bgColor dy dx = some cv' ∧
      Painted cColor bgColor (dx + p.1 + (dy + p.2) * lcdW) cv' := by
  obtain ⟨data, hdata⟩ := hg dy hdy dx hdx
  simp only [fontPixel, hdata, Option.bind_some, if_pos hbg]
  split_ifs
  · exact ⟨_, rfl, _, Or.inl rfl, Function.update_self ..⟩
  · exact ⟨_, rfl, _, Or.inr rfl, Function.update_self ..⟩

/-- **A character on the screen paints its cell**. -/
theorem fontCharDraw_paints (hg : g.Readable h) (hbg : bgColor ≠ fontNoBg)
    (hfit : (place lcdW h p g.width).2 + h ≤ lcdH) {dx dy : ℕ} (hdx : dx < g.width) (hdy : dy < h)
    (cv : Canvas) :
    ∃ cv', fontCharDraw paint lcdW lcdH h cColor bgColor (cv, p) g =
        some (cv', advance lcdW lcdH h p g.width) ∧
      Painted cColor bgColor
        (dx + (place lcdW h p g.width).1 + (dy + (place lcdW h p g.width).2) * lcdW) cv' := by
  rw [fontCharDraw_eq, if_neg (not_lt.mpr hfit)]
  generalize place lcdW h p g.width = q
  -- one pixel keeps the pixel painted, and paints it when it is its turn
  have hpixel : ∀ y < h, ∀ x < g.width, ∀ s : Canvas,
      ∃ s', fontPixel paint s lcdW q.1 q.2 g cColor bgColor y x = some s' ∧
        (Painted cColor bgColor (dx + q.1 + (dy + q.2) * lcdW) s ∨ (x = dx ∧ y = dy) →
          Painted cColor bgColor (dx + q.1 + (dy + q.2) * lcdW) s') := by
    intro y hy x hx s
    obtain ⟨s', hs', hp⟩ := fontPixel_paints hg hbg hx hy s lcdW q
    refine ⟨s', hs', ?_⟩
    rintro (hs | ⟨rfl, rfl⟩)
    · obtain ⟨t, ht, hpt⟩ := fontPixel_spec hg hx hy puts_painted le_rfl (lt_add_one _) hs
      rw [hs'] at ht
      obtain rfl := Option.some.inj ht
      exact hpt
    · exact hp
  have hcell : ∃ cv', forLoop h (fun y cv => forLoop g.width
      (fun x cv => fontPixel paint cv lcdW q.1 q.2 g cColor bgColor y x) cv) cv = some cv' ∧
      (dy * g.width + dx < h * g.width →
        Painted cColor bgColor (dx + q.1 + (dy + q.2) * lcdW) cv') := by
    apply forLoop_nested_spec fun (m : ℕ) (s : Canvas) =>
      dy * g.width + dx < m → Painted cColor bgColor (dx + q.1 + (dy + q.2) * lcdW) s
    · exact fun h0 => absurd h0 (Nat.not_lt_zero _)
    · intro y hy x hx s hs
      obtain ⟨s', hs', hp⟩ := hpixel y hy x hx s
      refine ⟨s', hs', fun hturn => hp ?_⟩
      by_cases hlast : y * g.width + x = dy * g.width + dx
      · exact Or.inr (eq_of_rowMajor hx hdx hlast).symm
      · exact Or.inl (hs (by omega))
  obtain ⟨cv', hrun, hp⟩ := hcell
  exact ⟨cv', by rw [hrun]; rfl, hp (rowMajor_lt hdy hdx)⟩

end Character

/-- **What a string paints**: the cell of each of its characters that is on the screen. -/
theorem fontPaint_spec {env : FontEnv} {a : DrawArgs} {size : FontSize} (ha : a.Valid size)
    {str : List UInt8} {pre post : List Glyph} {g : Glyph}
    (hscan : fontScan env size str.length str = some (pre ++ g :: post))
    (hleg : Legible a.lcdW a.lcdH size.px (a.xOft, a.yOft) (pre ++ g :: post))
    (hbg : a.bgColor ≠ fontNoBg) {p q : ℤ × ℤ}
    (hp : p = cursor a.lcdW a.lcdH size.px (a.xOft, a.yOft) (pre.map Glyph.width))
    (hq : q = place a.lcdW size.px p g.width) (hfit : q.2 + size.px ≤ a.lcdH) {dx dy : ℕ}
    (hdx : dx < g.width) (hdy : dy < size.px) :
    ∃ cv, fontPaint env a str = some (cv, bottom a size (pre ++ g :: post)) ∧
      Painted a.cColor a.bgColor (dx + q.1 + (dy + q.2) * a.lcdW) cv := by
  have hput : putAt paint paint a.bpp = paint := ite_self paint
  have hW : 0 ≤ a.lcdW := le_trans (by omega) ha.width
  have hw := fontScan_width_le hscan ha.width
  obtain ⟨hpre, hread, hpost⟩ := legible_append.mp hleg
  rw [← hp] at hread hpost
  -- the characters before it, the character, and the characters behind it
  have hbefore : ∃ cv₁ : Canvas, pre.foldlM
      (fontCharDraw paint a.lcdW a.lcdH size.px a.cColor a.bgColor)
      (fun _ => none, a.xOft, a.yOft) = some (cv₁, p) ∧ True := by
    rw [hp]
    apply foldlM_fontCharDraw_spec (fun _ => True) hpre (fun g' h' => hw g' (by simp [h'])) hW ha.x
    · exact fun i c s _ _ _ _ => ⟨_, rfl, trivial⟩
    · trivial
  obtain ⟨cv₁, h₁, -⟩ := hbefore
  have hdraw : ∃ cv₂, fontCharDraw paint a.lcdW a.lcdH size.px a.cColor a.bgColor (cv₁, p) g =
      some (cv₂, advance a.lcdW a.lcdH size.px p g.width) ∧
      Painted a.cColor a.bgColor (dx + q.1 + (dy + q.2) * a.lcdW) cv₂ := by
    rw [hq] at hfit ⊢
    exact fontCharDraw_paints (hread hfit) hbg hfit hdx hdy cv₁
  obtain ⟨cv₂, h₂, hpaint⟩ := hdraw
  have hwpre : ∀ w ∈ pre.map Glyph.width, (w : ℤ) ≤ a.lcdW :=
    List.forall_mem_map.mpr fun g' h' => hw g' (by simp [h'])
  have hx : 0 ≤ p.1 := hp ▸ (cursor_spec (p := (a.xOft, a.yOft)) a.lcdH size.px hwpre ha.x).1
  have hx' := (advance_spec a.lcdH size.px (hw g (by simp)) hx).1
  obtain ⟨cv₃, h₃, hlast⟩ := foldlM_fontCharDraw_spec _ hpost (fun g' h' => hw g' (by simp [h'])) hW
    hx' puts_painted hpaint
  refine ⟨cv₃, ?_, hlast⟩
  rw [fontPaint, fontDrawOn_eq ha.drawn ha.depth, hscan, hput, Option.bind_some,
    List.foldlM_append, h₁]
  simp only [Option.bind_eq_bind, Option.bind_some, List.foldlM_cons, h₂, h₃, Option.map_some]
  simp only [hp, bottom, cursor, List.map_append, List.map_cons, List.foldl_append, List.foldl_cons]

end MaixSpeech.Font
