import Mathlib.Data.List.Chain
import MaixSpeech.Font.Pixels
import MaixSpeech.Font.Text

/-!
# The cells of a text

A character that is drawn fills one cell of the screen. `cells` are the cells of a text: they stop
at the first character below the screen, and `foldlM_eq_drawCells` shows that nothing is drawn from
there on, since the cursor never moves up again. Each cell continues the line of the one before or
begins the next line; this alone puts any two of them in reading order (`cells_pairwise`), so they
do not meet.
-/

namespace MaixSpeech.Font

open Common

/-- A cell of the screen: its upper left corner and its width. -/
structure Cell where
  x : ℤ
  y : ℤ
  width : ℕ

namespace Cell

/-- The cell lies at the cursor `p`, or at the beginning of the line below. -/
def At (h : ℕ) (p : ℤ × ℤ) (c : Cell) : Prop := (c.x, c.y) = p ∨ (c.x, c.y) = (0, p.2 + h)

/-- `d` lies directly to the right of `c`, or at column 0 one line lower. -/
def Follows (h : ℕ) (c d : Cell) : Prop := d.At h (c.x + c.width, c.y)

/-- `d` lies below `c`, or in the same line to the right of it. -/
def Before (h : ℕ) (c d : Cell) : Prop := c.y + h ≤ d.y ∨ c.y = d.y ∧ c.x + c.width ≤ d.x

/-- The cell is on a screen of this width and height. -/
def Inside (lcdW lcdH : ℤ) (h : ℕ) (c : Cell) : Prop :=
  0 ≤ c.x ∧ c.x + c.width ≤ lcdW ∧ 0 ≤ c.y ∧ c.y + h ≤ lcdH

/-- The pixel in this column and row belongs to the cell. -/
def Has (h : ℕ) (c : Cell) (col row : ℤ) : Prop :=
  c.x ≤ col ∧ col < c.x + c.width ∧ c.y ≤ row ∧ row < c.y + h

instance (h : ℕ) : Trans (Before h) (Before h) (Before h) where
  trans := by
    intro c d e hcd hde
    unfold Before at *
    omega

theorem Follows.before {h : ℕ} {c d : Cell} (hcd : Follows h c d) : Before h c d := by
  rcases hcd with hcd | hcd
  · obtain ⟨hx, hy⟩ := Prod.mk.inj hcd
    exact Or.inr ⟨hy.symm, hx.ge⟩
  · obtain ⟨-, hy⟩ := Prod.mk.inj hcd
    exact Or.inl hy.ge

/-- Cells in reading order have no pixel in common. -/
theorem Before.disjoint {h : ℕ} {c d : Cell} (hcd : Before h c d) (col row : ℤ) :
    ¬ (c.Has h col row ∧ d.Has h col row) := by
  unfold Before at hcd
  unfold Has
  omega

end Cell

/-! ## Where the cells are -/

/-- The cells of the characters of these widths that are on the screen. -/
def cells (lcdW lcdH : ℤ) (h : ℕ) : ℤ × ℤ → List ℕ → List Cell
  | _, [] => []
  | p, w :: ws =>
    if (place lcdW h p w).2 + h > lcdH then []
    else ⟨(place lcdW h p w).1, (place lcdW h p w).2, w⟩ ::
      cells lcdW lcdH h (advance lcdW lcdH h p w) ws

section Cells

variable {lcdW lcdH : ℤ} {h w : ℕ} {p : ℤ × ℤ} {ws : List ℕ}

theorem le_place_snd (lcdW : ℤ) (h : ℕ) (p : ℤ × ℤ) (w : ℕ) : p.2 ≤ (place lcdW h p w).2 := by
  unfold place
  split_ifs
  · simp only
    omega
  · exact le_rfl

/-- The cursor behind a character on the screen. -/
theorem advance_of_fits (hfit : ¬ (place lcdW h p w).2 + h > lcdH) :
    advance lcdW lcdH h p w = ((place lcdW h p w).1 + w, (place lcdW h p w).2) := if_neg hfit

theorem advance_snd (lcdW lcdH : ℤ) (h : ℕ) (p : ℤ × ℤ) (w : ℕ) :
    (advance lcdW lcdH h p w).2 = (place lcdW h p w).2 := by
  unfold advance
  split_ifs <;> rfl

/-- The cells are those of the first characters. -/
theorem cells_width_prefix : (cells lcdW lcdH h p ws).map Cell.width <+: ws := by
  induction ws generalizing p with
  | nil => exact List.prefix_refl _
  | cons w ws ih =>
    rw [cells]
    split_ifs
    · exact List.nil_prefix
    · exact List.cons_prefix_cons.mpr ⟨rfl, ih⟩

/-- The first cell is at the cursor or begins the next line. -/
theorem cells_head : ∀ c ∈ (cells lcdW lcdH h p ws).head?, c.At h p := by
  cases ws with
  | nil => exact fun c hc => nomatch hc
  | cons w ws =>
    rw [cells]
    split_ifs
    · exact fun c hc => nomatch hc
    · intro c hc
      obtain rfl := Option.some.inj hc
      unfold place
      split_ifs
      · exact Or.inr rfl
      · exact Or.inl rfl

/-- Every cell follows the one before it. -/
theorem cells_chain : (cells lcdW lcdH h p ws).IsChain (Cell.Follows h) := by
  induction ws generalizing p with
  | nil => exact .nil
  | cons w ws ih =>
    rw [cells]
    split_ifs with hout
    · exact .nil
    · refine List.isChain_cons.mpr ⟨fun d hd => ?_, ih⟩
      have hat := cells_head d hd
      rw [advance_of_fits hout] at hat
      exact hat

/-- Any two cells are in reading order. -/
theorem cells_pairwise : (cells lcdW lcdH h p ws).Pairwise (Cell.Before h) :=
  (cells_chain.imp fun _ _ hcd => hcd.before).pairwise

/-- The cells are on the screen. -/
theorem cells_inside (hw : ∀ w ∈ ws, (w : ℤ) ≤ lcdW) (hx : 0 ≤ p.1) (hy : 0 ≤ p.2) :
    ∀ c ∈ cells lcdW lcdH h p ws, c.Inside lcdW lcdH h := by
  induction ws generalizing p with
  | nil => exact fun c hc => absurd hc List.not_mem_nil
  | cons w ws ih =>
    obtain ⟨hx', hfit, hy'⟩ := place_spec h (hw w List.mem_cons_self) hx
    rw [cells]
    split_ifs with hout
    · exact fun c hc => absurd hc List.not_mem_nil
    · refine List.forall_mem_cons.mpr ⟨⟨hx', hfit, hy.trans hy', not_lt.mp hout⟩, ?_⟩
      rw [advance_of_fits hout]
      refine ih (fun v hv => hw v (List.mem_cons_of_mem w hv)) ?_ (hy.trans hy')
      simp only
      omega

theorem le_cursor_snd (lcdW lcdH : ℤ) (h : ℕ) (p : ℤ × ℤ) (ws : List ℕ) :
    p.2 ≤ (cursor lcdW lcdH h p ws).2 := by
  induction ws generalizing p with
  | nil => exact le_rfl
  | cons w ws ih =>
    have hnext := ih (advance lcdW lcdH h p w)
    rw [advance_snd] at hnext
    exact (le_place_snd lcdW h p w).trans hnext

/-- The cursor ends in the last line that has a cell, or below it. -/
theorem cells_above_cursor : ∀ c ∈ cells lcdW lcdH h p ws, c.y ≤ (cursor lcdW lcdH h p ws).2 := by
  induction ws generalizing p with
  | nil => exact fun c hc => absurd hc List.not_mem_nil
  | cons w ws ih =>
    rw [cells]
    split_ifs with hout
    · exact fun c hc => absurd hc List.not_mem_nil
    · refine List.forall_mem_cons.mpr ⟨?_, ih⟩
      have hnext := le_cursor_snd lcdW lcdH h (advance lcdW lcdH h p w) ws
      rw [advance_snd] at hnext
      exact hnext

end Cells

/-! ## Drawing in cells -/

section Drawing

variable {S : Type*} {put : S → ℤ → Rgb → Option S} {lcdW lcdH : ℤ} {h : ℕ}
  {cColor bgColor : UInt32} {fb : S} {p : ℤ × ℤ} {g : Glyph} {glyphs : List Glyph}

/-- The pixels of a glyph, drawn in a cell. -/
def drawCell (put : S → ℤ → Rgb → Option S) (lcdW : ℤ) (h : ℕ) (cColor bgColor : UInt32) (fb : S)
    (gc : Glyph × Cell) : Option S :=
  forLoop h (fun y fb => forLoop gc.1.width
    (fun x fb => fontPixel put fb lcdW gc.2.x gc.2.y gc.1 cColor bgColor y x) fb) fb

/-- A character is drawn in its cell, unless that is below the screen. -/
theorem fontCharDraw_eq_drawCell (put : S → ℤ → Rgb → Option S) (fb : S) (g : Glyph) :
    fontCharDraw put lcdW lcdH h cColor bgColor (fb, p) g =
      if (place lcdW h p g.width).2 + h > lcdH then some (fb, advance lcdW lcdH h p g.width)
      else (drawCell put lcdW h cColor bgColor fb
        (g, ⟨(place lcdW h p g.width).1, (place lcdW h p g.width).2, g.width⟩)).map
          (·, advance lcdW lcdH h p g.width) :=
  fontCharDraw_eq put fb p g

/-- Below the screen nothing is drawn. -/
theorem foldlM_below (hbelow : p.2 + h > lcdH) (put : S → ℤ → Rgb → Option S) (fb : S)
    (glyphs : List Glyph) :
    glyphs.foldlM (fontCharDraw put lcdW lcdH h cColor bgColor) (fb, p) =
      some (fb, cursor lcdW lcdH h p (glyphs.map Glyph.width)) := by
  induction glyphs generalizing p with
  | nil => rfl
  | cons g glyphs ih =>
    have hout : (place lcdW h p g.width).2 + h > lcdH := by
      have := le_place_snd lcdW h p g.width
      omega
    rw [List.foldlM_cons, fontCharDraw_eq_drawCell, if_pos hout]
    exact ih (by rw [advance_snd]; exact hout)

/-- **A text is drawn in its cells**: the first characters each in its cell, the others not at all.
-/
theorem foldlM_eq_drawCells (put : S → ℤ → Rgb → Option S) (fb : S) (glyphs : List Glyph) :
    glyphs.foldlM (fontCharDraw put lcdW lcdH h cColor bgColor) (fb, p) =
      ((glyphs.zip (cells lcdW lcdH h p (glyphs.map Glyph.width))).foldlM
        (drawCell put lcdW h cColor bgColor) fb).map
          (·, cursor lcdW lcdH h p (glyphs.map Glyph.width)) := by
  induction glyphs generalizing fb p with
  | nil => rfl
  | cons g glyphs ih =>
    rw [List.foldlM_cons, fontCharDraw_eq_drawCell, List.map_cons, cells]
    split_ifs with hout
    · have hbelow : (advance lcdW lcdH h p g.width).2 + h > lcdH := by
        rw [advance_snd]
        exact hout
      exact foldlM_below hbelow put fb glyphs
    · rw [List.zip_cons_cons, List.foldlM_cons]
      generalize drawCell put lcdW h cColor bgColor fb
        (g, ⟨(place lcdW h p g.width).1, (place lcdW h p g.width).2, g.width⟩) = r
      cases r with
      | none => rfl
      | some fb₁ => exact ih fb₁

end Drawing

/-! ## The layout of a text -/

section Text

variable {env : FontEnv} {a : DrawArgs} {size : FontSize} {text : List Character}

/-- The cells of a text. -/
def textCells (a : DrawArgs) (size : FontSize) (text : List Character) : List Cell :=
  cells a.lcdW a.lcdH size.px (a.xOft, a.yOft) (text.map (Character.width size))

/-- The characters of a text with their cells, for those that have one. -/
def drawnCells (env : FontEnv) (a : DrawArgs) (size : FontSize) (text : List Character) :
    List (Glyph × Cell) :=
  (text.map (Character.glyph env size)).zip (textCells a size text)

/-- The value returned behind a text. -/
def textBottom (a : DrawArgs) (size : FontSize) (text : List Character) : ℤ :=
  (cursor a.lcdW a.lcdH size.px (a.xOft, a.yOft) (text.map (Character.width size))).2 + size.px

/-- `font_draw` draws the first characters of the text, as many as there are cells, each in its cell
and the others not at all, and returns `ret`. The cells are as wide as the characters, lie inside
the screen and above row `ret`, follow one another in reading order, and do not meet. -/
structure LaidOut (env : FontEnv) (a : DrawArgs) (size : FontSize) (text : List Character)
    (cs : List Cell) (ret : ℤ) : Prop where
  draws : ∀ (S : Type) (put24 put32 : S → ℤ → Rgb → Option S) (fb : S),
    fontDrawOn put24 put32 env fb a (textBytes text ++ [0]) =
      (((text.map (Character.glyph env size)).zip cs).foldlM
        (drawCell (putAt put24 put32 a.bpp) a.lcdW size.px a.cColor a.bgColor) fb).map (·, ret)
  through : ∀ (n : ℕ) (fb : Arr UInt8 n), a.lcdW * a.lcdH * pixelBytes a.bpp ≤ n →
    (fontDraw env fb a (textBytes text ++ [0])).isSome
  widths : cs.map Cell.width <+: text.map (Character.width size)
  first : ∀ c ∈ cs.head?, c.At size.px (a.xOft, a.yOft)
  follows : cs.IsChain (Cell.Follows size.px)
  inside : ∀ c ∈ cs, c.Inside a.lcdW a.lcdH size.px
  disjoint : cs.Pairwise fun c d => ∀ col row, ¬ (c.Has size.px col row ∧ d.Has size.px col row)
  above : ∀ c ∈ cs, ∀ col row, c.Has size.px col row → row < ret

/-- The scan of a text with its NUL. -/
theorem fontScan_text (htext : TextAvailable env size text) :
    fontScan env size (textBytes text ++ [0]).length (textBytes text ++ [0]) =
      some (text.map (Character.glyph env size)) :=
  fontScan_textBytes htext [] (by rw [List.length_append]; exact Nat.lt_succ_self _)

theorem fontDrawOn_text {S : Type*} (ha : a.Valid size) (htext : TextAvailable env size text)
    (put24 put32 : S → ℤ → Rgb → Option S) (fb : S) :
    fontDrawOn put24 put32 env fb a (textBytes text ++ [0]) =
      ((drawnCells env a size text).foldlM
        (drawCell (putAt put24 put32 a.bpp) a.lcdW size.px a.cColor a.bgColor) fb).map
          (·, textBottom a size text) := by
  rw [fontDrawOn_eq ha.drawn ha.depth, fontScan_text htext, Option.bind_some, foldlM_eq_drawCells,
    Option.map_map, map_glyph_width]
  rfl

theorem width_le (ha : a.Valid size) (text : List Character) :
    ∀ w ∈ text.map (Character.width size), (w : ℤ) ≤ a.lcdW := by
  intro w hw
  obtain ⟨c, -, rfl⟩ := List.mem_map.mp hw
  have hpx := ha.width
  cases c with
  | ascii b nul low =>
    simp only [Character.width]
    omega
  | gbk ch cl lead trail => exact hpx

/-- The cells of a text are its layout. -/
theorem laidOut_text (ha : a.Valid size) (htext : TextAvailable env size text) :
    LaidOut env a size text (textCells a size text) (textBottom a size text) := by
  have hwidth := width_le ha text
  refine
    { draws := fun S put24 put32 fb => fontDrawOn_text ha htext put24 put32 fb
      through := ?_
      widths := cells_width_prefix
      first := cells_head
      follows := cells_chain
      inside := cells_inside hwidth ha.x ha.y
      disjoint := cells_pairwise.imp fun hcd => hcd.disjoint
      above := ?_ }
  · intro n fb hn
    have hread := htext.readable ha.drawn
    obtain ⟨fb', hrun, -⟩ :=
      fontDraw_spec ha (fontScan_text htext) (legible_of_readable hread) fb hn
    rw [hrun]
    rfl
  · intro c hc col row hhas
    have habove := cells_above_cursor c hc
    have hrow := hhas.2.2.2
    rw [textBottom]
    omega

/-- **The layout of drawn text**, for every screen, offset and available text: its characters are in
the cells of `textCells`, and `textBottom` is returned. -/
theorem fontDraw_laidOut (ha : a.Valid size) (htext : TextAvailable env size text) :
    LaidOut env a size text (textCells a size text) (textBottom a size text) :=
  laidOut_text ha htext

/-- A screen that has room for two 7s in a line and for two lines. -/
def twoByTwo : DrawArgs :=
  { bpp := 24, lcdW := 20, lcdH := 40, charSize := 16, xOft := 0, yOft := 0, cColor := 0
    bgColor := 0 }

/-- Four of five 7s are drawn there. -/
theorem fontDraw_laidOut_sevens :
    LaidOut FontEnv.plain twoByTwo size16 (List.replicate 5 .seven)
      [⟨0, 0, 8⟩, ⟨8, 0, 8⟩, ⟨0, 16, 8⟩, ⟨8, 16, 8⟩] 48 :=
  fontDraw_laidOut ⟨by decide, Or.inl rfl, by decide, by decide, by decide⟩ (available_seven 5 _)

end Text

end MaixSpeech.Font
