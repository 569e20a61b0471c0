import Mathlib.Algebra.Order.Ring.Int
import Mathlib.Tactic.Linarith
import MaixSpeech.Font.Draw

/-!
# Where `font_draw` draws

Reference: `components/utils/src/font.c`.

The cursor moves in a way that depends on the widths of the glyphs alone: `place` is where a glyph
goes, `advance` the cursor behind it. A list of glyphs is `Legible` when the bits of those that are
on the screen can be read. `fontDrawOn_spec` is the rule for a string: if the glyphs the scan finds
are legible and the buffer takes every pixel between the first row and the returned one, the string
gets drawn, and what every one of these stores keeps still holds. `legible_of_fontDrawOn` is its
converse.
-/

namespace MaixSpeech.Font

open Common

/-! ## The cursor -/

/-- Where a character of width `w` goes: a character that does not fit moves to the next line. -/
def place (lcdW : ℤ) (h : ℕ) (p : ℤ × ℤ) (w : ℕ) : ℤ × ℤ :=
  if p.1 + w > lcdW then (0, p.2 + h) else p

/-- The cursor behind a character of width `w`: a character below the screen is not drawn. -/
def advance (lcdW lcdH : ℤ) (h : ℕ) (p : ℤ × ℤ) (w : ℕ) : ℤ × ℤ :=
  if (place lcdW h p w).2 + h > lcdH then place lcdW h p w
  else ((place lcdW h p w).1 + w, (place lcdW h p w).2)

section Cursor

variable {lcdW : ℤ} {w : ℕ} {p : ℤ × ℤ} (lcdH : ℤ) (h : ℕ)

/-- A character goes to a column where it fits, and not above the cursor. -/
theorem place_spec (hw : w ≤ lcdW) (hx : 0 ≤ p.1) :
    0 ≤ (place lcdW h p w).1 ∧ (place lcdW h p w).1 + w ≤ lcdW ∧ p.2 ≤ (place lcdW h p w).2 := by
  unfold place
  split_ifs with hwrap
  · exact ⟨le_rfl, by simpa using hw, by simp only; omega⟩
  · exact ⟨hx, by omega, le_rfl⟩

theorem advance_spec (hw : w ≤ lcdW) (hx : 0 ≤ p.1) :
    0 ≤ (advance lcdW lcdH h p w).1 ∧ (advance lcdW lcdH h p w).2 = (place lcdW h p w).2 ∧
      p.2 ≤ (advance lcdW lcdH h p w).2 := by
  obtain ⟨hx', -, hy'⟩ := place_spec h hw hx
  unfold advance
  split_ifs
  · exact ⟨hx', rfl, hy'⟩
  · exact ⟨by simp only; omega, rfl, hy'⟩

/-- The cursor behind characters of these widths. -/
def cursor (lcdW lcdH : ℤ) (h : ℕ) (p : ℤ × ℤ) (ws : List ℕ) : ℤ × ℤ :=
  ws.foldl (advance lcdW lcdH h) p

theorem cursor_spec {ws : List ℕ} (hw : ∀ w ∈ ws, w ≤ lcdW) (hx : 0 ≤ p.1) :
    0 ≤ (cursor lcdW lcdH h p ws).1 ∧ p.2 ≤ (cursor lcdW lcdH h p ws).2 := by
  induction ws generalizing p with
  | nil => exact ⟨hx, le_rfl⟩
  | cons w ws ih =>
    obtain ⟨hx', -, hy'⟩ := advance_spec lcdH h (hw w (by simp)) hx
    obtain ⟨h1, h2⟩ := ih (fun v hv => hw v (by simp [hv])) hx'
    exact ⟨h1, hy'.trans h2⟩

end Cursor

/-! ## Glyphs -/

/-- Every bit of the glyph can be read. -/
def Glyph.Readable (g : Glyph) (h : ℕ) : Prop :=
  ∀ y < h, ∀ x < g.width,
    ∃ data, g.bits (y * (g.width / 8 + if g.width % 8 ≠ 0 then 1 else 0) + x / 8) = some data

/-- Every glyph that is on the screen, with the cursor at `p` before the first one, can be read. -/
def Legible (lcdW lcdH : ℤ) (h : ℕ) : ℤ × ℤ → List Glyph → Prop
  | _, [] => True
  | p, g :: glyphs =>
    ((place lcdW h p g.width).2 + h ≤ lcdH → g.Readable h) ∧
      Legible lcdW lcdH h (advance lcdW lcdH h p g.width) glyphs

theorem legible_of_readable {lcdW lcdH : ℤ} {h : ℕ} {p : ℤ × ℤ} {glyphs : List Glyph}
    (hg : ∀ g ∈ glyphs, g.Readable h) : Legible lcdW lcdH h p glyphs := by
  induction glyphs generalizing p with
  | nil => trivial
  | cons g glyphs ih =>
    exact ⟨fun _ => hg g (by simp), ih fun g' h' => hg g' (by simp [h'])⟩

theorem legible_append {lcdW lcdH : ℤ} {h : ℕ} {p : ℤ × ℤ} {pre post : List Glyph} :
    Legible lcdW lcdH h p (pre ++ post) ↔
      Legible lcdW lcdH h p pre ∧
        Legible lcdW lcdH h (cursor lcdW lcdH h p (pre.map Glyph.width)) post := by
  induction pre generalizing p with
  | nil => exact (and_iff_right trivial).symm
  | cons g pre ih =>
    simp only [List.cons_append, Legible, ih, and_assoc, List.map_cons, cursor, List.foldl_cons]

/-! ## Drawing -/

section Drawing

variable {S : Type*} {put : S → ℤ → Rgb → Option S} {lcdW lcdH : ℤ} {h : ℕ} {cColor bgColor : UInt32}
  {fb : S} {p : ℤ × ℤ} {g : Glyph} {Inv : S → Prop}

/-- The two colours a text is drawn in. -/
def Ink (cColor bgColor : UInt32) (c : Rgb) : Prop :=
  c = Rgb.ofColor cColor ∨ c = Rgb.ofColor bgColor

/-- `put` works on the pixels from `lo` up to `hi` and keeps `Inv`. -/
def Puts (put : S → ℤ → Rgb → Option S) (Inv : S → Prop) (cColor bgColor : UInt32) (lo hi : ℤ) :
    Prop :=
  ∀ i c s, lo ≤ i → i < hi → Ink cColor bgColor c → Inv s → ∃ s', put s i c = some s' ∧ Inv s'

theorem Puts.mono {lo hi lo' hi' : ℤ} (hp : Puts put Inv cColor bgColor lo hi) (hlo : lo ≤ lo')
    (hhi : hi' ≤ hi) : Puts put Inv cColor bgColor lo' hi' :=
  fun i c s h1 h2 => hp i c s (hlo.trans h1) (h2.trans_le hhi)

/-- A pixel of a character's cell has its number among those of the cell's rows. -/
theorem pixel_bounds (y : ℤ) {x : ℤ} {dx dy w : ℕ} (hx : 0 ≤ x) (hw : x + w ≤ lcdW) (hdx : dx < w)
    (hdy : dy < h) :
    lcdW * y ≤ dx + x + (dy + y) * lcdW ∧ dx + x + (dy + y) * lcdW < lcdW * (y + h) := by
  have hcol : (dx : ℤ) + x + 1 ≤ lcdW := by omega
  have hrow : (dy : ℤ) + 1 ≤ h := by omega
  have hW : 0 ≤ lcdW := by omega
  constructor
  · nlinarith
  · nlinarith [mul_le_mul_of_nonneg_left hrow hW]

/-- **One pixel**. -/
theorem fontPixel_spec {lo hi : ℤ} {dx dy : ℕ} (hg : g.Readable h) (hdx : dx < g.width)
    (hdy : dy < h) (hput : Puts put Inv cColor bgColor lo hi)
    (hlo : lo ≤ dx + p.1 + (dy + p.2) * lcdW) (hhi : dx + p.1 + (dy + p.2) * lcdW < hi)
    (hfb : Inv fb) :
    ∃ fb', fontPixel put fb lcdW p.1 p.2 g cColor bgColor dy dx = some fb' ∧ Inv fb' := by
  obtain ⟨data, hdata⟩ := hg dy hdy dx hdx
  simp only [fontPixel, hdata, Option.bind_some]
  split_ifs
  · exact hput _ _ _ hlo hhi (Or.inl rfl) hfb
  · exact hput _ _ _ hlo hhi (Or.inr rfl) hfb
  · exact ⟨fb, rfl, hfb⟩

/-- A character is drawn at its place, unless that is below the screen. -/
theorem fontCharDraw_eq (put : S → ℤ → Rgb → Option S) (fb : S) (p : ℤ × ℤ) (g : Glyph) :
    fontCharDraw put lcdW lcdH h cColor bgColor (fb, p) g =
      if (place lcdW h p g.width).2 + h > lcdH then some (fb, advance lcdW lcdH h p g.width)
      else (forLoop h (fun y fb => forLoop g.width (fun x fb =>
        fontPixel put fb lcdW (place lcdW h p g.width).1 (place lcdW h p g.width).2 g cColor bgColor
          y x) fb) fb).map (·, advance lcdW lcdH h p g.width) := by
  have hplace : (if p.1 + g.width > lcdW then ((0 : ℤ), p.2 + h) else (p.1, p.2)) =
      place lcdW h p g.width := rfl
  simp only [fontCharDraw, hplace, advance]
  split_ifs
  · rfl
  · rfl

/-- **One character**: it is drawn in the rows from the cursor's on and moves the cursor. -/
theorem fontCharDraw_spec (hg : (place lcdW h p g.width).2 + h ≤ lcdH → g.Readable h)
    (hw : g.width ≤ lcdW) (hx : 0 ≤ p.1)
    (hput : Puts put Inv cColor bgColor (lcdW * p.2)
      (lcdW * min lcdH ((advance lcdW lcdH h p g.width).2 + h)))
    (hfb : Inv fb) :
    ∃ fb', fontCharDraw put lcdW lcdH h cColor bgColor (fb, p) g =
      some (fb', advance lcdW lcdH h p g.width) ∧ Inv fb' := by
  obtain ⟨hx', hw', hy'⟩ := place_spec h hw hx
  rw [fontCharDraw_eq]
  by_cases hout : (place lcdW h p g.width).2 + h > lcdH
  · exact ⟨fb, if_pos hout, hfb⟩
  rw [(advance_spec lcdH h hw hx).2.1] at hput
  have hread : g.Readable h := hg (not_lt.mp hout)
  have hcell : ∃ fb', forLoop h (fun y fb => forLoop g.width (fun x fb =>
      fontPixel put fb lcdW (place lcdW h p g.width).1 (place lcdW h p g.width).2 g cColor bgColor
        y x) fb) fb = some fb' ∧ Inv fb' := by
    apply forLoop_nested_spec fun _ => Inv
    · exact hfb
    · intro y hy x hx s hs
      obtain ⟨hlo, hhi⟩ := pixel_bounds (place lcdW h p g.width).2 hx' hw' hx hy
      refine fontPixel_spec hread hx hy hput ?_ ?_ hs
      · exact le_trans (mul_le_mul_of_nonneg_left hy' (by omega)) hlo
      · rw [min_eq_right (by omega)]
        exact hhi
  obtain ⟨fb', hrun, hinv⟩ := hcell
  exact ⟨fb', by rw [if_neg hout, hrun]; rfl, hinv⟩

/-- **The characters of a text**, one behind the other. -/
theorem foldlM_fontCharDraw_spec (Inv : S → Prop) {glyphs : List Glyph}
    (hg : Legible lcdW lcdH h p glyphs) (hw : ∀ g ∈ glyphs, g.width ≤ lcdW) (hW : 0 ≤ lcdW)
    (hx : 0 ≤ p.1)
    (hput : Puts put Inv cColor bgColor (lcdW * p.2)
      (lcdW * min lcdH ((cursor lcdW lcdH h p (glyphs.map Glyph.width)).2 + h)))
    (hfb : Inv fb) :
    ∃ fb', glyphs.foldlM (fontCharDraw put lcdW lcdH h cColor bgColor) (fb, p) =
      some (fb', cursor lcdW lcdH h p (glyphs.map Glyph.width)) ∧ Inv fb' := by
  induction glyphs generalizing fb p with
  | nil => exact ⟨fb, rfl, hfb⟩
  | cons g glyphs ih =>
    have hwg : g.width ≤ lcdW := hw g (by simp)
    have hwt : ∀ w ∈ glyphs.map Glyph.width, (w : ℤ) ≤ lcdW :=
      List.forall_mem_map.mpr fun g' hg' => hw g' (by simp [hg'])
    obtain ⟨hx', -, hy'⟩ := advance_spec lcdH h hwg hx
    obtain ⟨-, hlast⟩ := cursor_spec lcdH h hwt hx'
    rw [List.map_cons, cursor, List.foldl_cons, ← cursor] at hput ⊢
    have hfirst : Puts put Inv cColor bgColor (lcdW * p.2)
        (lcdW * min lcdH ((advance lcdW lcdH h p g.width).2 + h)) :=
      hput.mono le_rfl (mul_le_mul_of_nonneg_left (by omega) hW)
    obtain ⟨fb₁, hdraw, hinv⟩ := fontCharDraw_spec hg.1 hwg hx hfirst hfb
    obtain ⟨fb', hrest, hinv'⟩ := ih hg.2 (fun g' h' => hw g' (by simp [h'])) hx'
      (hput.mono (mul_le_mul_of_nonneg_left hy' hW) le_rfl) hinv
    exact ⟨fb', by rw [List.foldlM_cons, hdraw]; exact hrest, hinv'⟩

/-! ## What drawing needs -/

/-- A character that gets drawn can be read, and moves the cursor. -/
theorem readable_of_fontCharDraw {r : S × ℤ × ℤ}
    (hr : fontCharDraw put lcdW lcdH h cColor bgColor (fb, p) g = some r) :
    ((place lcdW h p g.width).2 + h ≤ lcdH → g.Readable h) ∧
      r.2 = advance lcdW lcdH h p g.width := by
  rw [fontCharDraw_eq] at hr
  split_ifs at hr with hout
  · obtain rfl := Option.some.inj hr
    exact ⟨fun hin => absurd hin (not_le.mpr hout), rfl⟩
  · obtain ⟨fb', hcell, rfl⟩ := Option.map_eq_some_iff.mp hr
    refine ⟨fun _ y hy x hx => ?_, rfl⟩
    obtain ⟨s₁, s₂, hrow⟩ := forLoop_turn hcell hy
    obtain ⟨t₁, t₂, hpixel⟩ := forLoop_turn hrow hx
    obtain ⟨data, hdata, -⟩ := Option.bind_eq_some_iff.mp hpixel
    exact ⟨data, hdata⟩

/-- Glyphs that get drawn are legible. -/
theorem legible_of_foldlM {glyphs : List Glyph} {r : S × ℤ × ℤ}
    (hr : glyphs.foldlM (fontCharDraw put lcdW lcdH h cColor bgColor) (fb, p) = some r) :
    Legible lcdW lcdH h p glyphs := by
  induction glyphs generalizing fb p with
  | nil => trivial
  | cons g glyphs ih =>
    rw [List.foldlM_cons] at hr
    obtain ⟨⟨fb₁, p₁⟩, hdraw, hrest⟩ := Option.bind_eq_some_iff.mp hr
    obtain ⟨hread, hp⟩ := readable_of_fontCharDraw hdraw
    obtain rfl : p₁ = advance lcdW lcdH h p g.width := hp
    exact ⟨hread, ih hrest⟩

end Drawing

/-! ## `font_draw` on a string -/

/-- The store `font_draw` uses at this depth. -/
def putAt {S : Type*} (put24 put32 : S → ℤ → Rgb → Option S) (bpp : ℤ) : S → ℤ → Rgb → Option S :=
  if bpp = 24 ∨ bpp = 16 then put24 else put32

/-- The arguments under which `font_draw` draws: a font size and a depth it supports, a screen wide
enough for a character, and a cursor on the screen. -/
structure DrawArgs.Valid (a : DrawArgs) (size : FontSize) : Prop where
  drawn : drawnSize a.charSize = some size
  depth : a.bpp = 24 ∨ a.bpp = 32 ∨ a.bpp = 16
  width : size.px ≤ a.lcdW
  x : 0 ≤ a.xOft
  y : 0 ≤ a.yOft

/-- The value `font_draw` returns behind these glyphs: the first row below them. -/
def bottom (a : DrawArgs) (size : FontSize) (glyphs : List Glyph) : ℤ :=
  (cursor a.lcdW a.lcdH size.px (a.xOft, a.yOft) (glyphs.map Glyph.width)).2 + size.px

section Strings

variable {S : Type*} {put24 put32 : S → ℤ → Rgb → Option S} {env : FontEnv} {a : DrawArgs}
  {size : FontSize} {str : List UInt8} {glyphs : List Glyph}

/-- **One turn of the scan**: it ends at a NUL, or finds a half-width glyph for one byte or a
full-width one for at least two. -/
theorem fontScan_turn {fuel : ℕ} {b : UInt8} {rest : List UInt8}
    (hscan : fontScan env size (fuel + 1) (b :: rest) = some glyphs) :
    glyphs = [] ∨ ∃ g gs k, glyphs = g :: gs ∧ fontScan env size fuel (rest.drop k) = some gs ∧
      (g.width = size.px / 2 ∨ g.width = size.px ∧ 1 ≤ k) := by
  simp only [fontScan] at hscan
  split_ifs at hscan with hnul hlow
  · exact Or.inl (Option.some.inj hscan).symm
  · obtain ⟨gs, hgs, rfl⟩ := Option.map_eq_some_iff.mp hscan
    exact Or.inr ⟨_, gs, 0, rfl, hgs, Or.inl rfl⟩
  · obtain ⟨addr, -, hrest⟩ := Option.bind_eq_some_iff.mp hscan
    cases addr with
    | none =>
      obtain ⟨gs, hgs, rfl⟩ := Option.map_eq_some_iff.mp hrest
      exact Or.inr ⟨_, gs, 3, rfl, hgs, Or.inr ⟨rfl, by omega⟩⟩
    | some addr =>
      obtain ⟨gs, hgs, rfl⟩ := Option.map_eq_some_iff.mp hrest
      exact Or.inr ⟨_, gs, 1, rfl, hgs, Or.inr ⟨rfl, le_rfl⟩⟩

/-- The scan finds full-width and half-width glyphs. -/
theorem fontScan_width {fuel : ℕ} (hscan : fontScan env size fuel str = some glyphs) :
    ∀ g ∈ glyphs, g.width = size.px / 2 ∨ g.width = size.px := by
  induction fuel generalizing str glyphs with
  | zero => cases hscan
  | succ fuel ih =>
    cases str with
    | nil => cases hscan
    | cons b rest =>
      rcases fontScan_turn hscan with rfl | ⟨g, gs, k, rfl, hgs, hw⟩
      · exact fun g hg => absurd hg List.not_mem_nil
      · exact List.forall_mem_cons.mpr ⟨hw.imp_right And.left, ih hgs⟩

/-- Scanned glyphs fit on a screen that is wide enough for a full-width one. -/
theorem fontScan_width_le {fuel : ℕ} (hscan : fontScan env size fuel str = some glyphs) {W : ℤ}
    (hW : size.px ≤ W) : ∀ g ∈ glyphs, (g.width : ℤ) ≤ W := by
  intro g hg
  rcases fontScan_width hscan g hg with hw | hw <;> omega

/-- `font_draw` finds the glyphs of a string and draws them. -/
theorem fontDrawOn_eq (hsize : drawnSize a.charSize = some size)
    (hdepth : a.bpp = 24 ∨ a.bpp = 32 ∨ a.bpp = 16) (fb : S) (str : List UInt8) :
    fontDrawOn put24 put32 env fb a str =
      (fontScan env size str.length str).bind fun glyphs =>
        (glyphs.foldlM
          (fontCharDraw (putAt put24 put32 a.bpp) a.lcdW a.lcdH size.px a.cColor a.bgColor)
          (fb, a.xOft, a.yOft)).map fun r : S × ℤ × ℤ => (r.1, r.2.2 + size.px) := by
  have hbpp : ¬ (a.bpp ≠ 24 ∧ a.bpp ≠ 32 ∧ a.bpp ≠ 16) := by omega
  simp only [fontDrawOn, hsize, if_neg hbpp]
  rfl

/-- **The rule for a string**: `font_draw` gets through and keeps whatever the stores between the
first row and the returned one keep. -/
theorem fontDrawOn_spec (Inv : S → Prop) (ha : a.Valid size)
    (hscan : fontScan env size str.length str = some glyphs)
    (hleg : Legible a.lcdW a.lcdH size.px (a.xOft, a.yOft) glyphs) {fb : S}
    (hput : Puts (putAt put24 put32 a.bpp) Inv a.cColor a.bgColor (a.lcdW * a.yOft)
      (a.lcdW * min a.lcdH (bottom a size glyphs)))
    (hfb : Inv fb) :
    ∃ fb', fontDrawOn put24 put32 env fb a str = some (fb', bottom a size glyphs) ∧ Inv fb' := by
  obtain ⟨fb', hrun, hinv⟩ := foldlM_fontCharDraw_spec Inv hleg (fontScan_width_le hscan ha.width)
    (le_trans (by omega) ha.width) ha.x hput hfb
  refine ⟨fb', ?_, hinv⟩
  rw [fontDrawOn_eq ha.drawn ha.depth, hscan, Option.bind_some, hrun]
  rfl

/-- A string that `font_draw` gets through has been scanned to its end, and its glyphs are legible.
-/
theorem legible_of_fontDrawOn (ha : a.Valid size) {fb : S} {r : S × ℤ}
    (hr : fontDrawOn put24 put32 env fb a str = some r) :
    ∃ glyphs, fontScan env size str.length str = some glyphs ∧
      Legible a.lcdW a.lcdH size.px (a.xOft, a.yOft) glyphs := by
  rw [fontDrawOn_eq ha.drawn ha.depth] at hr
  obtain ⟨glyphs, hscan, hrest⟩ := Option.bind_eq_some_iff.mp hr
  obtain ⟨r', hdraw, -⟩ := Option.map_eq_some_iff.mp hrest
  exact ⟨glyphs, hscan, legible_of_foldlM hdraw⟩

end Strings

end MaixSpeech.Font
