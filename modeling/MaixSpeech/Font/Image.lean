import Mathlib.Data.Nat.Bitwise
import MaixSpeech.Font.Cells

/-!
# The image of a text

What a text looks like on the abstract canvas: in every cell the pixels of its glyph, and nothing
anywhere else. Within a cell each pixel is painted in one turn of the two loops, and the cells of a
text do not meet, so no pixel is painted twice (`foldlM_drawCell_image`).
-/

namespace MaixSpeech.Font

open Common

/-! ## Pixels -/

/-- The colour of a pixel whose bit is `bit`, `none` when it keeps its old one. -/
def refColor (cColor bgColor : UInt32) (bit : Bool) : Option Rgb :=
  if bit then some (Rgb.ofColor cColor)
  else if bgColor ≠ fontNoBg then some (Rgb.ofColor bgColor)
  else none

/-- The colour of the pixel in row `y` and column `x` of a glyph. -/
def Glyph.pixel (g : Glyph) (cColor bgColor : UInt32) (y x : ℕ) : Option Rgb :=
  (g.bits (y * (g.width / 8 + if g.width % 8 ≠ 0 then 1 else 0) + x / 8)).bind fun data =>
    refColor cColor bgColor (data.toNat.testBit (x % 8))

/-- The number of the pixel in row `dy` and column `dx` of a cell. -/
def Cell.pixel (lcdW : ℤ) (c : Cell) (dy dx : ℕ) : ℤ := dx + c.x + (dy + c.y) * lcdW

/-- The canvas with a colour painted, or as it was. -/
def stamp (cv : Canvas) (i : ℤ) (o : Option Rgb) : Canvas :=
  o.elim cv fun c => Function.update cv i (some c)

theorem stamp_self (cv : Canvas) (i : ℤ) (o : Option Rgb) : stamp cv i o i = o.or (cv i) := by
  cases o with
  | none => rfl
  | some c => exact Function.update_self ..

theorem stamp_of_ne {i j : ℤ} (h : j ≠ i) (cv : Canvas) (o : Option Rgb) :
    stamp cv i o j = cv j := by
  cases o with
  | none => rfl
  | some c => exact Function.update_of_ne h ..

/-- The mask `1 << k` picks bit `k`. -/
theorem and_shift_ne_zero_iff (data : UInt8) {k : ℕ} (hk : k < 8) :
    data &&& (1 <<< UInt8.ofNat k) ≠ 0 ↔ data.toNat.testBit k = true := by
  have hmask : ((1 : UInt8) <<< UInt8.ofNat k).toNat = 2 ^ k := by
    have hall : ∀ k < 8, ((1 : UInt8) <<< UInt8.ofNat k).toNat = 2 ^ k := by decide
    exact hall k hk
  rw [ne_eq, ← UInt8.toNat_inj, UInt8.toNat_and, hmask, Nat.and_two_pow]
  cases data.toNat.testBit k <;> simp

section Painting

variable {lcdW lcdH : ℤ} {h : ℕ} {cColor bgColor : UInt32} {cv : Canvas} {g : Glyph} {c : Cell}

/-- On the canvas, a pixel of a glyph is a stamp of its colour. -/
theorem fontPixel_paint {dy dx : ℕ} (hread : g.Readable h) (hdy : dy < h) (hdx : dx < g.width)
    (cv : Canvas) (lcdW : ℤ) (c : Cell) :
    fontPixel paint cv lcdW c.x c.y g cColor bgColor dy dx =
      some (stamp cv (c.pixel lcdW dy dx) (g.pixel cColor bgColor dy dx)) := by
  obtain ⟨data, hdata⟩ := hread dy hdy dx hdx
  have hbit := and_shift_ne_zero_iff data (Nat.mod_lt dx (show 0 < 8 by decide))
  simp only [fontPixel, Glyph.pixel, hdata, Option.bind_some, hbit, refColor]
  split_ifs <;> rfl

/-- Pixels of a screen of this width have the same number only when they are the same. -/
theorem pixel_inj {col col' row row' : ℤ} (hcol : 0 ≤ col ∧ col < lcdW)
    (hcol' : 0 ≤ col' ∧ col' < lcdW) (heq : col + row * lcdW = col' + row' * lcdW) :
    col = col' ∧ row = row' := by
  have hW : lcdW ≠ 0 := by omega
  have hdiv := congrArg (· / lcdW) heq
  simp only [Int.add_mul_ediv_right _ _ hW, Int.ediv_eq_zero_of_lt hcol.1 hcol.2,
    Int.ediv_eq_zero_of_lt hcol'.1 hcol'.2, Int.zero_add] at hdiv
  subst hdiv
  exact ⟨by omega, rfl⟩

/-- **A cell on the canvas**: its pixels get the colours of the glyph, the others keep theirs. -/
theorem drawCell_image (hread : g.Readable h) (hx : 0 ≤ c.x) (hw : c.x + g.width ≤ lcdW)
    (cv : Canvas) :
    ∃ cv', drawCell paint lcdW h cColor bgColor cv (g, c) = some cv' ∧
      (∀ dy < h, ∀ dx < g.width, cv' (c.pixel lcdW dy dx) =
        (g.pixel cColor bgColor dy dx).or (cv (c.pixel lcdW dy dx))) ∧
      ∀ i, (∀ dy < h, ∀ dx < g.width, i ≠ c.pixel lcdW dy dx) → cv' i = cv i := by
  have hloop : ∃ cv', drawCell paint lcdW h cColor bgColor cv (g, c) = some cv' ∧
      (∀ dy < h, ∀ dx < g.width,
        (dy * g.width + dx < h * g.width → cv' (c.pixel lcdW dy dx) =
          (g.pixel cColor bgColor dy dx).or (cv (c.pixel lcdW dy dx))) ∧
        (h * g.width ≤ dy * g.width + dx → cv' (c.pixel lcdW dy dx) = cv (c.pixel lcdW dy dx))) ∧
      ∀ i, (∀ dy < h, ∀ dx < g.width, i ≠ c.pixel lcdW dy dx) → cv' i = cv i := by
    simp only [drawCell]
    apply forLoop_nested_spec fun (m : ℕ) (s : Canvas) =>
      (∀ dy < h, ∀ dx < g.width,
        (dy * g.width + dx < m → s (c.pixel lcdW dy dx) =
          (g.pixel cColor bgColor dy dx).or (cv (c.pixel lcdW dy dx))) ∧
        (m ≤ dy * g.width + dx → s (c.pixel lcdW dy dx) = cv (c.pixel lcdW dy dx))) ∧
      ∀ i, (∀ dy < h, ∀ dx < g.width, i ≠ c.pixel lcdW dy dx) → s i = cv i
    · exact ⟨fun dy _ dx _ => ⟨fun hlt => absurd hlt (Nat.not_lt_zero _), fun _ => rfl⟩,
        fun _ _ => rfl⟩
    · rintro y hy x hx' s ⟨hin, hout⟩
      refine ⟨_, fontPixel_paint hread hy hx' s lcdW c, ?_, ?_⟩
      · intro dy hdy dx hdx
        by_cases hturn : dy * g.width + dx = y * g.width + x
        · -- the turn of this pixel
          obtain ⟨rfl, rfl⟩ := eq_of_rowMajor hdx hx' hturn
          refine ⟨fun _ => ?_, fun hge => absurd hge (by omega)⟩
          rw [stamp_self, (hin _ hdy _ hdx).2 le_rfl]
        · have hne : c.pixel lcdW dy dx ≠ c.pixel lcdW y x := by
            intro heq
            obtain ⟨hcol, hrow⟩ := pixel_inj (by omega) (by omega) heq
            obtain rfl : dy = y := by omega
            omega
          rw [stamp_of_ne hne]
          exact ⟨fun hlt => (hin dy hdy dx hdx).1 (by omega),
            fun hge => (hin dy hdy dx hdx).2 (by omega)⟩
      · intro i hi
        rw [stamp_of_ne (hi _ hy _ hx'), hout i hi]
  obtain ⟨cv', hrun, hin, hout⟩ := hloop
  exact ⟨cv', hrun, fun dy hdy dx hdx => (hin dy hdy dx hdx).1 (rowMajor_lt hdy hdx), hout⟩

/-- The canvas shows the glyphs in their cells, and `cv` everywhere else. -/
structure Shows (lcdW : ℤ) (h : ℕ) (cColor bgColor : UInt32) (cv : Canvas)
    (gcs : List (Glyph × Cell)) (cv' : Canvas) : Prop where
  inside : ∀ gc ∈ gcs, ∀ dy < h, ∀ dx < gc.1.width, cv' (gc.2.pixel lcdW dy dx) =
    (gc.1.pixel cColor bgColor dy dx).or (cv (gc.2.pixel lcdW dy dx))
  outside : ∀ i, (∀ gc ∈ gcs, ∀ dy < h, ∀ dx < gc.1.width, i ≠ gc.2.pixel lcdW dy dx) → cv' i = cv i

/-- A glyph in a cell of its own width, on the screen. -/
def Fits (lcdW lcdH : ℤ) (h : ℕ) (gc : Glyph × Cell) : Prop :=
  gc.1.Readable h ∧ gc.2.width = gc.1.width ∧ gc.2.Inside lcdW lcdH h

/-- Pixels of different cells are different. -/
theorem pixel_ne_of_before {gc gc' : Glyph × Cell} (hfit : Fits lcdW lcdH h gc)
    (hfit' : Fits lcdW lcdH h gc') (hbefore : gc.2.Before h gc'.2) {dy dx dy' dx' : ℕ}
    (hdy : dy < h) (hdx : dx < gc.1.width) (hdy' : dy' < h) (hdx' : dx' < gc'.1.width) :
    gc.2.pixel lcdW dy dx ≠ gc'.2.pixel lcdW dy' dx' := by
  obtain ⟨-, hwidth, hx, hxw, -⟩ := hfit
  obtain ⟨-, hwidth', hx', hxw', -⟩ := hfit'
  intro heq
  obtain ⟨hcol, hrow⟩ := pixel_inj (by omega) (by omega) heq
  refine hbefore.disjoint (dx + gc.2.x) (dy + gc.2.y) ⟨⟨?_, ?_, ?_, ?_⟩, ?_, ?_, ?_, ?_⟩ <;> omega

/-- **Cells on the canvas**: cells in reading order show their glyphs. -/
theorem foldlM_drawCell_image {gcs : List (Glyph × Cell)}
    (hfit : ∀ gc ∈ gcs, Fits lcdW lcdH h gc) (horder : gcs.Pairwise fun a b => a.2.Before h b.2)
    (cv : Canvas) :
    ∃ cv', gcs.foldlM (drawCell paint lcdW h cColor bgColor) cv = some cv' ∧
      Shows lcdW h cColor bgColor cv gcs cv' := by
  induction gcs generalizing cv with
  | nil => exact ⟨cv, rfl, fun gc hgc => absurd hgc List.not_mem_nil, fun _ _ => rfl⟩
  | cons gc gcs ih =>
    obtain ⟨hhead, hrest⟩ := List.pairwise_cons.mp horder
    have hfitgc := hfit gc List.mem_cons_self
    have hfitgcs := fun gc' hgc' => hfit gc' (List.mem_cons_of_mem gc hgc')
    obtain ⟨hread, hwidth, hx, hxw, -⟩ := hfitgc
    rw [hwidth] at hxw
    obtain ⟨cv₁, hdraw, hin₁, hout₁⟩ := drawCell_image hread hx hxw cv
    obtain ⟨cv', hrun, hin, hout⟩ := ih hfitgcs hrest cv₁
    refine ⟨cv', by rw [List.foldlM_cons, hdraw]; exact hrun, ?_, ?_⟩
    · intro gc' hgc' dy hdy dx hdx
      rcases List.mem_cons.mp hgc' with rfl | hgc'
      · -- the cells behind leave this one alone
        rw [hout _ fun d hd ey hey ex hex => pixel_ne_of_before (hfit _ List.mem_cons_self)
          (hfitgcs d hd) (hhead d hd) hdy hdx hey hex]
        exact hin₁ dy hdy dx hdx
      · rw [hin gc' hgc' dy hdy dx hdx, hout₁ _ fun ey hey ex hex =>
          (pixel_ne_of_before (hfit _ List.mem_cons_self) (hfitgcs gc' hgc') (hhead gc' hgc') hey
            hex hdy hdx).symm]
    · intro i hi
      rw [hout i fun d hd => hi d (List.mem_cons_of_mem gc hd), hout₁ i (hi gc List.mem_cons_self)]

end Painting

/-! ## A text -/

section Text

variable {env : FontEnv} {a : DrawArgs} {size : FontSize} {text : List Character}

/-- A list zipped with a list that maps to a prefix of its image agrees with it. -/
theorem zip_agree {α β γ : Type*} {f : α → γ} {f' : β → γ} {l : List α} {l' : List β}
    (h : l'.map f' <+: l.map f) : ∀ p ∈ l.zip l', f' p.2 = f p.1 := by
  induction l generalizing l' with
  | nil => exact fun p hp => absurd hp (by simp)
  | cons x l ih =>
    cases l' with
    | nil => exact fun p hp => absurd hp (by simp)
    | cons y l' =>
      obtain ⟨hxy, hrest⟩ := List.cons_prefix_cons.mp h
      rw [List.zip_cons_cons]
      exact List.forall_mem_cons.mpr ⟨hxy, ih hrest⟩

theorem pairwise_zip_right {α β : Type*} {R : β → β → Prop} {l' : List β} (h : l'.Pairwise R)
    (l : List α) : (l.zip l').Pairwise fun a b => R a.2 b.2 := by
  induction l generalizing l' with
  | nil => rw [List.zip_nil_left]; exact .nil
  | cons x l ih =>
    cases h with
    | nil => rw [List.zip_nil_right]; exact .nil
    | @cons y l' hy hl' =>
      rw [List.zip_cons_cons]
      exact .cons (fun p hp => hy p.2 (List.of_mem_zip hp).2) (ih hl')

theorem drawnCells_fit (ha : a.Valid size) (htext : TextAvailable env size text) :
    ∀ gc ∈ drawnCells env a size text, Fits a.lcdW a.lcdH size.px gc := by
  have hprefix : (textCells a size text).map Cell.width <+:
      (text.map (Character.glyph env size)).map Glyph.width := by
    rw [map_glyph_width]
    exact cells_width_prefix
  intro gc hgc
  obtain ⟨hg, hc⟩ := List.of_mem_zip (a := gc.1) (b := gc.2) hgc
  exact ⟨htext.readable ha.drawn gc.1 hg, zip_agree hprefix gc hgc,
    cells_inside (width_le ha text) ha.x ha.y gc.2 hc⟩

/-- **What is painted for a text**: the glyphs of its characters in their cells, and nothing
else. -/
theorem fontPaint_image (ha : a.Valid size) (htext : TextAvailable env size text) :
    ∃ cv, fontPaint env a (textBytes text ++ [0]) = some (cv, textBottom a size text) ∧
      Shows a.lcdW size.px a.cColor a.bgColor (fun _ => none) (drawnCells env a size text) cv := by
  have hput : putAt paint paint a.bpp = paint := ite_self paint
  obtain ⟨cv, hrun, hshows⟩ := foldlM_drawCell_image (drawnCells_fit ha htext)
    (pairwise_zip_right cells_pairwise _) (fun _ => none)
  refine ⟨cv, ?_, hshows⟩
  rw [fontPaint, fontDrawOn_text ha htext, hput, hrun]
  rfl

end Text

end MaixSpeech.Font
