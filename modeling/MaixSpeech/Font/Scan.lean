import MaixSpeech.Font.Text

/-!
# The scan of a string

Reference: `components/utils/src/font.c`.

The loop of `font_draw` ends only when `p` lands on the NUL. A turn moves `p` over an ASCII byte or
over the two bytes of a code with a glyph, but over four bytes where there is no glyph, and these
may be the NUL and what lies behind it.

`fontScan_cases` says what one turn does on a string. From it, the scan stays inside a string
exactly when the string divides into the pieces the turns move over (`staysInside_iff`), and it
handles each character of a text once exactly when every two-byte one has a glyph
(`handlesEach_iff`): a turn without a glyph uses up more bytes than its character has, so there are
too few turns left for the other characters (`fontScan_weight`).
-/

namespace MaixSpeech.Font

open Common

variable {env : FontEnv} {size : FontSize} {fuel : ℕ} {b ch cl : UInt8} {s : List UInt8}
  {glyphs : List Glyph}

/-! ## One turn -/

theorem fontScan_unknown (hch : 128 ≤ ch) (h : ¬ HasGlyph env.fonts size ch cl)
    (rest : List UInt8) :
    fontScan env size (fuel + 1) (ch :: cl :: rest) =
      (fontScan env size fuel (rest.drop 2)).map (unknownGlyph size :: ·) := by
  rw [fontScan, if_neg (lead_ne_zero hch), if_neg (UInt8.not_lt.mpr hch), fontGetGbk_cons,
    if_neg h]
  rfl

/-- **One turn of the scan of a string**, when the whole scan gets through: it moves over an ASCII
byte, over a code with a glyph, or over four bytes of the string. -/
theorem fontScan_cases (hb : b ≠ 0)
    (hscan : fontScan env size (fuel + 1) (b :: s ++ [0]) = some glyphs) :
    ∃ g gs, glyphs = g :: gs ∧
      ((b < 128 ∧ g = asciiGlyph env size b ∧ fontScan env size fuel (s ++ [0]) = some gs) ∨
      (∃ cl t, s = cl :: t ∧ HasGlyph env.fonts size b cl ∧
        g = gbkGlyph env size (env.fonts.fontBuf size.idx + gbkOffset size b cl) ∧
        fontScan env size fuel (t ++ [0]) = some gs) ∨
      (128 ≤ b ∧ ∃ b₁ b₂ b₃ t, s = b₁ :: b₂ :: b₃ :: t ∧ ¬ HasGlyph env.fonts size b b₁ ∧
        g = unknownGlyph size ∧ fontScan env size fuel (t ++ [0]) = some gs)) := by
  rw [List.cons_append] at hscan
  by_cases hlow : b < 128
  · rw [fontScan_ascii hb hlow] at hscan
    obtain ⟨gs, hgs, rfl⟩ := Option.map_eq_some_iff.mp hscan
    exact ⟨_, gs, rfl, Or.inl ⟨hlow, rfl, hgs⟩⟩
  have hhigh : 128 ≤ b := UInt8.not_lt.mp hlow
  -- the scan of nothing at all reads behind the NUL
  have hnone : ∀ gs, fontScan env size fuel [] ≠ some gs := by
    intro gs h
    cases fuel <;> cases h
  cases s with
  | nil =>
    have hno : ¬ HasGlyph env.fonts size b 0 := fun h => h.high.2.2 rfl
    rw [List.nil_append, fontScan_unknown hhigh hno, List.drop_nil] at hscan
    obtain ⟨gs, hgs, -⟩ := Option.map_eq_some_iff.mp hscan
    exact absurd hgs (hnone gs)
  | cons cl t =>
    rw [List.cons_append] at hscan
    by_cases hglyph : HasGlyph env.fonts size b cl
    · rw [fontScan_code hglyph] at hscan
      obtain ⟨gs, hgs, rfl⟩ := Option.map_eq_some_iff.mp hscan
      exact ⟨_, gs, rfl, Or.inr (Or.inl ⟨cl, t, rfl, hglyph, rfl, hgs⟩)⟩
    · rw [fontScan_unknown hhigh hglyph] at hscan
      obtain ⟨gs, hgs, rfl⟩ := Option.map_eq_some_iff.mp hscan
      match t with
      | [] => exact absurd hgs (hnone gs)
      | [b₂] => exact absurd hgs (hnone gs)
      | b₂ :: b₃ :: t =>
        exact ⟨_, gs, rfl, Or.inr (Or.inr ⟨hhigh, cl, b₂, b₃, t, rfl, hglyph, rfl, hgs⟩)⟩

/-! ## Staying inside the string -/

/-- The scan of the string `s` reads only its bytes and its NUL, and ends after at most as many
turns as it has bytes. -/
def StaysInside (env : FontEnv) (size : FontSize) (s : List UInt8) : Prop :=
  ∃ glyphs, fontScan env size (s.length + 1) (s ++ [0]) = some glyphs ∧ glyphs.length ≤ s.length

/-- The string divides into ASCII bytes, two-byte codes with a glyph, and groups of four bytes whose
first two are a code without one. -/
inductive Divides (fonts : Fonts) (size : FontSize) : List UInt8 → Prop where
  | nil : Divides fonts size []
  | ascii {b : UInt8} {s : List UInt8} (hlow : b < 128) :
      Divides fonts size s → Divides fonts size (b :: s)
  | code {ch cl : UInt8} {s : List UInt8} (hglyph : HasGlyph fonts size ch cl) :
      Divides fonts size s → Divides fonts size (ch :: cl :: s)
  | unknown {ch b₁ b₂ b₃ : UInt8} {s : List UInt8} (hhigh : 128 ≤ ch)
      (hglyph : ¬ HasGlyph fonts size ch b₁) :
      Divides fonts size s → Divides fonts size (ch :: b₁ :: b₂ :: b₃ :: s)

/-- The scan of a string that divides gets through, piece by piece. -/
theorem Divides.fontScan (h : Divides env.fonts size s) (h0 : 0 ∉ s) (hfuel : s.length < fuel) :
    ∃ glyphs, fontScan env size fuel (s ++ [0]) = some glyphs ∧ glyphs.length ≤ s.length := by
  induction h generalizing fuel with
  | nil =>
    obtain ⟨fuel, rfl⟩ := Nat.exists_eq_add_one_of_ne_zero (Nat.ne_zero_of_lt hfuel)
    exact ⟨[], rfl, le_rfl⟩
  | @ascii b s hlow _ ih =>
    obtain ⟨fuel, rfl⟩ := Nat.exists_eq_add_one_of_ne_zero (Nat.ne_zero_of_lt hfuel)
    simp only [List.length_cons, List.mem_cons, not_or] at hfuel h0 ⊢
    obtain ⟨gs, hgs, hlen⟩ := ih h0.2 (Nat.lt_of_succ_lt_succ hfuel)
    refine ⟨asciiGlyph env size b :: gs, ?_, Nat.succ_le_succ hlen⟩
    rw [List.cons_append, fontScan_ascii (Ne.symm h0.1) hlow, hgs]
    rfl
  | @code ch cl s hglyph _ ih =>
    obtain ⟨fuel, rfl⟩ := Nat.exists_eq_add_one_of_ne_zero (Nat.ne_zero_of_lt hfuel)
    simp only [List.length_cons, List.mem_cons, not_or] at hfuel h0 ⊢
    obtain ⟨gs, hgs, hlen⟩ := ih h0.2.2 (show s.length < fuel by omega)
    refine ⟨gbkGlyph env size (env.fonts.fontBuf size.idx + gbkOffset size ch cl) :: gs, ?_, ?_⟩
    · rw [List.cons_append, List.cons_append, fontScan_code hglyph, hgs]
      rfl
    · rw [List.length_cons]
      omega
  | @unknown ch b₁ b₂ b₃ s hhigh hglyph _ ih =>
    obtain ⟨fuel, rfl⟩ := Nat.exists_eq_add_one_of_ne_zero (Nat.ne_zero_of_lt hfuel)
    simp only [List.length_cons, List.mem_cons, not_or] at hfuel h0 ⊢
    obtain ⟨gs, hgs, hlen⟩ := ih h0.2.2.2.2 (show s.length < fuel by omega)
    refine ⟨unknownGlyph size :: gs, ?_, ?_⟩
    · simp only [List.cons_append]
      rw [fontScan_unknown hhigh hglyph, List.drop_succ_cons, List.drop_succ_cons, List.drop_zero,
        hgs]
      rfl
    · rw [List.length_cons]
      omega

/-- A string whose scan gets through divides. -/
theorem divides_of_fontScan (h0 : 0 ∉ s)
    (hscan : fontScan env size fuel (s ++ [0]) = some glyphs) : Divides env.fonts size s := by
  induction fuel generalizing s glyphs with
  | zero => cases hscan
  | succ fuel ih =>
    cases s with
    | nil => exact .nil
    | cons b s =>
      simp only [List.mem_cons, not_or] at h0
      obtain ⟨g, gs, -, hturn⟩ := fontScan_cases (Ne.symm h0.1) hscan
      rcases hturn with ⟨hlow, -, hgs⟩ | ⟨cl, t, rfl, hglyph, -, hgs⟩ |
        ⟨hhigh, b₁, b₂, b₃, t, rfl, hglyph, -, hgs⟩
      · exact .ascii hlow (ih h0.2 hgs)
      · exact .code hglyph (ih (by simp_all) hgs)
      · exact .unknown hhigh hglyph (ih (by simp_all) hgs)

/-- **The scan stays inside a string exactly when the string divides**, for any bytes and any state
of the registry. -/
theorem staysInside_iff (env : FontEnv) (size : FontSize) {s : List UInt8} (h0 : 0 ∉ s) :
    StaysInside env size s ↔ Divides env.fonts size s := by
  constructor
  · rintro ⟨glyphs, hscan, -⟩
    exact divides_of_fontScan h0 hscan
  · exact fun h => h.fontScan h0 (Nat.lt_succ_self _)

/-- A 7, a code with a glyph, and a code without one with two more 7s. -/
theorem staysInside_iff_twoRecords :
    StaysInside (FontEnv.withFile FontEnv.plain.ascii size16 twoRecords) size16
      [0x37, 0xa1, 0xa1, 0xaa, 0xa1, 0x37, 0x37] :=
  (staysInside_iff _ _ (by decide)).mpr
    (.ascii (by decide) (.code (by decide) (.unknown (by decide) (by decide) .nil)))

/-- Without a font file, the scan of a single two-byte character jumps over the NUL. -/
theorem not_staysInside_two_bytes : ¬ StaysInside FontEnv.plain size16 [0xb0, 0xa1] := by
  rintro ⟨glyphs, hscan, -⟩
  cases hscan

/-! ## Handling each character once -/

/-- Every pixel of the cell of a character without a glyph gets the text's colour. -/
theorem fontPixel_unknownGlyph {S : Type*} (put : S → ℤ → Rgb → Option S) (fb : S) (lcdW x y : ℤ)
    (size : FontSize) (cColor bgColor : UInt32) {dy dx : ℕ} (hdy : dy < size.px)
    (hdx : dx < size.px) :
    fontPixel put fb lcdW x y (unknownGlyph size) cColor bgColor dy dx =
      put fb (dx + x + (dy + y) * lcdW) (Rgb.ofColor cColor) := by
  obtain ⟨k, hk⟩ := size.dvd
  have hmod : size.px % 8 = 0 := by omega
  have hcsize : size.px * size.px / 8 = size.px * k := by
    rw [hk, Nat.mul_assoc, Nat.mul_div_cancel_left _ (by decide), ← hk, Nat.mul_comm]
  have hrow : dy * k + dx / 8 < size.px * k := by
    have hle := Nat.mul_le_mul_right k (Nat.succ_le_of_lt hdy)
    rw [Nat.succ_mul] at hle
    omega
  have hbits : (unknownGlyph size).bits (dy * (size.px / 8 + if size.px % 8 ≠ 0 then 1 else 0) +
      dx / 8) = some 0xff := by
    refine if_pos ?_
    rw [if_neg (not_not.mpr hmod), Nat.add_zero, hcsize, show size.px / 8 = k by omega]
    exact hrow
  have hset : ∀ i < 8, (0xff : UInt8) &&& (1 <<< UInt8.ofNat i) ≠ 0 := by decide
  simp only [fontPixel]
  rw [show (unknownGlyph size).width = size.px from rfl, hbits, Option.bind_some,
    if_pos (hset _ (Nat.mod_lt _ (by decide)))]

/-- The glyph to be drawn for a character, a solid full-width cell when the font has none. -/
def Character.drawnGlyph (env : FontEnv) (size : FontSize) : Character → Glyph
  | .ascii b .. => asciiGlyph env size b
  | .gbk ch cl .. =>
    if HasGlyph env.fonts size ch cl then
      gbkGlyph env size (env.fonts.fontBuf size.idx + gbkOffset size ch cl)
    else unknownGlyph size

/-- `font_draw` handles exactly the characters of the text, each once and in order: the scan finds
their glyphs, the glyphs are drawn one behind the other, and the cursor is moved by their widths
alone. -/
structure HandlesEach (env : FontEnv) (size : FontSize) (text : List Character) : Prop where
  scan : fontScan env size ((textBytes text).length + 1) (textBytes text ++ [0]) =
    some (text.map (Character.drawnGlyph env size))
  draws : ∀ (n : ℕ) (fb : Arr UInt8 n) (a : DrawArgs), drawnSize a.charSize = some size →
    (a.bpp = 24 ∨ a.bpp = 32 ∨ a.bpp = 16) →
      fontDraw env fb a (textBytes text ++ [0]) =
        ((text.map (Character.drawnGlyph env size)).foldlM
          (fontCharDraw (putAt putRgb putArgb a.bpp) a.lcdW a.lcdH size.px a.cColor a.bgColor)
          (fb, a.xOft, a.yOft)).map fun r : Arr UInt8 n × ℤ × ℤ => (r.1, r.2.2 + size.px)
  cursor : ∀ pre, pre <+: text → ∀ (n : ℕ) (fb : Arr UInt8 n) (a : DrawArgs)
      (r : Arr UInt8 n × ℤ × ℤ),
    (pre.map (Character.drawnGlyph env size)).foldlM
        (fontCharDraw (putAt putRgb putArgb a.bpp) a.lcdW a.lcdH size.px a.cColor a.bgColor)
        (fb, a.xOft, a.yOft) = some r →
      r.2 = Font.cursor a.lcdW a.lcdH size.px (a.xOft, a.yOft) (pre.map (Character.width size))
  solid : ∀ c ∈ text, ¬ c.Has env.fonts size → c.width size = size.px ∧
    ∀ (n : ℕ) (put : Arr UInt8 n → ℤ → Rgb → Option (Arr UInt8 n)) (fb : Arr UInt8 n) (a : DrawArgs)
      (x y : ℤ), ∀ dy < size.px, ∀ dx < size.px,
        fontPixel put fb a.lcdW x y (c.drawnGlyph env size) a.cColor a.bgColor dy dx =
          put fb (dx + x + (dy + y) * a.lcdW) (Rgb.ofColor a.cColor)

section Text

variable {text : List Character}

theorem Character.drawnGlyph_width (env : FontEnv) (size : FontSize) (c : Character) :
    (c.drawnGlyph env size).width = c.width size := by
  cases c with
  | ascii b nul low => rfl
  | gbk ch cl lead trail =>
    rw [drawnGlyph]
    split_ifs <;> rfl

/-- A character without a glyph is drawn as a solid full-width cell. -/
theorem Character.solid_of_not_has {c : Character} (h : ¬ c.Has env.fonts size) :
    c.width size = size.px ∧ c.drawnGlyph env size = unknownGlyph size := by
  cases c with
  | ascii b nul low => exact absurd trivial h
  | gbk ch cl lead trail => exact ⟨rfl, if_neg h⟩

/-- Drawing glyphs moves the cursor by their widths. -/
theorem foldlM_fontCharDraw_cursor {S : Type*} {put : S → ℤ → Rgb → Option S} {lcdW lcdH : ℤ}
    {h : ℕ} {cColor bgColor : UInt32} {fb : S} {p : ℤ × ℤ} {r : S × ℤ × ℤ}
    (hr : glyphs.foldlM (fontCharDraw put lcdW lcdH h cColor bgColor) (fb, p) = some r) :
    r.2 = Font.cursor lcdW lcdH h p (glyphs.map Glyph.width) := by
  induction glyphs generalizing fb p with
  | nil =>
    obtain rfl := Option.some.inj hr
    rfl
  | cons g glyphs ih =>
    rw [List.foldlM_cons] at hr
    obtain ⟨⟨fb₁, p₁⟩, hdraw, hrest⟩ := Option.bind_eq_some_iff.mp hr
    obtain rfl : p₁ = advance lcdW lcdH h p g.width := (readable_of_fontCharDraw hdraw).2
    exact ih hrest

theorem Character.drawnGlyph_of_has {c : Character} (h : c.Has env.fonts size) :
    c.drawnGlyph env size = c.glyph env size := by
  cases c with
  | ascii b nul low => rfl
  | gbk ch cl lead trail => exact if_pos h

/-- An ASCII byte weighs as much as the two bytes of a code. -/
def weight (s : List UInt8) : ℕ := (s.map fun b => if b < 128 then 2 else 1).sum

theorem weight_cons (b : UInt8) (s : List UInt8) :
    weight (b :: s) = (if b < 128 then 2 else 1) + weight s := rfl

theorem weight_textBytes (text : List Character) : weight (textBytes text) = 2 * text.length := by
  induction text with
  | nil => rfl
  | cons c text ih =>
    cases c with
    | ascii b nul low =>
      rw [textBytes_cons, Character.bytes, List.singleton_append, weight_cons, if_pos low, ih,
        List.length_cons]
      omega
    | gbk ch cl lead trail =>
      have hch : ¬ ch < 128 := UInt8.not_lt.mpr (UInt8.le_trans (by decide) lead)
      have hcl : ¬ cl < 128 := UInt8.not_lt.mpr (UInt8.le_trans (by decide) trail)
      rw [textBytes_cons, Character.bytes, List.cons_append, List.singleton_append, weight_cons,
        weight_cons, if_neg hch, if_neg hcl, ih, List.length_cons]
      omega

/-- Every turn of the scan of a string uses up the weight of a character. -/
theorem fontScan_weight (h0 : 0 ∉ s) (hscan : fontScan env size fuel (s ++ [0]) = some glyphs) :
    2 * glyphs.length ≤ weight s := by
  induction fuel generalizing s glyphs with
  | zero => cases hscan
  | succ fuel ih =>
    cases s with
    | nil =>
      obtain rfl := Option.some.inj hscan
      exact Nat.zero_le _
    | cons b s =>
      simp only [List.mem_cons, not_or] at h0
      obtain ⟨g, gs, rfl, hturn⟩ := fontScan_cases (Ne.symm h0.1) hscan
      have hone : ∀ c : UInt8, 1 ≤ if c < 128 then 2 else 1 := by
        intro c
        split_ifs <;> decide
      rw [List.length_cons, weight_cons]
      rcases hturn with ⟨hlow, -, hgs⟩ | ⟨cl, t, rfl, hglyph, -, hgs⟩ |
        ⟨hhigh, b₁, b₂, b₃, t, rfl, hglyph, -, hgs⟩
      · have hrest := ih h0.2 hgs
        rw [if_pos hlow]
        omega
      · have hrest := ih (fun h => h0.2 (List.mem_cons_of_mem _ h)) hgs
        have hb := hone b
        have hcl := hone cl
        rw [weight_cons]
        omega
      · have hrest := ih (fun h => h0.2 (by simp [h])) hgs
        have hb := hone b
        have hb₁ := hone b₁
        have hb₂ := hone b₂
        have hb₃ := hone b₃
        rw [weight_cons, weight_cons, weight_cons]
        omega

/-- If the scan of a text makes as many turns as it has characters, they all have glyphs. -/
theorem has_of_fontScan (hscan : fontScan env size fuel (textBytes text ++ [0]) = some glyphs)
    (hlen : glyphs.length = text.length) : ∀ c ∈ text, c.Has env.fonts size := by
  induction text generalizing fuel glyphs with
  | nil => exact fun c hc => absurd hc List.not_mem_nil
  | cons c text ih =>
    cases fuel with
    | zero => cases hscan
    | succ fuel =>
      have h0 := nul_notMem_textBytes text
      have hweight := weight_textBytes text
      cases c with
      | ascii b nul low =>
        rw [textBytes_cons, Character.bytes, List.singleton_append, List.cons_append,
          fontScan_ascii nul low] at hscan
        obtain ⟨gs, hgs, rfl⟩ := Option.map_eq_some_iff.mp hscan
        exact List.forall_mem_cons.mpr ⟨trivial, ih hgs (Nat.succ.inj hlen)⟩
      | gbk ch cl lead trail =>
        have hch : 128 ≤ ch := UInt8.le_trans (by decide) lead
        rw [textBytes_cons, Character.bytes, List.cons_append, List.singleton_append] at hscan
        obtain ⟨g, gs, rfl, hturn⟩ := fontScan_cases (lead_ne_zero hch) hscan
        rw [List.length_cons, List.length_cons] at hlen
        rcases hturn with ⟨hlow, -, -⟩ | ⟨cl', t, ht, hglyph, -, hgs⟩ |
          ⟨-, b₁, b₂, b₃, t, ht, -, -, hgs⟩
        · exact absurd hlow (UInt8.not_lt.mpr hch)
        · obtain ⟨rfl, rfl⟩ := List.cons.inj ht
          exact List.forall_mem_cons.mpr ⟨hglyph, ih hgs (Nat.succ.inj hlen)⟩
        · -- the two bytes behind the character are missing for the turns to come
          obtain ⟨-, hrest⟩ := List.cons.inj ht
          rw [hrest] at hweight h0
          have hgs' := fontScan_weight (fun h => h0 (by simp [h])) hgs
          rw [weight_cons, weight_cons] at hweight
          split_ifs at hweight <;> omega

/-- **Each character is handled once exactly when every two-byte one has a glyph**, for every text,
font size and state of the registry. -/
theorem handlesEach_iff (env : FontEnv) (size : FontSize) (text : List Character) :
    HandlesEach env size text ↔ ∀ c ∈ text, c.Has env.fonts size := by
  constructor
  · exact fun h => has_of_fontScan h.scan (List.length_map ..)
  · intro h
    have hglyphs : text.map (Character.drawnGlyph env size) =
        text.map (Character.glyph env size) :=
      List.map_congr_left fun c hc => Character.drawnGlyph_of_has (h c hc)
    have hscan : fontScan env size ((textBytes text).length + 1) (textBytes text ++ [0]) =
        some (text.map (Character.drawnGlyph env size)) := by
      rw [hglyphs]
      exact fontScan_of_has h [] (Nat.lt_succ_self _)
    refine ⟨hscan, ?_, ?_, ?_⟩
    · intro n fb a hsize hdepth
      rw [fontDraw, fontDrawOn_eq hsize hdepth, List.length_append, List.length_singleton, hscan]
      rfl
    · intro pre _ n fb a r hr
      rw [foldlM_fontCharDraw_cursor hr, List.map_map]
      congr 1
      exact List.map_congr_left fun c _ => c.drawnGlyph_width env size
    · intro c _ hno
      obtain ⟨hwidth, hglyph⟩ := Character.solid_of_not_has hno
      refine ⟨hwidth, fun n put fb a x y dy hdy dx hdx => ?_⟩
      rw [hglyph, fontPixel_unknownGlyph put fb a.lcdW x y size a.cColor a.bgColor hdy hdx]

/-- Without a font file, the character behind a two-byte one is lost. -/
theorem not_handlesEach_without_font :
    ¬ HandlesEach FontEnv.plain size16
      [.gbk 0xb0 0xa1 (by decide) (by decide), .seven, .seven, .seven] := by
  intro h
  have hhas : HasGlyph FontEnv.plain.fonts size16 0xb0 0xa1 :=
    has_of_fontScan h.scan (List.length_map ..) _ List.mem_cons_self
  exact hhas.1 rfl

end Text

end MaixSpeech.Font
