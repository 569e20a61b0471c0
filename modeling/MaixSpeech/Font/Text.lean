import MaixSpeech.Font.Layout

/-!
# Texts

An ASCII/GB2312 text is a list of characters. Where they all have glyphs, the scan of the text's
bytes finds these in order (`fontScan_of_has`), and where the font file holds them they can be read
(`TextAvailable.readable`).
-/

namespace MaixSpeech.Font

open Common

/-! ## One turn of the scan -/

/-- `_font_get_gbk` finds a glyph for the code. -/
def HasGlyph (fonts : Fonts) (size : FontSize) (ch cl : UInt8) : Prop :=
  fonts.fontBuf size.idx ≠ 0 ∧ InGbk ch cl

instance (fonts : Fonts) (size : FontSize) (ch cl : UInt8) :
    Decidable (HasGlyph fonts size ch cl) :=
  inferInstanceAs (Decidable (_ ∧ _))

section Turn

variable {env : FontEnv} {size : FontSize} {fuel : ℕ} {b ch cl : UInt8}

/-- A lead byte is not NUL and not ASCII. -/
theorem lead_ne_zero (h : 128 ≤ ch) : ch ≠ 0 := by
  rintro rfl
  exact absurd h (by decide)

/-- A byte of a code is not ASCII. -/
theorem HasGlyph.high {fonts : Fonts} (h : HasGlyph fonts size ch cl) :
    128 ≤ ch ∧ 128 ≤ cl ∧ cl ≠ 0 := by
  have hch : 0xa1 ≤ ch := UInt8.not_lt.mp fun hlt => h.2 (Or.inl hlt)
  have hcl : 0xa1 ≤ cl := UInt8.not_lt.mp fun hlt => h.2 (Or.inr (Or.inl hlt))
  have hcl128 : (128 : UInt8) ≤ cl := UInt8.le_trans (by decide) hcl
  exact ⟨UInt8.le_trans (by decide) hch, hcl128, lead_ne_zero hcl128⟩

theorem fontGetGbk_cons (fonts : Fonts) (size : FontSize) (ch cl : UInt8) (rest : List UInt8) :
    fontGetGbk fonts size (ch :: cl :: rest) =
      some (if HasGlyph fonts size ch cl then some (fonts.fontBuf size.idx + gbkOffset size ch cl)
        else none) := by
  unfold fontGetGbk
  by_cases hbuf : fonts.fontBuf size.idx = 0
  · rw [if_pos hbuf, if_neg fun h => h.1 hbuf]
  · rw [if_neg hbuf]
    by_cases hin : InGbk ch cl
    · exact (if_pos hin).trans (congrArg some (if_pos ⟨hbuf, hin⟩).symm)
    · exact (if_neg hin).trans (congrArg some (if_neg fun h : HasGlyph _ _ _ _ => hin h.2).symm)

theorem fontScan_ascii (hnul : b ≠ 0) (hlow : b < 128) (rest : List UInt8) :
    fontScan env size (fuel + 1) (b :: rest) =
      (fontScan env size fuel rest).map (asciiGlyph env size b :: ·) := by
  rw [fontScan, if_neg hnul, if_pos hlow]

theorem fontScan_code (h : HasGlyph env.fonts size ch cl) (rest : List UInt8) :
    fontScan env size (fuel + 1) (ch :: cl :: rest) =
      (fontScan env size fuel rest).map
        (gbkGlyph env size (env.fonts.fontBuf size.idx + gbkOffset size ch cl) :: ·) := by
  rw [fontScan, if_neg (lead_ne_zero h.high.1), if_neg (UInt8.not_lt.mpr h.high.1), fontGetGbk_cons,
    if_pos h]
  rfl

end Turn

/-! ## Characters -/

/-- A character of an ASCII/GB2312 text. -/
inductive Character where
  | ascii (b : UInt8) (nul : b ≠ 0) (low : b < 128)
  | gbk (ch cl : UInt8) (lead : 0xa1 ≤ ch) (trail : 0xa1 ≤ cl)
deriving DecidableEq

namespace Character

/-- The digit 7. -/
def seven : Character := ascii 0x37 (by decide) (by decide)

/-- The bytes of a character. -/
def bytes : Character → List UInt8
  | ascii b .. => [b]
  | gbk ch cl .. => [ch, cl]

/-- The glyph the scan finds for a character that has one. -/
def glyph (env : FontEnv) (size : FontSize) : Character → Glyph
  | ascii b .. => asciiGlyph env size b
  | gbk ch cl .. => gbkGlyph env size (env.fonts.fontBuf size.idx + gbkOffset size ch cl)

/-- The font has the character: its glyph lies inside the mapped file. -/
def Available (env : FontEnv) (size : FontSize) : Character → Prop
  | ascii .. => True
  | gbk ch cl .. =>
    env.fonts.fontBuf size.idx ≠ 0 ∧ InGbk ch cl ∧ ∀ i < size.px * size.px / 8,
      (peek env.fonts.live (env.fonts.fontBuf size.idx + gbkOffset size ch cl + i)).isSome

/-- The width of a character's cell. -/
def width (size : FontSize) : Character → ℕ
  | ascii .. => size.px / 2
  | gbk .. => size.px

theorem glyph_width (env : FontEnv) (size : FontSize) (c : Character) :
    (c.glyph env size).width = c.width size := by
  cases c <;> rfl

end Character

/-- The bytes of a text. -/
def textBytes (text : List Character) : List UInt8 := text.flatMap Character.bytes

@[simp] theorem textBytes_cons (c : Character) (text : List Character) :
    textBytes (c :: text) = c.bytes ++ textBytes text := rfl

theorem nul_notMem_textBytes (text : List Character) : 0 ∉ textBytes text := by
  intro h
  obtain ⟨c, -, hc⟩ := List.mem_flatMap.mp h
  cases c with
  | ascii b nul low => exact nul (List.mem_singleton.mp hc).symm
  | gbk ch cl lead trail =>
    rcases List.mem_cons.mp hc with hch | hcl
    · exact absurd (hch ▸ lead) (by decide)
    · exact absurd (List.mem_singleton.mp hcl ▸ trail) (by decide)

/-- Every character of the text is in the font. -/
def TextAvailable (env : FontEnv) (size : FontSize) (text : List Character) : Prop :=
  ∀ c ∈ text, c.Available env size

/-- ASCII tables without a set bit, and no font file. -/
def FontEnv.plain : FontEnv where
  ascii :=
    { font16 := List.replicate 2048 0
      font24 := List.replicate 6144 0
      font32 := List.replicate 8192 0
      font48 := List.replicate 18432 0
      length16 := List.length_replicate
      length24 := List.length_replicate
      length32 := List.length_replicate
      length48 := List.length_replicate }
  fonts := Fonts.init

/-- The registry with one font file. -/
def FontEnv.withFile (ascii : AsciiFonts) (size : FontSize) (o : RegOutcome) : FontEnv :=
  ⟨ascii, (fontReg Fonts.init size o).1⟩

/-- A font file with the records of the codes `a1 a1` and `a1 a2`, at size 16. -/
def twoRecords : RegOutcome := ⟨true, true, List.replicate 64 7, some 4096⟩

theorem available_seven (n : ℕ) (size : FontSize) :
    TextAvailable FontEnv.plain size (List.replicate n .seven) := by
  intro c hc
  rw [List.eq_of_mem_replicate hc]
  trivial

/-- The font has a glyph for the character. -/
def Character.Has (fonts : Fonts) (size : FontSize) : Character → Prop
  | .ascii .. => True
  | .gbk ch cl .. => HasGlyph fonts size ch cl

theorem Character.Available.has {env : FontEnv} {size : FontSize} {c : Character}
    (h : c.Available env size) : c.Has env.fonts size := by
  cases c with
  | ascii b nul low => trivial
  | gbk ch cl lead trail => exact ⟨h.1, h.2.1⟩

/-- **The scan of a text** whose characters have glyphs finds the glyph of each. -/
theorem fontScan_of_has {env : FontEnv} {size : FontSize} {text : List Character}
    (h : ∀ c ∈ text, c.Has env.fonts size) (tail : List UInt8) {fuel : ℕ}
    (hfuel : (textBytes text).length < fuel) :
    fontScan env size fuel (textBytes text ++ 0 :: tail) =
      some (text.map (Character.glyph env size)) := by
  induction text generalizing fuel with
  | nil =>
    obtain ⟨fuel, rfl⟩ := Nat.exists_eq_add_one_of_ne_zero (Nat.ne_zero_of_lt hfuel)
    rfl
  | cons c text ih =>
    have hc : c.Has env.fonts size := h c List.mem_cons_self
    have htext : ∀ d ∈ text, d.Has env.fonts size := fun d hd => h d (List.mem_cons_of_mem c hd)
    obtain ⟨fuel, rfl⟩ := Nat.exists_eq_add_one_of_ne_zero (Nat.ne_zero_of_lt hfuel)
    rw [textBytes_cons, List.length_append] at hfuel
    rw [textBytes_cons, List.append_assoc, List.map_cons]
    cases c with
    | ascii b nul low =>
      simp only [Character.bytes, List.length_singleton, List.singleton_append] at hfuel ⊢
      rw [fontScan_ascii nul low, ih htext (by omega)]
      rfl
    | gbk ch cl lead trail =>
      simp only [Character.bytes, List.length_cons, List.length_nil, List.cons_append,
        List.nil_append] at hfuel ⊢
      have hglyph : HasGlyph env.fonts size ch cl := hc
      rw [fontScan_code hglyph, ih htext (by omega)]
      rfl

theorem fontScan_textBytes {env : FontEnv} {size : FontSize} {text : List Character}
    (h : TextAvailable env size text) (tail : List UInt8) {fuel : ℕ}
    (hfuel : (textBytes text).length < fuel) :
    fontScan env size fuel (textBytes text ++ 0 :: tail) =
      some (text.map (Character.glyph env size)) :=
  fontScan_of_has (fun c hc => (h c hc).has) tail hfuel

/-! ## Their glyphs -/

theorem drawnSize_eq_some {charSize : ℤ} {size : FontSize} (h : drawnSize charSize = some size) :
    size = size16 ∨ size = size24 ∨ size = size32 ∨ size = size48 := by
  unfold drawnSize at h
  split_ifs at h <;> obtain rfl := Option.some.inj h <;> simp

/-- The table of a drawn size holds 128 records. -/
theorem ascii_buf_length (a : AsciiFonts) {charSize : ℤ} {size : FontSize}
    (hsize : drawnSize charSize = some size) :
    ∃ buf, a.buf size = some buf ∧ buf.length = 128 * asciiCsize size := by
  rcases drawnSize_eq_some hsize with rfl | rfl | rfl | rfl
  · exact ⟨a.font16, rfl, a.length16⟩
  · exact ⟨a.font24, rfl, a.length24⟩
  · exact ⟨a.font32, rfl, a.length32⟩
  · exact ⟨a.font48, rfl, a.length48⟩

/-- A row of a half-width glyph lies inside the record. -/
theorem asciiCsize_bound {charSize : ℤ} {size : FontSize} (hsize : drawnSize charSize = some size)
    {x y : ℕ} (hx : x < size.px / 2) (hy : y < size.px) :
    y * (size.px / 2 / 8 + if size.px / 2 % 8 ≠ 0 then 1 else 0) + x / 8 < asciiCsize size := by
  rcases drawnSize_eq_some hsize with rfl | rfl | rfl | rfl <;>
    simp [asciiCsize, size16, size24, size32, size48] at hx hy ⊢ <;> omega

/-- A row of a full-width glyph lies inside the record. -/
theorem gbkCsize_bound {charSize : ℤ} {size : FontSize} (hsize : drawnSize charSize = some size)
    {x y : ℕ} (hx : x < size.px) (hy : y < size.px) :
    y * (size.px / 8 + if size.px % 8 ≠ 0 then 1 else 0) + x / 8 < size.px * size.px / 8 := by
  rcases drawnSize_eq_some hsize with rfl | rfl | rfl | rfl <;>
    simp [size16, size24, size32, size48] at hx hy ⊢ <;> omega

/-- An available character's glyph can be read. -/
theorem Character.Available.readable {env : FontEnv} {charSize : ℤ} {size : FontSize}
    {c : Character} (hsize : drawnSize charSize = some size) (h : c.Available env size) :
    (c.glyph env size).Readable size.px := by
  intro y hy x hx
  cases c with
  | ascii b nul low =>
    obtain ⟨buf, hbuf, hlen⟩ := ascii_buf_length env.ascii hsize
    have hidx := asciiCsize_bound hsize hx hy
    have hb : b.toNat < 128 := low
    have hget : fontGetAscii env.ascii size b =
        some fun i => buf[asciiCsize size * b.toNat + i]? := by
      rw [fontGetAscii, hbuf, Option.bind_some, if_neg (UInt8.not_le.mpr low)]
    have hin : asciiCsize size * b.toNat + asciiCsize size ≤ buf.length := by
      rw [hlen, ← Nat.mul_succ, Nat.mul_comm]
      exact Nat.mul_le_mul_right _ hb
    simp only [Character.glyph, asciiGlyph, hget, Option.getD_some]
    exact ⟨_, List.getElem?_eq_getElem (by omega)⟩
  | gbk ch cl lead trail =>
    exact Option.isSome_iff_exists.mp (h.2.2 _ (gbkCsize_bound hsize hx hy))

theorem map_glyph_width (env : FontEnv) (size : FontSize) (text : List Character) :
    (text.map (Character.glyph env size)).map Glyph.width = text.map (Character.width size) := by
  rw [List.map_map]
  exact List.map_congr_left fun c _ => c.glyph_width env size

/-- The glyphs of an available text can be read. -/
theorem TextAvailable.readable {env : FontEnv} {charSize : ℤ} {size : FontSize}
    {text : List Character} (hsize : drawnSize charSize = some size)
    (h : TextAvailable env size text) :
    ∀ g ∈ text.map (Character.glyph env size), g.Readable size.px := by
  intro g hg
  obtain ⟨c, hc, rfl⟩ := List.mem_map.mp hg
  exact (h c hc).readable hsize

end MaixSpeech.Font
