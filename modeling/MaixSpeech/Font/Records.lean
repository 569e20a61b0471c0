import MaixSpeech.Font.Pixels
import MaixSpeech.Font.Scan

/-!
# The records of a font file

Reference: `components/utils/src/font.c`, `_font_get_gbk` and `font_draw`.

A font file has one record for each code, 94 to a row. The lookup checks the lead byte from both
sides but the trail byte only from below, and it never compares the offset with the length of the
file. So a record may lie behind the end of a short file, and the code behind the last one of a row
gets the record of the first code of the next row.

`turns` lists what the scan finds in memory (`fontScan_turns`). Where the scan jumps over the NUL of a
text it goes on in whatever lies behind it, and may find any code there (`exists_behind`). So what
`font_draw` reads for a text lies inside the file exactly when the records of its own codes do and,
if the scan leaves the text, those of all codes. Two codes have records of their own exactly when
they do not stand at the seam of two rows. Some do, whatever the file (`recordsSafe_iff`).
-/

namespace MaixSpeech.Font

open Common

/-! ## The turns of the scan -/

/-- What one turn of the scan finds. -/
inductive Turn where
  | ascii (b : UInt8)
  | code (ch cl : UInt8)
  | unknown
deriving DecidableEq

/-- The glyph that is drawn in a turn. -/
def Turn.glyph (env : FontEnv) (size : FontSize) : Turn → Glyph
  | .ascii b => asciiGlyph env size b
  | .code ch cl => gbkGlyph env size (env.fonts.fontBuf size.idx + gbkOffset size ch cl)
  | .unknown => unknownGlyph size

/-- The turns of the scan on the bytes from `p` on, until it ends or leaves them. -/
def turns (fonts : Fonts) (size : FontSize) : ℕ → List UInt8 → List Turn
  | 0, _ => []
  | _ + 1, [] => []
  | fuel + 1, b :: rest =>
    if b = 0 then []
    else if b < 128 then .ascii b :: turns fonts size fuel rest
    else
      match fontGetGbk fonts size (b :: rest) with
      | none => []
      | some none => .unknown :: turns fonts size fuel (rest.drop 3)
      | some (some _) => .code b (rest.headD 0) :: turns fonts size fuel (rest.drop 1)

section Turns

variable {env : FontEnv} {fonts : Fonts} {size : FontSize} {fuel : ℕ} {str : List UInt8}

theorem fontGetGbk_singleton (fonts : Fonts) (size : FontSize) (b : UInt8) :
    fontGetGbk fonts size [b] = if fonts.fontBuf size.idx = 0 then some none else none := rfl

theorem turns_ascii {b : UInt8} (hnul : b ≠ 0) (hlow : b < 128) (rest : List UInt8) :
    turns fonts size (fuel + 1) (b :: rest) = .ascii b :: turns fonts size fuel rest := by
  rw [turns, if_neg hnul, if_pos hlow]

theorem turns_code {ch cl : UInt8} (h : HasGlyph fonts size ch cl) (rest : List UInt8) :
    turns fonts size (fuel + 1) (ch :: cl :: rest) = .code ch cl :: turns fonts size fuel rest := by
  rw [turns, if_neg (lead_ne_zero h.high.1), if_neg (UInt8.not_lt.mpr h.high.1), fontGetGbk_cons,
    if_pos h]
  rfl

theorem turns_unknown {ch cl : UInt8} (hch : 128 ≤ ch) (h : ¬ HasGlyph fonts size ch cl)
    (rest : List UInt8) :
    turns fonts size (fuel + 1) (ch :: cl :: rest) =
      .unknown :: turns fonts size fuel (rest.drop 2) := by
  rw [turns, if_neg (lead_ne_zero hch), if_neg (UInt8.not_lt.mpr hch), fontGetGbk_cons, if_neg h]
  rfl

/-- A scan that gets through finds the glyphs of the turns. -/
theorem fontScan_turns {glyphs : List Glyph} (h : fontScan env size fuel str = some glyphs) :
    glyphs = (turns env.fonts size fuel str).map (Turn.glyph env size) := by
  induction fuel generalizing str glyphs with
  | zero => cases h
  | succ fuel ih =>
    cases str with
    | nil => cases h
    | cons b rest =>
      rw [fontScan] at h
      rw [turns]
      split_ifs at h ⊢ with hnul hlow
      · exact (Option.some.inj h).symm
      · obtain ⟨gs, hgs, rfl⟩ := Option.map_eq_some_iff.mp h
        exact congrArg _ (ih hgs)
      · cases rest with
        | nil =>
          obtain ⟨addr, haddr, hrest⟩ := Option.bind_eq_some_iff.mp h
          rw [haddr]
          cases addr with
          | none =>
            obtain ⟨gs, hgs, rfl⟩ := Option.map_eq_some_iff.mp hrest
            exact congrArg _ (ih hgs)
          | some addr =>
            rw [fontGetGbk_singleton] at haddr
            split_ifs at haddr
            cases haddr
        | cons cl rest =>
          rw [fontGetGbk_cons] at h ⊢
          split_ifs at h ⊢ with hglyph
          · obtain ⟨gs, hgs, rfl⟩ := Option.map_eq_some_iff.mp h
            exact congrArg _ (ih hgs)
          · obtain ⟨gs, hgs, rfl⟩ := Option.map_eq_some_iff.mp h
            exact congrArg _ (ih hgs)

/-- What a turn can find: an ASCII byte, or a code with a glyph, or nothing. -/
def Turn.Sound (fonts : Fonts) (size : FontSize) : Turn → Prop
  | .ascii b => b ≠ 0 ∧ b < 128
  | .code ch cl => HasGlyph fonts size ch cl
  | .unknown => True

theorem turns_sound : ∀ t ∈ turns fonts size fuel str, t.Sound fonts size := by
  induction fuel generalizing str with
  | zero => exact fun t ht => absurd ht List.not_mem_nil
  | succ fuel ih =>
    cases str with
    | nil => exact fun t ht => absurd ht List.not_mem_nil
    | cons b rest =>
      rw [turns]
      split_ifs with hnul hlow
      · exact fun t ht => absurd ht List.not_mem_nil
      · exact List.forall_mem_cons.mpr ⟨⟨hnul, hlow⟩, ih⟩
      · cases rest with
        | nil =>
          rw [fontGetGbk_singleton]
          split_ifs
          · exact List.forall_mem_cons.mpr ⟨trivial, ih⟩
          · exact fun t ht => absurd ht List.not_mem_nil
        | cons cl rest =>
          rw [fontGetGbk_cons]
          split_ifs with hglyph
          · exact List.forall_mem_cons.mpr ⟨hglyph, ih⟩
          · exact List.forall_mem_cons.mpr ⟨trivial, ih⟩

end Turns

/-! ## Beyond the string -/

section Behind

variable {env : FontEnv} {fonts : Fonts} {size : FontSize} {fuel fuel' : ℕ} {s l : List UInt8}

/-- A string that divides is all that the scan looks at. -/
theorem Divides.turns_eq (h : Divides fonts size s) (h0 : 0 ∉ s) (after : List UInt8)
    (hfuel : s.length ≤ fuel) (hfuel' : s.length ≤ fuel') :
    turns fonts size fuel (s ++ 0 :: after) = turns fonts size fuel' s := by
  induction h generalizing fuel fuel' with
  | nil =>
    have hnul : turns fonts size fuel (0 :: after) = [] := by cases fuel <;> rfl
    have hend : turns fonts size fuel' [] = [] := by cases fuel' <;> rfl
    exact hnul.trans hend.symm
  | @ascii b s hlow _ ih =>
    simp only [List.mem_cons, not_or, List.length_cons] at h0 hfuel hfuel'
    obtain ⟨fuel, rfl⟩ := Nat.exists_eq_add_one_of_ne_zero (Nat.ne_zero_of_lt hfuel)
    obtain ⟨fuel', rfl⟩ := Nat.exists_eq_add_one_of_ne_zero (Nat.ne_zero_of_lt hfuel')
    rw [List.cons_append, turns_ascii (Ne.symm h0.1) hlow, turns_ascii (Ne.symm h0.1) hlow]
    exact congrArg _ (ih h0.2 (by omega) (by omega))
  | @code ch cl s hglyph _ ih =>
    simp only [List.mem_cons, not_or, List.length_cons] at h0 hfuel hfuel'
    obtain ⟨fuel, rfl⟩ := Nat.exists_eq_add_one_of_ne_zero (Nat.ne_zero_of_lt hfuel)
    obtain ⟨fuel', rfl⟩ := Nat.exists_eq_add_one_of_ne_zero (Nat.ne_zero_of_lt hfuel')
    rw [List.cons_append, List.cons_append, turns_code hglyph, turns_code hglyph]
    exact congrArg _ (ih h0.2.2 (by omega) (by omega))
  | @unknown ch b₁ b₂ b₃ s hhigh hglyph _ ih =>
    simp only [List.mem_cons, not_or, List.length_cons] at h0 hfuel hfuel'
    obtain ⟨fuel, rfl⟩ := Nat.exists_eq_add_one_of_ne_zero (Nat.ne_zero_of_lt hfuel)
    obtain ⟨fuel', rfl⟩ := Nat.exists_eq_add_one_of_ne_zero (Nat.ne_zero_of_lt hfuel')
    simp only [List.cons_append]
    rw [turns_unknown hhigh hglyph, turns_unknown hhigh hglyph, List.drop_succ_cons,
      List.drop_succ_cons, List.drop_zero, List.drop_succ_cons, List.drop_succ_cons,
      List.drop_zero]
    exact congrArg _ (ih h0.2.2.2.2 (by omega) (by omega))

/-- The turns that begin in a string are those of the memory from it on, as far as they go. -/
theorem turns_initial (h0 : 0 ∉ s) (hfuel : fuel ≤ fuel') (after : List UInt8) :
    turns fonts size fuel s <+: turns fonts size fuel' (s ++ 0 :: after) := by
  induction fuel generalizing fuel' s with
  | zero => exact List.nil_prefix
  | succ fuel ih =>
    obtain ⟨fuel', rfl⟩ := Nat.exists_eq_add_one_of_ne_zero (Nat.ne_zero_of_lt hfuel)
    have hle : fuel ≤ fuel' := Nat.le_of_succ_le_succ hfuel
    match s with
    | [] => exact List.nil_prefix
    | b :: t =>
      simp only [List.mem_cons, not_or] at h0
      by_cases hlow : b < 128
      · rw [List.cons_append, turns_ascii (Ne.symm h0.1) hlow, turns_ascii (Ne.symm h0.1) hlow]
        exact List.cons_prefix_cons.mpr ⟨rfl, ih h0.2 hle⟩
      have hhigh : 128 ≤ b := UInt8.not_lt.mp hlow
      match t with
      | [] =>
        -- the code is cut off by the end of the string
        have hno : ¬ HasGlyph fonts size b 0 := fun h => h.high.2.2 rfl
        rw [List.cons_append, List.nil_append, turns_unknown hhigh hno, turns,
          if_neg (Ne.symm h0.1), if_neg hlow, fontGetGbk_singleton]
        split_ifs
        · refine List.cons_prefix_cons.mpr ⟨rfl, ?_⟩
          rw [List.drop_nil]
          cases fuel <;> exact List.nil_prefix
        · exact List.nil_prefix
      | cl :: t =>
        simp only [List.mem_cons, not_or] at h0
        rw [List.cons_append, List.cons_append]
        by_cases hglyph : HasGlyph fonts size b cl
        · rw [turns_code hglyph, turns_code hglyph]
          exact List.cons_prefix_cons.mpr ⟨rfl, ih h0.2.2 hle⟩
        · rw [turns_unknown hhigh hglyph, turns_unknown hhigh hglyph]
          refine List.cons_prefix_cons.mpr ⟨rfl, ?_⟩
          match t with
          | [] | [_] => cases fuel <;> exact List.nil_prefix
          | b₂ :: b₃ :: t => exact ih (by simp_all) hle

/-- On the memory `l` the scan ends, and the turns in `T` are among those it makes. -/
def Finds (env : FontEnv) (size : FontSize) (T : Turn → Prop) (l : List UInt8) : Prop :=
  ∀ fuel, l.length ≤ fuel → (fontScan env size fuel l).isSome ∧
    ∀ t, T t → t ∈ turns env.fonts size fuel l

variable {T : Turn → Prop}

theorem Finds.ascii {b : UInt8} (hnul : b ≠ 0) (hlow : b < 128) (h : Finds env size T l) :
    Finds env size T (b :: l) := by
  intro fuel hfuel
  obtain ⟨fuel, rfl⟩ := Nat.exists_eq_add_one_of_ne_zero (Nat.ne_zero_of_lt hfuel)
  obtain ⟨hscan, hturns⟩ := h fuel (Nat.le_of_succ_le_succ hfuel)
  rw [fontScan_ascii hnul hlow, turns_ascii hnul hlow, Option.isSome_map]
  exact ⟨hscan, fun t ht => List.mem_cons_of_mem _ (hturns t ht)⟩

theorem Finds.code {ch cl : UInt8} (hglyph : HasGlyph env.fonts size ch cl)
    (h : Finds env size T l) : Finds env size T (ch :: cl :: l) := by
  intro fuel hfuel
  obtain ⟨fuel, rfl⟩ := Nat.exists_eq_add_one_of_ne_zero (Nat.ne_zero_of_lt hfuel)
  obtain ⟨hscan, hturns⟩ := h fuel (by simp only [List.length_cons] at hfuel; omega)
  rw [fontScan_code hglyph, turns_code hglyph, Option.isSome_map]
  exact ⟨hscan, fun t ht => List.mem_cons_of_mem _ (hturns t ht)⟩

theorem Finds.unknown {ch cl : UInt8} (hhigh : 128 ≤ ch) (hglyph : ¬ HasGlyph env.fonts size ch cl)
    (h : Finds env size T (l.drop 2)) : Finds env size T (ch :: cl :: l) := by
  intro fuel hfuel
  obtain ⟨fuel, rfl⟩ := Nat.exists_eq_add_one_of_ne_zero (Nat.ne_zero_of_lt hfuel)
  obtain ⟨hscan, hturns⟩ := h fuel (by
    rw [List.length_drop]
    simp only [List.length_cons] at hfuel
    omega)
  rw [fontScan_unknown hhigh hglyph, turns_unknown hhigh hglyph, Option.isSome_map]
  exact ⟨hscan, fun t ht => List.mem_cons_of_mem _ (hturns t ht)⟩

/-- **Behind a text that the scan leaves it may find anything**: some memory behind the NUL makes it
go on with `tail`. -/
theorem exists_behind {tail : List UInt8} (htail : Finds env size T tail) (h0 : 0 ∉ s)
    (hdiv : ¬ Divides env.fonts size s) : ∃ after, Finds env size T (s ++ 0 :: after) := by
  induction hn : s.length using Nat.strong_induction_on generalizing s with
  | _ n ih =>
    subst hn
    match s with
    | [] => exact absurd .nil hdiv
    | b :: t =>
      simp only [List.mem_cons, not_or] at h0
      have hb : b ≠ 0 := Ne.symm h0.1
      by_cases hlow : b < 128
      · obtain ⟨after, h⟩ := ih t.length (by simp) h0.2 (fun hd => hdiv (.ascii hlow hd)) rfl
        exact ⟨after, h.ascii hb hlow⟩
      have hhigh : 128 ≤ b := UInt8.not_lt.mp hlow
      match t with
      | [] =>
        have hno : ¬ HasGlyph env.fonts size b 0 := fun h => h.high.2.2 rfl
        exact ⟨0 :: 0 :: tail, Finds.unknown hhigh hno htail⟩
      | [cl] =>
        by_cases hglyph : HasGlyph env.fonts size b cl
        · exact absurd (.code hglyph .nil) hdiv
        · exact ⟨0 :: tail, Finds.unknown hhigh hglyph htail⟩
      | [cl, b₂] =>
        by_cases hglyph : HasGlyph env.fonts size b cl
        · obtain ⟨after, h⟩ := ih 1 (by simp) (by simp_all)
            (fun hd => hdiv (.code hglyph hd)) rfl
          exact ⟨after, h.code hglyph⟩
        · exact ⟨tail, Finds.unknown hhigh hglyph htail⟩
      | cl :: b₂ :: b₃ :: t =>
        simp only [List.mem_cons, not_or] at h0
        by_cases hglyph : HasGlyph env.fonts size b cl
        · obtain ⟨after, h⟩ := ih (b₂ :: b₃ :: t).length (by simp) (by simp [h0])
            (fun hd => hdiv (.code hglyph hd)) rfl
          exact ⟨after, h.code hglyph⟩
        · obtain ⟨after, h⟩ := ih t.length (by simp; omega) h0.2.2.2.2
            (fun hd => hdiv (.unknown hhigh hglyph hd)) rfl
          exact ⟨after, Finds.unknown hhigh hglyph h⟩

/-- A NUL ends the scan. -/
theorem finds_nul (env : FontEnv) (size : FontSize) : Finds env size (fun _ => False) [0] := by
  intro fuel hfuel
  obtain ⟨fuel, rfl⟩ := Nat.exists_eq_add_one_of_ne_zero (Nat.ne_zero_of_lt hfuel)
  exact ⟨rfl, fun t ht => ht.elim⟩

theorem finds_code {ch cl : UInt8} (hglyph : HasGlyph env.fonts size ch cl) :
    Finds env size (· = .code ch cl) [ch, cl, 0] := by
  intro fuel hfuel
  obtain ⟨fuel, rfl⟩ := Nat.exists_eq_add_one_of_ne_zero (Nat.ne_zero_of_lt hfuel)
  obtain ⟨hscan, -⟩ := finds_nul env size fuel (by
    simp only [List.length_cons, List.length_nil] at hfuel ⊢
    omega)
  rw [fontScan_code hglyph, turns_code hglyph, Option.isSome_map]
  refine ⟨hscan, ?_⟩
  rintro t rfl
  exact List.mem_cons_self

/-- With some memory behind it, the scan of any string ends. -/
theorem exists_finds (h0 : 0 ∉ s) :
    ∃ after, Finds env size (· ∈ turns env.fonts size s.length s) (s ++ 0 :: after) := by
  have hends : ∃ after, Finds env size (fun _ => False) (s ++ 0 :: after) := by
    by_cases hdiv : Divides env.fonts size s
    · refine ⟨[], fun fuel hfuel => ⟨?_, fun t ht => ht.elim⟩⟩
      obtain ⟨glyphs, hscan, -⟩ := hdiv.fontScan h0 (Nat.lt_of_succ_le (by simpa using hfuel))
      rw [hscan]
      rfl
    · exact exists_behind (finds_nul env size) h0 hdiv
  obtain ⟨after, h⟩ := hends
  refine ⟨after, fun fuel hfuel => ⟨(h fuel hfuel).1, fun t ht => ?_⟩⟩
  exact (turns_initial h0 (by rw [List.length_append] at hfuel; omega) after).subset ht

end Behind

/-! ## What is to hold -/

/-- The length of a record. -/
def gbkCsize (size : FontSize) : ℕ := size.px * size.px / 8

/-- The turns of the scan that begin in a text. -/
def textTurns (fonts : Fonts) (size : FontSize) (text : List Character) : List Turn :=
  turns fonts size (textBytes text).length (textBytes text)

/-- The memory from a text on: its bytes, its NUL, and what lies behind it. -/
def textMemory (text : List Character) (after : List UInt8) : List UInt8 :=
  textBytes text ++ 0 :: after

/-- The records that a text makes `font_draw` read lie inside the file: whatever is behind the text,
if the scan ends there, then `font_draw` gets through on any screen with nothing but the file to read
them from. -/
def RecordsInside (env : FontEnv) (size : FontSize) (text : List Character) : Prop :=
  ∀ after, (fontScan env size (textMemory text after).length (textMemory text after)).isSome →
    ∀ a : DrawArgs, a.Valid size → ∀ (n : ℕ) (fb : Arr UInt8 n),
      a.lcdW * a.lcdH * pixelBytes a.bpp ≤ n → (fontDraw env fb a (textMemory text after)).isSome

/-- The records of two codes do not overlap. -/
def RecordsApart (size : FontSize) (ch cl ch' cl' : UInt8) : Prop :=
  gbkOffset size ch cl + gbkCsize size ≤ gbkOffset size ch' cl' ∨
    gbkOffset size ch' cl' + gbkCsize size ≤ gbkOffset size ch cl

/-- The records of a text are read inside the file, and different codes with a glyph have records
that do not overlap. -/
structure RecordsSafe (env : FontEnv) (size : FontSize) (text : List Character) : Prop where
  inside : RecordsInside env size text
  apart : ∀ ch cl ch' cl', HasGlyph env.fonts size ch cl → HasGlyph env.fonts size ch' cl' →
    (ch, cl) ≠ (ch', cl') → RecordsApart size ch cl ch' cl'

/-- The codes found in the text have their records inside a file of this length. If the scan leaves
the text, then the last record of all is inside the file. -/
structure RecordsFit (fonts : Fonts) (size : FontSize) (fsize : ℕ) (text : List Character) :
    Prop where
  ends : ∀ ch cl, .code ch cl ∈ textTurns fonts size text →
    gbkOffset size ch cl + gbkCsize size ≤ fsize
  behind : ¬ Divides fonts size (textBytes text) → gbkOffset size 0xf7 0xff + gbkCsize size ≤ fsize

/-- The code behind the last one of a row, and the first code of the next row. -/
def AtSeam (ch cl ch' cl' : UInt8) : Prop := ch'.toNat = ch.toNat + 1 ∧ cl = 0xff ∧ cl' = 0xa1

/-! ## The geometry of the file -/

/-- Codes that have a glyph share a record at the seam of two rows only. -/
theorem recordsApart_iff {size : FontSize} {ch cl ch' cl' : UInt8} (h : InGbk ch cl)
    (h' : InGbk ch' cl') (hne : (ch, cl) ≠ (ch', cl')) :
    RecordsApart size ch cl ch' cl' ↔ ¬ AtSeam ch cl ch' cl' ∧ ¬ AtSeam ch' cl' ch cl := by
  obtain ⟨k, hk⟩ : ∃ k, gbkCsize size = k + 1 := by
    refine Nat.exists_eq_add_one_of_ne_zero (Nat.ne_of_gt ?_)
    have hmul := Nat.mul_le_mul size.lower size.lower
    rw [gbkCsize]
    omega
  have hlow : ∀ {a b : UInt8}, InGbk a b → 161 ≤ a.toNat ∧ 161 ≤ b.toNat := fun hab =>
    ⟨UInt8.not_lt.mp fun hlt => hab (Or.inl hlt),
      UInt8.not_lt.mp fun hlt => hab (Or.inr (Or.inl hlt))⟩
  obtain ⟨hch, hcl⟩ := hlow h
  obtain ⟨hch', hcl'⟩ := hlow h'
  have hclt := UInt8.toNat_lt cl
  have hclt' := UInt8.toNat_lt cl'
  have hne' : ch.toNat = ch'.toNat → cl.toNat ≠ cl'.toNat := fun h1 h2 =>
    hne (Prod.ext (UInt8.toNat_inj.mp h1) (UInt8.toNat_inj.mp h2))
  have hff : ∀ b : UInt8, b = 0xff ↔ b.toNat = 255 := fun b => UInt8.toNat_inj.symm
  have ha1 : ∀ b : UInt8, b = 0xa1 ↔ b.toNat = 161 := fun b => UInt8.toNat_inj.symm
  -- the records are apart when their numbers differ
  have hrecords : ∀ i j : ℕ, (i * (k + 1) + (k + 1) ≤ j * (k + 1) ∨
      j * (k + 1) + (k + 1) ≤ i * (k + 1)) ↔ i ≠ j := by
    intro i j
    rw [← Nat.succ_mul, ← Nat.succ_mul, Nat.mul_le_mul_right_iff k.succ_pos,
      Nat.mul_le_mul_right_iff k.succ_pos]
    omega
  rw [RecordsApart, AtSeam, AtSeam, gbkOffset, gbkOffset, ← gbkCsize, hk, hrecords, hff, hff, ha1,
    ha1]
  omega

/-- No code has its record behind that of (f7, ff). -/
theorem gbkOffset_le_last (size : FontSize) {ch cl : UInt8} (h : InGbk ch cl) :
    gbkOffset size ch cl ≤ gbkOffset size 0xf7 0xff := by
  have hch : ch.toNat ≤ 247 := UInt8.not_lt.mp fun hlt => h (Or.inr (Or.inr (Or.inl hlt)))
  have hcl := UInt8.toNat_lt cl
  refine Nat.mul_le_mul_right _ ?_
  show (ch.toNat - 161) * 94 + (cl.toNat - 161) ≤ (247 - 161) * 94 + (255 - 161)
  omega

/-- A record can be read inside a single mapping exactly when it ends there. -/
theorem readable_gbkGlyph_iff {ascii : AsciiFonts} {fonts : Fonts} {size : FontSize} {m : Mapping}
    (hlive : fonts.live = [m]) {off : ℕ} {charSize : ℤ} (hsize : drawnSize charSize = some size) :
    (gbkGlyph ⟨ascii, fonts⟩ size (m.base + off)).Readable size.px ↔
      off + gbkCsize size ≤ m.bytes.length := by
  have hpeek : ∀ i, peek fonts.live (m.base + off + i) = m.bytes[off + i]? := by
    intro i
    rw [hlive, peek, List.findSome?_singleton, if_pos (by omega)]
    congr 1
    omega
  have hwidth : (gbkGlyph ⟨ascii, fonts⟩ size (m.base + off)).width = size.px := rfl
  constructor
  · intro h
    have hpx := size.lower
    obtain ⟨data, hdata⟩ := h (size.px - 1) (by omega) (size.px - 1) (by rw [hwidth]; omega)
    -- the last byte of the record
    have hlast : (size.px - 1) * (size.px / 8 + if size.px % 8 ≠ 0 then 1 else 0) +
        (size.px - 1) / 8 + 1 = gbkCsize size := by
      rcases drawnSize_eq_some hsize with rfl | rfl | rfl | rfl <;> rfl
    rw [hwidth] at hdata
    have hlt := (List.getElem?_eq_some_iff.mp ((hpeek _).symm.trans hdata)).1
    omega
  · intro hend y hy x hx
    have hrow := gbkCsize_bound hsize hx hy
    refine ⟨_, (hpeek _).trans (List.getElem?_eq_getElem ?_)⟩
    rw [hwidth]
    rw [gbkCsize] at hend
    omega

/-! ## Drawing the records -/

/-- On a screen wide enough for all glyphs, every one of them is drawn, and so has been read. -/
theorem readable_of_legible {lcdW lcdH : ℤ} {h : ℕ} {p : ℤ × ℤ} {glyphs : List Glyph}
    (hleg : Legible lcdW lcdH h p glyphs) (hw : p.1 + (glyphs.map Glyph.width).sum ≤ lcdW)
    (hh : p.2 + h ≤ lcdH) : ∀ g ∈ glyphs, g.Readable h := by
  induction glyphs generalizing p with
  | nil => exact fun g hg => absurd hg List.not_mem_nil
  | cons g glyphs ih =>
    rw [List.map_cons, List.sum_cons] at hw
    have hplace : place lcdW h p g.width = p := if_neg (by omega)
    have hadv : advance lcdW lcdH h p g.width = (p.1 + g.width, p.2) := by
      rw [advance, hplace, if_neg (not_lt.mpr hh)]
    obtain ⟨hg, hrest⟩ := hleg
    rw [hplace] at hg
    rw [hadv] at hrest
    refine List.forall_mem_cons.mpr ⟨hg hh, ih hrest ?_ hh⟩
    simp only
    omega

/-- Glyphs that can be read get drawn on any screen the buffer has room for. -/
theorem draws_of_readable {size : FontSize} {a : DrawArgs} (ha : a.Valid size) {n : ℕ}
    {fb : Arr UInt8 n} (hn : a.lcdW * a.lcdH * pixelBytes a.bpp ≤ n) {glyphs : List Glyph}
    (hread : ∀ g ∈ glyphs, g.Readable size.px) (hw : ∀ g ∈ glyphs, (g.width : ℤ) ≤ a.lcdW) :
    (glyphs.foldlM
      (fontCharDraw (putAt putRgb putArgb a.bpp) a.lcdW a.lcdH size.px a.cColor a.bgColor)
      (fb, a.xOft, a.yOft)).isSome := by
  have hW : 0 ≤ a.lcdW := le_trans (by omega) ha.width
  have hput : Puts (putAt putRgb putArgb a.bpp) (fun _ : Arr UInt8 n => True) a.cColor a.bgColor
      (a.lcdW * a.yOft) (a.lcdW * min a.lcdH
        ((Font.cursor a.lcdW a.lcdH size.px (a.xOft, a.yOft) (glyphs.map Glyph.width)).2 +
          size.px)) := by
    intro i c s hlo hhi _ _
    obtain ⟨s', hput, -⟩ := putAt_on_screen ha hn hlo hhi s c
    exact ⟨s', hput, trivial⟩
  obtain ⟨fb', hrun, -⟩ :=
    foldlM_fontCharDraw_spec (p := (a.xOft, a.yOft)) (fun _ => True) (legible_of_readable hread) hw
      hW ha.x hput trivial
  exact Option.isSome_iff_exists.mpr ⟨_, hrun⟩

/-- Glyphs that get drawn on every screen can be read: all of them fit on a screen that is wide
enough. -/
theorem readable_of_draws {size : FontSize} {charSize : ℤ} (hsize : drawnSize charSize = some size)
    {glyphs : List Glyph} (h : ∀ a : DrawArgs, a.Valid size → ∀ (n : ℕ) (fb : Arr UInt8 n),
      a.lcdW * a.lcdH * pixelBytes a.bpp ≤ n →
        (glyphs.foldlM
          (fontCharDraw (putAt putRgb putArgb a.bpp) a.lcdW a.lcdH size.px a.cColor a.bgColor)
          (fb, a.xOft, a.yOft)).isSome) :
    ∀ g ∈ glyphs, g.Readable size.px := by
  let a : DrawArgs :=
    { bpp := 24, lcdW := size.px + (glyphs.map Glyph.width).sum, lcdH := size.px, charSize
      xOft := 0, yOft := 0, cColor := 0, bgColor := 0 }
  have ha : a.Valid size := ⟨hsize, Or.inl rfl, by simp only [a]; omega, le_rfl, le_rfl⟩
  obtain ⟨r, hr⟩ := Option.isSome_iff_exists.mp
    (h a ha _ (fun _ => 0) (Int.self_le_toNat (a.lcdW * a.lcdH * pixelBytes a.bpp)))
  refine readable_of_legible (legible_of_foldlM hr) ?_ ?_
  · simp only [a]
    omega
  · simp only [a]
    omega

/-! ## The records of a text -/

section Text

variable {ascii : AsciiFonts} {size : FontSize} {charSize : ℤ} {o : RegOutcome}
  {text : List Character}

/-- What an accepted file leaves in the registry. -/
theorem withFile_fonts (hacc : (fontReg Fonts.init size o).2 = 0)
    (hmap : MmapFresh Fonts.init (.reg size o)) (ascii : AsciiFonts) :
    ∃ a, 0 < a ∧ (FontEnv.withFile ascii size o).fonts.fontBuf size.idx = a ∧
      (FontEnv.withFile ascii size o).fonts.fontFsize size.idx = o.file.length ∧
      (FontEnv.withFile ascii size o).fonts.live = [⟨a, o.file⟩] := by
  by_cases hr : ReachesMmap Fonts.init size o
  · cases hm : o.mapped with
    | none =>
      rw [fontReg_of_mmap_fails hr hm] at hacc
      exact absurd hacc (by simp)
    | some a =>
      have hfresh := hmap hr a hm
      rw [FontEnv.withFile, fontReg_of_mapped hr hm hfresh]
      exact ⟨a, hfresh.1, Function.update_self .., Function.update_self .., rfl⟩
  · rw [fontReg_of_not_reaches hr] at hacc
    exact absurd hacc (by decide)

/-- The glyphs of the turns can be read when the records end inside the file. -/
theorem Turn.readable_iff (hsize : drawnSize charSize = some size) {env : FontEnv} {m : Mapping}
    (hlive : env.fonts.live = [m]) (hbase : env.fonts.fontBuf size.idx = m.base) {t : Turn}
    (hsound : t.Sound env.fonts size) :
    (t.glyph env size).Readable size.px ↔
      ∀ ch cl, t = .code ch cl → gbkOffset size ch cl + gbkCsize size ≤ m.bytes.length := by
  cases t with
  | ascii b =>
    refine iff_of_true ?_ fun ch cl h => nomatch h
    exact Character.Available.readable (c := .ascii b hsound.1 hsound.2) hsize trivial
  | code ch cl =>
    rw [Turn.glyph, hbase, readable_gbkGlyph_iff hlive hsize]
    refine ⟨fun h ch' cl' hcode => ?_, fun h => h ch cl rfl⟩
    obtain ⟨rfl, rfl⟩ := Turn.code.inj hcode
    exact h
  | unknown =>
    refine iff_of_true ?_ fun ch cl h => nomatch h
    exact fun y hy x hx => ⟨0xff, if_pos (gbkCsize_bound hsize hx hy)⟩

theorem Turn.glyph_width_le (env : FontEnv) (size : FontSize) (t : Turn) :
    (t.glyph env size).width ≤ size.px := by
  cases t with
  | ascii b => exact Nat.div_le_self _ _
  | code ch cl => exact le_rfl
  | unknown => exact le_rfl

/-- Where the scan ends, `font_draw` gets through exactly when the glyphs get drawn. -/
theorem isSome_fontDraw_iff {env : FontEnv} {a : DrawArgs} (ha : a.Valid size) {str : List UInt8}
    {glyphs : List Glyph} (hscan : fontScan env size str.length str = some glyphs) {n : ℕ}
    (fb : Arr UInt8 n) :
    (fontDraw env fb a str).isSome ↔ (glyphs.foldlM
      (fontCharDraw (putAt putRgb putArgb a.bpp) a.lcdW a.lcdH size.px a.cColor a.bgColor)
      (fb, a.xOft, a.yOft)).isSome := by
  rw [fontDraw, fontDrawOn_eq ha.drawn ha.depth, hscan, Option.bind_some, Option.isSome_map]

/-- If `font_draw` gets through wherever the scan ends, then the records of all codes found lie inside
the file. -/
theorem RecordsInside.ends {env : FontEnv} {m : Mapping} (h : RecordsInside env size text)
    (hsize : drawnSize charSize = some size) (hlive : env.fonts.live = [m])
    (hbase : env.fonts.fontBuf size.idx = m.base) {T : Turn → Prop} {after : List UInt8}
    (hfinds : Finds env size T (textMemory text after)) {ch cl : UInt8} (hT : T (.code ch cl)) :
    gbkOffset size ch cl + gbkCsize size ≤ m.bytes.length := by
  obtain ⟨hsome, hturns⟩ := hfinds _ le_rfl
  obtain ⟨glyphs, hscan⟩ := Option.isSome_iff_exists.mp hsome
  have hcode := hturns _ hT
  have hread := readable_of_draws hsize fun a ha n fb hn =>
    (isSome_fontDraw_iff ha hscan fb).mp (h after hsome a ha n fb hn)
  rw [fontScan_turns hscan] at hread
  have hglyph := hread _ (List.mem_map_of_mem hcode)
  exact (Turn.readable_iff hsize hlive hbase (turns_sound _ hcode)).mp hglyph ch cl rfl

/-- The records of the codes that are found fit, in the text and behind it. -/
theorem RecordsFit.code_le {fonts : Fonts} {fsize : ℕ} (h : RecordsFit fonts size fsize text)
    {after : List UInt8} {fuel : ℕ} {ch cl : UInt8}
    (hcode : .code ch cl ∈ turns fonts size fuel (textMemory text after))
    (hfuel : (textBytes text).length ≤ fuel) :
    gbkOffset size ch cl + gbkCsize size ≤ fsize := by
  by_cases hdiv : Divides fonts size (textBytes text)
  · refine h.ends ch cl ?_
    rwa [textMemory, hdiv.turns_eq (nul_notMem_textBytes text) after hfuel le_rfl] at hcode
  · have hlast := gbkOffset_le_last size (turns_sound _ hcode).2
    exact (Nat.add_le_add_right hlast _).trans (h.behind hdiv)

/-- **The records that a text makes `font_draw` read lie inside the file exactly when they fit**: for
every accepted font file of any length, every text and every screen. -/
theorem recordsInside_iff (ascii : AsciiFonts) (hsize : drawnSize charSize = some size)
    (hacc : (fontReg Fonts.init size o).2 = 0) (hmap : MmapFresh Fonts.init (.reg size o))
    (text : List Character) :
    RecordsInside (FontEnv.withFile ascii size o) size text ↔
      RecordsFit (FontEnv.withFile ascii size o).fonts size
        ((FontEnv.withFile ascii size o).fonts.fontFsize size.idx) text := by
  obtain ⟨base, hpos, hbase, hfsize, hlive⟩ := withFile_fonts hacc hmap ascii
  rw [hfsize]
  constructor
  · intro h
    refine ⟨fun ch cl hcode => ?_, fun hdiv => ?_⟩
    · obtain ⟨after, hfinds⟩ := exists_finds (nul_notMem_textBytes text)
      exact h.ends hsize hlive hbase hfinds hcode
    · have hlast : HasGlyph (FontEnv.withFile ascii size o).fonts size 0xf7 0xff := by
        refine ⟨?_, by decide⟩
        rw [hbase]
        exact Nat.ne_of_gt hpos
      obtain ⟨after, hfinds⟩ := exists_behind (finds_code hlast) (nul_notMem_textBytes text) hdiv
      exact h.ends hsize hlive hbase hfinds rfl
  · intro h after hsome a ha n fb hn
    obtain ⟨glyphs, hscan⟩ := Option.isSome_iff_exists.mp hsome
    rw [isSome_fontDraw_iff ha hscan, fontScan_turns hscan]
    apply draws_of_readable ha hn
    · intro g hg
      obtain ⟨t, ht, rfl⟩ := List.mem_map.mp hg
      refine (Turn.readable_iff hsize hlive hbase (turns_sound t ht)).mpr fun ch cl hcode => ?_
      refine h.code_le (hcode ▸ ht) ?_
      rw [textMemory, List.length_append]
      omega
    · intro g hg
      obtain ⟨t, -, rfl⟩ := List.mem_map.mp hg
      exact le_trans (Nat.cast_le.mpr (t.glyph_width_le _ size)) ha.width

/-- **What becomes of the records**, for every accepted font file of any length and every text. What is
read lies inside the file exactly when it fits. Two codes with a glyph have records of their own
exactly when they are not at a seam. The two together never hold, since every file has seams. -/
theorem recordsSafe_iff (ascii : AsciiFonts) (hsize : drawnSize charSize = some size)
    (hacc : (fontReg Fonts.init size o).2 = 0) (hmap : MmapFresh Fonts.init (.reg size o))
    (text : List Character) :
    (RecordsInside (FontEnv.withFile ascii size o) size text ↔
      RecordsFit (FontEnv.withFile ascii size o).fonts size
        ((FontEnv.withFile ascii size o).fonts.fontFsize size.idx) text) ∧
    (∀ ch cl ch' cl', HasGlyph (FontEnv.withFile ascii size o).fonts size ch cl →
      HasGlyph (FontEnv.withFile ascii size o).fonts size ch' cl' → (ch, cl) ≠ (ch', cl') →
        (RecordsApart size ch cl ch' cl' ↔ ¬ AtSeam ch cl ch' cl' ∧ ¬ AtSeam ch' cl' ch cl)) ∧
    ¬ RecordsSafe (FontEnv.withFile ascii size o) size text := by
  refine ⟨recordsInside_iff ascii hsize hacc hmap text,
    fun ch cl ch' cl' h h' hne => recordsApart_iff h.2 h'.2 hne, fun hsafe => ?_⟩
  obtain ⟨base, hpos, hbase, -, -⟩ := withFile_fonts hacc hmap ascii
  have hglyph : ∀ {ch cl}, InGbk ch cl →
      HasGlyph (FontEnv.withFile ascii size o).fonts size ch cl := by
    intro ch cl hin
    refine ⟨?_, hin⟩
    rw [hbase]
    exact Nat.ne_of_gt hpos
  have hapart := hsafe.apart 0xa1 0xff 0xa2 0xa1 (hglyph (by decide)) (hglyph (by decide))
    (by decide)
  exact ((recordsApart_iff (by decide) (by decide) (by decide)).mp hapart).1 ⟨rfl, rfl, rfl⟩

/-- A font file of two bytes. -/
def tinyFile : RegOutcome := ⟨true, true, [7, 7], some 4096⟩

theorem twoRecords_fresh : MmapFresh Fonts.init (.reg size16 twoRecords) := by
  intro _ a ha
  obtain rfl := Option.some.inj ha
  decide

/-- A 7, the two codes that the file has records of, and a code without a glyph with two more 7s in
front of the NUL: all of it is inside. -/
theorem recordsSafe_iff_twoRecords :
    RecordsInside (FontEnv.withFile FontEnv.plain.ascii size16 twoRecords) size16
      [.seven, .gbk 0xa1 0xa1 (by decide) (by decide), .gbk 0xa1 0xa2 (by decide) (by decide),
        .gbk 0xaa 0xa1 (by decide) (by decide), .seven, .seven] := by
  refine (recordsSafe_iff FontEnv.plain.ascii (by decide : drawnSize 16 = some size16) (by decide)
    twoRecords_fresh _).1.mpr ⟨?_, ?_⟩
  · have hturns : textTurns (FontEnv.withFile FontEnv.plain.ascii size16 twoRecords).fonts size16
        [.seven, .gbk 0xa1 0xa1 (by decide) (by decide), .gbk 0xa1 0xa2 (by decide) (by decide),
          .gbk 0xaa 0xa1 (by decide) (by decide), .seven, .seven] =
        [.ascii 0x37, .code 0xa1 0xa1, .code 0xa1 0xa2, .unknown] := by decide
    rw [hturns]
    intro ch cl hcode
    simp only [List.mem_cons, Turn.code.injEq, reduceCtorEq, List.not_mem_nil, or_false,
      false_or] at hcode
    obtain ⟨rfl, rfl⟩ | ⟨rfl, rfl⟩ := hcode <;> decide
  · intro hdiv
    refine absurd ?_ hdiv
    exact .ascii (by decide) (.code (by decide) (.code (by decide)
      (.unknown (by decide) (by decide) .nil)))

/-- The first code's record is read behind the end of the tiny file. A code without a glyph makes the
scan go on behind the text, where it may find the same code. And the last code of row `a1` shares its
record with the first one of row `a2`. -/
theorem not_recordsSafe_tinyFile :
    ¬ RecordsInside (FontEnv.withFile FontEnv.plain.ascii size16 tinyFile) size16
        [.gbk 0xa1 0xa1 (by decide) (by decide)] ∧
      ¬ RecordsInside (FontEnv.withFile FontEnv.plain.ascii size16 tinyFile) size16
        [.gbk 0xaa 0xa1 (by decide) (by decide)] ∧
      ¬ RecordsSafe (FontEnv.withFile FontEnv.plain.ascii size16 tinyFile) size16 [.seven] := by
  have hsize : drawnSize 16 = some size16 := by decide
  have hcode : HasGlyph (FontEnv.withFile FontEnv.plain.ascii size16 tinyFile).fonts size16 0xa1
      0xa1 := by decide
  have hin : ∀ {text : List Character} (after : List UInt8),
      RecordsInside (FontEnv.withFile FontEnv.plain.ascii size16 tinyFile) size16 text →
      Finds (FontEnv.withFile FontEnv.plain.ascii size16 tinyFile) size16 (· = .code 0xa1 0xa1)
        (textMemory text after) → False := by
    intro text after h hfinds
    have hend := h.ends (m := ⟨4096, [7, 7]⟩) hsize rfl rfl hfinds rfl
    exact absurd hend (by decide)
  refine ⟨fun h => ?_, fun h => ?_, fun h => ?_⟩
  · exact hin [] h (finds_code hcode)
  · exact hin [0, 0xa1, 0xa1, 0] h
      (Finds.unknown (by decide) (by decide) (finds_code hcode))
  · exact absurd (h.apart 0xa1 0xff 0xa2 0xa1 (by decide) (by decide) (by decide))
      (show ¬ (_ ∨ _) by decide)

end Text

end MaixSpeech.Font
