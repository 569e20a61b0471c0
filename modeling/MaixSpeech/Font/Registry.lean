import MaixSpeech.Common.Runs
import Mathlib.Algebra.Order.Ring.Int
import Mathlib.Data.Fintype.Basic
import Mathlib.Data.List.Pairwise
import Mathlib.Logic.Function.Basic
import Mathlib.Tactic.FinCases

/-!
# The font registry

Reference: `components/utils/src/font.c`.

`font.c` keeps eight slots, one per font size: `font_buf` holds the address of the mapped font file
and `font_fsize` its length. `fontReg` fills a slot, `fontUnreg` empties it, and `fontGetGbk` looks
a glyph up in it. The kernel's memory map is part of the state: `live` lists the mappings made and
not yet unmapped, so that a pointer can be compared with what it points into.

`fontReg` stores the result of `mmap` in the slot before testing it, and leaves it there when it is
`MAP_FAILED`. `fontRegistry_safe_iff` shows that this is the only way the registry goes wrong.
-/

namespace MaixSpeech.Font

open Common

/-! ## Sizes, mappings and the state -/

/-- A font size the registry has a slot for: a multiple of 8 from 8 to 64. -/
structure FontSize where
  px : ℕ
  dvd : 8 ∣ px
  lower : 8 ≤ px
  upper : px ≤ 64
deriving DecidableEq

/-- `SIZE2IDX`. -/
def FontSize.idx (size : FontSize) : Fin 8 :=
  ⟨size.px / 8 - 1, by have := size.lower; have := size.upper; omega⟩

/-- A file mapped into memory: where, and its bytes. -/
structure Mapping where
  base : ℕ
  bytes : List UInt8
deriving DecidableEq

/-- Two mappings share no address. -/
def Mapping.Apart (m n : Mapping) : Prop :=
  m.base + m.bytes.length ≤ n.base ∨ n.base + n.bytes.length ≤ m.base

instance (m n : Mapping) : Decidable (m.Apart n) := inferInstanceAs (Decidable (_ ∨ _))

instance : Std.Symm Mapping.Apart := ⟨fun _ _ h => Or.symm h⟩

/-- `MAP_FAILED`, that is `(void*)-1`. -/
def mapFailed : ℕ := 2 ^ 64 - 1

/-- The registry and the mappings that back it. -/
structure Fonts where
  fontBuf : Fin 8 → ℕ
  fontFsize : Fin 8 → ℕ
  live : List Mapping

/-- The registry at program start. -/
def Fonts.init : Fonts := ⟨fun _ => 0, fun _ => 0, []⟩

/-! ## The operations -/

/-- What the system calls of one `font_reg` answer: whether `open` and `fstat` succeed, the file's
contents, and the address `mmap` returns (`none` for `MAP_FAILED`). -/
structure RegOutcome where
  opened : Bool
  statted : Bool
  file : List UInt8
  mapped : Option ℕ
deriving DecidableEq

/-- `font_reg`: the new state and the return value. -/
def fontReg (s : Fonts) (size : FontSize) (o : RegOutcome) : Fonts × ℤ :=
  if s.fontBuf size.idx ≠ 0 then (s, -1)
  else if o.opened = false then (s, -1)
  else if o.statted = false then (s, -1)
  else
    -- the slot takes the result of `mmap` before it is tested
    let s := { s with
      fontBuf := Function.update s.fontBuf size.idx (o.mapped.getD mapFailed)
      live := (o.mapped.map fun a => Mapping.mk a o.file).toList ++ s.live }
    if s.fontBuf size.idx = mapFailed then (s, -1)
    else ({ s with fontFsize := Function.update s.fontFsize size.idx o.file.length }, 0)

/-- `munmap`: the mappings inside `[addr, addr + len)` go. -/
def munmap (live : List Mapping) (addr len : ℕ) : List Mapping :=
  live.filter fun m => ¬ (addr ≤ m.base ∧ m.base + m.bytes.length ≤ addr + len)

/-- `font_unreg`. -/
def fontUnreg (s : Fonts) (size : FontSize) : Fonts :=
  if s.fontBuf size.idx = 0 then s
  else
    { fontBuf := Function.update s.fontBuf size.idx 0
      fontFsize := Function.update s.fontFsize size.idx 0
      live := munmap s.live (s.fontBuf size.idx) (s.fontFsize size.idx) }

/-- Where the record of the code `(ch, cl)` lies in a font file of this size. -/
def gbkOffset (size : FontSize) (ch cl : UInt8) : ℕ :=
  ((ch.toNat - 0xa1) * 94 + (cl.toNat - 0xa1)) * (size.px * size.px / 8)

/-- The codes `_font_get_gbk` looks up. -/
def InGbk (ch cl : UInt8) : Prop :=
  ¬ (ch < 0xa1 ∨ cl < 0xa1 ∨ 0xf7 < ch ∨ (0xaa ≤ ch ∧ ch ≤ 0xaf))

instance (ch cl : UInt8) : Decidable (InGbk ch cl) := inferInstanceAs (Decidable (¬ _))

/-- `_font_get_gbk` on the bytes from `data` on: the address of the glyph, `some none` for `NULL`.
The result is `none` when it reads past these bytes. -/
def fontGetGbk (s : Fonts) (size : FontSize) (data : List UInt8) : Option (Option ℕ) :=
  if s.fontBuf size.idx = 0 then some none
  else
    match data with
    | ch :: cl :: _ =>
      if InGbk ch cl then some (some (s.fontBuf size.idx + gbkOffset size ch cl))
      else some none
    | _ => none

/-! ## Runs of the registry -/

/-- One call of the registry's interface. -/
inductive FontOp where
  | reg (size : FontSize) (o : RegOutcome)
  | unreg (size : FontSize)

/-- The size a call is about. -/
def FontOp.size : FontOp → FontSize
  | .reg size _ => size
  | .unreg size => size

/-- The state after one call. -/
def fontStep (s : Fonts) : FontOp → Fonts
  | .reg size o => (fontReg s size o).1
  | .unreg size => fontUnreg s size

/-- A valid answer of `mmap` for this file: a fresh, non-empty range of addresses. -/
def FreshMapping (s : Fonts) (o : RegOutcome) (a : ℕ) : Prop :=
  0 < a ∧ a + o.file.length ≤ mapFailed ∧ o.file ≠ [] ∧ ∀ m ∈ s.live, (Mapping.mk a o.file).Apart m

instance (s : Fonts) (o : RegOutcome) (a : ℕ) : Decidable (FreshMapping s o a) :=
  inferInstanceAs (Decidable (_ ∧ _ ∧ _ ∧ ∀ m ∈ s.live, _))

/-- The call gets as far as `mmap`. -/
def ReachesMmap (s : Fonts) (size : FontSize) (o : RegOutcome) : Prop :=
  s.fontBuf size.idx = 0 ∧ o.opened = true ∧ o.statted = true

/-- The kernel's part: a `mmap` that does not fail returns a fresh mapping. -/
def MmapFresh (s : Fonts) : FontOp → Prop
  | .reg size o => ReachesMmap s size o → ∀ a, o.mapped = some a → FreshMapping s o a
  | .unreg _ => True

/-- The call reaches `mmap`, and `mmap` returns `MAP_FAILED`. -/
def MmapFails (s : Fonts) : FontOp → Prop
  | .reg size o => ReachesMmap s size o ∧ o.mapped = none
  | .unreg _ => False

/-- Every slot is empty, or holds a live mapping and its exact length. -/
def SlotsSound (s : Fonts) : Prop :=
  ∀ i, (s.fontBuf i = 0 ∧ s.fontFsize i = 0) ∨
    ∃ m ∈ s.live, m.base = s.fontBuf i ∧ m.bytes.length = s.fontFsize i

/-- A failing `font_reg` leaves both tables as they were. -/
def FailureAtomic (s : Fonts) : FontOp → Prop
  | .reg size o => (fontReg s size o).2 = -1 →
      (fontReg s size o).1.fontBuf = s.fontBuf ∧ (fontReg s size o).1.fontFsize = s.fontFsize
  | .unreg _ => True

/-- Every glyph pointer the lookup hands to `font_draw` is an offset from the base of a live
mapping, the one of its slot. -/
def GlyphsMapped (s : Fonts) : Prop :=
  ∀ size data p, fontGetGbk s size data = some (some p) →
    ∃ m ∈ s.live, m.base = s.fontBuf size.idx ∧ m.bytes.length = s.fontFsize size.idx ∧
      ∃ ch cl, p = m.base + gbkOffset size ch cl

/-- A `font_reg` that fails on an empty slot can be retried: after any calls about other sizes, a
file that opens and maps is accepted. -/
def RetrySucceeds (s : Fonts) (ops : List FontOp) : Prop :=
  ∀ pre size o mid, pre ++ .reg size o :: mid <+: ops →
    (run fontStep s pre).fontBuf size.idx = 0 →
    (fontReg (run fontStep s pre) size o).2 = -1 →
    (∀ op ∈ mid, op.size.idx ≠ size.idx) →
    ∀ o' a, o'.opened = true → o'.statted = true → o'.mapped = some a →
      FreshMapping (run fontStep s (pre ++ .reg size o :: mid)) o' a →
      (fontReg (run fontStep s (pre ++ .reg size o :: mid)) size o').2 = 0

/-- The registry is safe over a run. -/
structure RegistrySafe (s : Fonts) (ops : List FontOp) : Prop where
  slots : Always fontStep SlotsSound s ops
  atomic : Along fontStep FailureAtomic s ops
  retry : RetrySucceeds s ops
  glyphs : Always fontStep GlyphsMapped s ops

/-! ## What one call does -/

section Steps

variable {s : Fonts} {size : FontSize} {o : RegOutcome}

/-- A call that does not reach `mmap` fails and changes nothing. -/
theorem fontReg_of_not_reaches (h : ¬ ReachesMmap s size o) : fontReg s size o = (s, -1) := by
  unfold fontReg
  split_ifs with h1 h2 h3
  · rfl
  · rfl
  · rfl
  · exact absurd ⟨not_not.mp h1, by simpa using h2, by simpa using h3⟩ h

/-- A call whose `mmap` fails returns -1 with `MAP_FAILED` in the slot. -/
theorem fontReg_of_mmap_fails (h : ReachesMmap s size o) (hm : o.mapped = none) :
    fontReg s size o =
      ({ s with fontBuf := Function.update s.fontBuf size.idx mapFailed }, -1) := by
  obtain ⟨h1, h2, h3⟩ := h
  simp [fontReg, h1, h2, h3, hm]

/-- A call whose `mmap` returns a fresh mapping fills the slot. -/
theorem fontReg_of_mapped (h : ReachesMmap s size o) {a : ℕ} (hm : o.mapped = some a)
    (ha : FreshMapping s o a) :
    fontReg s size o =
      ({ fontBuf := Function.update s.fontBuf size.idx a
         fontFsize := Function.update s.fontFsize size.idx o.file.length
         live := ⟨a, o.file⟩ :: s.live }, 0) := by
  obtain ⟨h1, h2, h3⟩ := h
  have hlen : 0 < o.file.length := List.length_pos_iff.mpr ha.2.2.1
  have hne : a ≠ mapFailed := by have := ha.2.1; omega
  simp [fontReg, h1, h2, h3, hm, hne]

/-- A call leaves the slots of the other sizes alone. -/
theorem fontStep_fontBuf_of_ne (op : FontOp) {i : Fin 8} (h : op.size.idx ≠ i) :
    (fontStep s op).fontBuf i = s.fontBuf i := by
  cases op with
  | reg size o =>
    have hi : i ≠ size.idx := fun e => h e.symm
    simp only [fontStep, fontReg]
    split_ifs <;> simp [Function.update_of_ne hi]
  | unreg size =>
    have hi : i ≠ size.idx := fun e => h e.symm
    simp only [fontStep, fontUnreg]
    split_ifs <;> simp [Function.update_of_ne hi]

theorem run_fontBuf_of_ne {ops : List FontOp} {i : Fin 8} (h : ∀ op ∈ ops, op.size.idx ≠ i) :
    (run fontStep s ops).fontBuf i = s.fontBuf i := by
  induction ops generalizing s with
  | nil => rfl
  | cons op ops ih =>
    rw [run_cons, ih fun op' hop' => h op' (by simp [hop']),
      fontStep_fontBuf_of_ne op (h op (by simp))]

end Steps

/-! ## The registry invariant -/

/-- The invariant of the registry: the slots are sound, the mappings are non-empty ranges away from
`NULL` and `MAP_FAILED` and from one another, and no two slots share one. -/
structure RegistryInv (s : Fonts) : Prop where
  slots : SlotsSound s
  range : ∀ m ∈ s.live, 0 < m.base ∧ m.bytes ≠ [] ∧ m.base + m.bytes.length ≤ mapFailed
  apart : s.live.Pairwise Mapping.Apart
  inj : ∀ i j, s.fontBuf i ≠ 0 → s.fontBuf i = s.fontBuf j → i = j

theorem registryInv_init : RegistryInv Fonts.init where
  slots := fun _ => Or.inl ⟨rfl, rfl⟩
  range := fun m hm => absurd hm (by simp [Fonts.init])
  apart := List.Pairwise.nil
  inj := fun i j h => absurd rfl h

section Invariant

variable {s : Fonts} {size : FontSize} {o : RegOutcome}

/-- Filling an empty slot with a fresh mapping keeps the invariant. -/
theorem RegistryInv.fill (h : RegistryInv s) (i : Fin 8) {a : ℕ} (ha : FreshMapping s o a) :
    RegistryInv
      { fontBuf := Function.update s.fontBuf i a
        fontFsize := Function.update s.fontFsize i o.file.length
        live := ⟨a, o.file⟩ :: s.live } := by
  obtain ⟨hpos, hle, hne, hap⟩ := ha
  -- no other slot can hold the fresh address
  have hfresh : ∀ j, s.fontBuf j ≠ a := by
    intro j hj
    rcases h.slots j with ⟨h0, -⟩ | ⟨m, hm, hb, -⟩
    · omega
    · have hm1 := List.length_pos_iff.mpr (h.range m hm).2.1
      have ho1 := List.length_pos_iff.mpr hne
      have hmb : m.base = a := hb.trans hj
      rcases hap m hm with hd | hd <;> simp only at hd <;> omega
  refine ⟨?_, ?_, List.pairwise_cons.mpr ⟨hap, h.apart⟩, ?_⟩
  · intro j
    by_cases hj : j = i
    · subst hj
      exact Or.inr ⟨⟨a, o.file⟩, by simp, by simp, by simp⟩
    · simp only [Function.update_of_ne hj]
      rcases h.slots j with h0 | ⟨m, hm, hb, hl⟩
      · exact Or.inl h0
      · exact Or.inr ⟨m, by simp [hm], hb, hl⟩
  · intro m hm
    rcases List.mem_cons.mp hm with rfl | hm
    · exact ⟨hpos, hne, hle⟩
    · exact h.range m hm
  · intro j k hj hjk
    dsimp only at hj hjk
    by_cases hji : j = i <;> by_cases hki : k = i
    · rw [hji, hki]
    · subst hji
      rw [Function.update_self, Function.update_of_ne hki] at hjk
      exact absurd hjk.symm (hfresh k)
    · subst hki
      rw [Function.update_self, Function.update_of_ne hji] at hjk
      exact absurd hjk (hfresh j)
    · rw [Function.update_of_ne hji] at hj
      rw [Function.update_of_ne hji, Function.update_of_ne hki] at hjk
      exact h.inj j k hj hjk

/-- Unmapping one slot's mapping keeps the mapping of every other slot. -/
theorem RegistryInv.mem_munmap (h : RegistryInv s) {i j : Fin 8} (hij : j ≠ i)
    (hi : s.fontBuf i ≠ 0) {m : Mapping} (hm : m ∈ s.live) (hb : m.base = s.fontBuf j) :
    m ∈ munmap s.live (s.fontBuf i) (s.fontFsize i) := by
  obtain ⟨n, hn, hnb, hnl⟩ := (h.slots i).resolve_left fun h0 => hi h0.1
  have hne : m ≠ n := by
    rintro rfl
    exact hij (h.inj i j hi (hnb.symm.trans hb)).symm
  have hap : m.Apart n := h.apart.forall hm hn hne
  have hm1 := List.length_pos_iff.mpr (h.range m hm).2.1
  simp only [munmap, List.mem_filter, hm, true_and, decide_eq_true_eq]
  rcases hap with hap | hap <;> omega

/-- `font_unreg` keeps the invariant. -/
theorem RegistryInv.unreg (h : RegistryInv s) (size : FontSize) :
    RegistryInv (fontUnreg s size) := by
  unfold fontUnreg
  split_ifs with h0
  · exact h
  refine ⟨?_, ?_, h.apart.filter _, ?_⟩
  · intro j
    by_cases hj : j = size.idx
    · subst hj
      exact Or.inl ⟨by simp, by simp⟩
    · simp only [Function.update_of_ne hj]
      rcases h.slots j with hz | ⟨m, hm, hb, hl⟩
      · exact Or.inl hz
      · exact Or.inr ⟨m, h.mem_munmap hj h0 hm hb, hb, hl⟩
  · intro m hm
    exact h.range m (List.mem_of_mem_filter hm)
  · intro j k hj hjk
    have hji : j ≠ size.idx := by
      rintro rfl
      exact hj (by simp)
    simp only [Function.update_of_ne hji] at hj hjk
    have hki : k ≠ size.idx := by
      rintro rfl
      exact hj (by simpa using hjk)
    rw [Function.update_of_ne hki] at hjk
    exact h.inj j k hj hjk

/-- Every call whose `mmap` does not fail keeps the invariant. -/
theorem RegistryInv.step (h : RegistryInv s) (op : FontOp) (henv : MmapFresh s op)
    (hok : ¬ MmapFails s op) : RegistryInv (fontStep s op) := by
  cases op with
  | unreg size => exact h.unreg size
  | reg size o =>
    by_cases hr : ReachesMmap s size o
    · cases hm : o.mapped with
      | none => exact absurd ⟨hr, hm⟩ hok
      | some a =>
        have ha := henv hr a hm
        rw [fontStep, fontReg_of_mapped hr hm ha]
        exact h.fill size.idx ha
    · rw [fontStep, fontReg_of_not_reaches hr]
      exact h

/-- A call whose `mmap` fails leaves an unsound slot. -/
theorem RegistryInv.not_sound_of_fails (h : RegistryInv s) (op : FontOp) (hf : MmapFails s op) :
    ¬ SlotsSound (fontStep s op) := by
  cases op with
  | unreg size => exact hf.elim
  | reg size o =>
    rw [fontStep, fontReg_of_mmap_fails hf.1 hf.2]
    intro hs
    rcases hs size.idx with ⟨h0, -⟩ | ⟨m, hm, hb, -⟩
    · simp [mapFailed] at h0
    · dsimp only at hm hb
      have hlen := List.length_pos_iff.mpr (h.range m hm).2.1
      have := (h.range m hm).2.2
      rw [Function.update_self] at hb
      omega

/-- Unless its `mmap` fails, a `font_reg` that returns -1 changes nothing. -/
theorem fontReg_eq_of_fails (henv : MmapFresh s (.reg size o)) (hok : ¬ MmapFails s (.reg size o))
    (hret : (fontReg s size o).2 = -1) : (fontReg s size o).1 = s := by
  by_cases hr : ReachesMmap s size o
  · cases hm : o.mapped with
    | none => exact absurd ⟨hr, hm⟩ hok
    | some a =>
      rw [fontReg_of_mapped hr hm (henv hr a hm)] at hret
      exact absurd hret (by simp)
  · rw [fontReg_of_not_reaches hr]

/-- In a sound registry every glyph pointer is an offset into a live mapping. -/
theorem SlotsSound.glyphsMapped (h : SlotsSound s) : GlyphsMapped s := by
  intro size data p hp
  simp only [fontGetGbk] at hp
  split_ifs at hp with h0
  · simp at hp
  obtain ⟨m, hm, hb, hl⟩ := (h size.idx).resolve_left fun hz => h0 hz.1
  refine ⟨m, hm, hb, hl, ?_⟩
  match data with
  | [] => simp at hp
  | [_] => simp at hp
  | ch :: cl :: _ =>
    simp only at hp
    split_ifs at hp
    · simp only [Option.some.injEq] at hp
      exact ⟨ch, cl, by rw [hb, hp]⟩
    · simp at hp

end Invariant

/-! ## Safety over runs -/

/-- In a run whose calls meet the environment and never see `mmap` fail, a failed `font_reg` of an
empty slot can be retried. -/
theorem retrySucceeds_of_along {s : Fonts} {ops : List FontOp}
    (henv : Along fontStep MmapFresh s ops)
    (hok : Along fontStep (fun s op => ¬ MmapFails s op) s ops) : RetrySucceeds s ops := by
  intro pre size o mid hpre hnull hret hmid o' a ho hs hm ha
  obtain ⟨rest, rfl⟩ := hpre
  rw [List.append_assoc, along_append] at henv hok
  -- the failed call left the slot empty, and the calls after it are about other sizes
  have hsame : (fontReg (run fontStep s pre) size o).1 = run fontStep s pre :=
    fontReg_eq_of_fails henv.2.1 hok.2.1 hret
  have hslot : (run fontStep s (pre ++ .reg size o :: mid)).fontBuf size.idx = 0 := by
    rw [run_append, run_cons, run_fontBuf_of_ne hmid, fontStep, hsame]
    exact hnull
  rw [fontReg_of_mapped ⟨hslot, ho, hs⟩ hm ha]

/-- **The registry is safe exactly when no `mmap` fails.** Over any sequence of calls and any
answers of the kernel, the four safety properties hold if and only if no call reaches a failing
`mmap`. -/
theorem fontRegistry_safe_iff (ops : List FontOp) (henv : Along fontStep MmapFresh Fonts.init ops) :
    RegistrySafe Fonts.init ops ↔
      Along fontStep (fun s op => ¬ MmapFails s op) Fonts.init ops := by
  have hslots : Always fontStep SlotsSound Fonts.init ops ↔
      Along fontStep (fun s op => ¬ MmapFails s op) Fonts.init ops :=
    always_iff_along RegistryInv (fun s h => h.slots)
      (fun s op h he hok => h.step op he hok)
      (fun s op h _ hs hf => h.not_sound_of_fails op hf hs) registryInv_init henv
  constructor
  · exact fun h => hslots.mp h.slots
  · intro hok
    have hs := hslots.mpr hok
    refine ⟨hs, ?_, retrySucceeds_of_along henv hok,
      hs.mono fun s h => h.glyphsMapped⟩
    have hboth : Along fontStep (fun s op => MmapFresh s op ∧ ¬ MmapFails s op) Fonts.init ops :=
      henv.and hok
    refine hboth.mono fun s op h => ?_
    cases op with
    | unreg size => trivial
    | reg size o =>
      intro hret
      rw [fontReg_eq_of_fails h.1 h.2 hret]
      exact ⟨rfl, rfl⟩

/-- The 16-pixel font. -/
def size16 : FontSize := ⟨16, by decide, by decide, by decide⟩

/-- A run with a missing file, then a good one, then an unregistration. -/
theorem fontRegistry_safe_run :
    RegistrySafe Fonts.init
      [.reg size16 ⟨false, false, [], none⟩, .reg size16 ⟨true, true, [7, 7], some 4096⟩,
        .unreg size16] := by
  refine (fontRegistry_safe_iff _ ?_).mpr ?_
  · refine ⟨fun h => absurd h.2.1 (by decide), ?_, trivial, trivial⟩
    intro _ a ha
    obtain rfl := Option.some.inj ha
    decide
  · exact ⟨fun h => absurd h.1.2.1 (by decide), fun h => absurd h.2 (by decide), fun h => h,
      trivial⟩

/-- Registering an empty file, which `mmap` refuses, returns -1 and leaves `MAP_FAILED` in the
slot. -/
theorem fontRegistry_unsafe_of_empty_file :
    Along fontStep MmapFresh Fonts.init [.reg size16 ⟨true, true, [], none⟩] ∧
      (fontReg Fonts.init size16 ⟨true, true, [], none⟩).2 = -1 ∧
      (fontReg Fonts.init size16 ⟨true, true, [], none⟩).1.fontBuf size16.idx = mapFailed ∧
      ¬ RegistrySafe Fonts.init [.reg size16 ⟨true, true, [], none⟩] := by
  refine ⟨⟨fun _ a ha => absurd ha (by simp), trivial⟩, by decide, by decide, ?_⟩
  intro h
  rcases (h.slots.last) size16.idx with ⟨h0, -⟩ | ⟨m, hm, -⟩
  · exact absurd h0 (by decide)
  · exact absurd hm (by simp [fontStep, fontReg, Fonts.init])

end MaixSpeech.Font
