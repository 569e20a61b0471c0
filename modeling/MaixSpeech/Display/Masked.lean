import MaixSpeech.Display.Rows

/-!
# The masked copy

Reference: `components/utils/src/fb_display.c`.

With a mask `blit2FB` cuts every row into runs: from a pixel with alpha above `0x80` up to the next
one below it. It copies one pixel less than the run has, so the last pixel of a run never gets to
the screen: `maskHonoured_iff` says what is left of the mask's meaning.
-/

namespace MaixSpeech.Display

open Common

/-! ## Runs of a row -/

section Runs

variable {a : ℕ → UInt8} {alphaptr : ℕ → Option UInt8} {xc x m v start stop : ℕ}

/-- A run of the columns below `m`: it starts with a pixel that is copied and goes on up to one that
is not. -/
structure IsRun (a : ℕ → UInt8) (m start stop : ℕ) : Prop where
  lt : start < stop
  le : stop ≤ m
  first : 0x80 < a start
  inside : ∀ v, start < v → v < stop → 0x80 ≤ a v
  clear : stop < m → a stop < 0x80

theorem IsRun.one (h : 0x80 < a m) : IsRun a (m + 1) m (m + 1) :=
  ⟨Nat.lt_succ_self m, le_rfl, h, fun v hv hlt => absurd hlt (by omega),
    fun hlt => absurd hlt (Nat.lt_irrefl _)⟩

/-- A run that reaches up to column `m` goes on in it, -/
theorem IsRun.extend (h : IsRun a m start m) (hm : 0x80 ≤ a m) : IsRun a (m + 1) start (m + 1) := by
  refine ⟨Nat.lt_succ_of_lt h.lt, le_rfl, h.first, fun v hv hlt => ?_,
    fun hlt => absurd hlt (Nat.lt_irrefl _)⟩
  by_cases hvm : v = m
  · rwa [hvm]
  · exact h.inside v hv (by omega)

/-- or ends in front of it, -/
theorem IsRun.close (h : IsRun a m start m) (hm : a m < 0x80) : IsRun a (m + 1) start m :=
  ⟨h.lt, Nat.le_succ m, h.first, h.inside, fun _ => hm⟩

/-- and a run that has ended stays as it is. -/
theorem IsRun.succ (h : IsRun a m start stop) (hlt : stop < m) : IsRun a (m + 1) start stop :=
  ⟨h.lt, Nat.le_succ_of_le h.le, h.first, h.inside, fun _ => h.clear hlt⟩

/-- What the search from column `x` on has found in front of column `m`. -/
def Found (a : ℕ → UInt8) (x m : ℕ) : Option ℕ × Option ℕ → Prop
  | (none, stop) => stop = none ∧ ∀ v, x ≤ v → v < m → a v ≤ 0x80
  | (some start, stop) => (x ≤ start ∧ ∀ v, x ≤ v → v < start → a v ≤ 0x80) ∧
      IsRun a m start (stop.getD m) ∧ ∀ t ∈ stop, t < m

/-- **The search finds the next run**, unless no pixel is to be copied any more. -/
theorem findOpaque_spec (ha : ∀ v < xc, alphaptr v = some (a v)) (hx : x ≤ xc) :
    ∃ r, findOpaque alphaptr xc x = some r ∧ Found a x xc r := by
  suffices h : ∃ r, findOpaque alphaptr xc x = some r ∧ Found a x (x + (xc - x)) r by
    rwa [Nat.add_sub_cancel' hx] at h
  apply forLoop_spec fun k => Found a x (x + k)
  · exact ⟨rfl, fun v hv hlt => absurd hlt (by omega)⟩
  rintro k ⟨start, stop⟩ hk hinv
  have hload : alphaptr (x + k) = some (a (x + k)) := ha _ (by omega)
  cases start with
  | none =>
    obtain ⟨rfl, hnone⟩ := hinv
    by_cases hopaque : 0x80 < a (x + k)
    · exact ⟨(some (x + k), none), by simp [hload, hopaque], ⟨Nat.le_add_right x k, hnone⟩,
        .one hopaque, fun t ht => by cases ht⟩
    · refine ⟨(none, none), by simp [hload, hopaque], rfl, fun v hv hlt => ?_⟩
      by_cases hvk : v = x + k
      · rw [hvk]
        exact UInt8.not_lt.mp hopaque
      · exact hnone v hv (by omega)
  | some start =>
    obtain ⟨hstart, hrun, hstop⟩ := hinv
    cases stop with
    | some stop =>
      have hlt : stop < x + k := hstop stop rfl
      exact ⟨(some start, some stop), rfl, hstart, hrun.succ hlt, fun t ht =>
        (hstop t ht).trans (Nat.lt_succ_self _)⟩
    | none =>
      by_cases hclear : a (x + k) < 0x80
      · refine ⟨(some start, some (x + k)), by simp [hload, hclear], hstart, hrun.close hclear,
          fun t ht => ?_⟩
        obtain rfl := Option.some.inj ht
        exact Nat.lt_succ_self _
      · exact ⟨(some start, none), by simp [hload, hclear], hstart,
          hrun.extend (UInt8.not_lt.mp hclear), fun t ht => by cases ht⟩

/-! ## The pixels that are written -/

/-- Pixel `v` is copied by a search that starts in column `x`: from some pixel on that starts a run
nothing ends it up to the pixel behind `v`, and that is still in the row. -/
def Copied (a : ℕ → UInt8) (xc x v : ℕ) : Prop :=
  v + 1 < xc ∧ ∃ u, x ≤ u ∧ u ≤ v ∧ 0x80 < a u ∧ ∀ w, u < w → w ≤ v + 1 → 0x80 ≤ a w

/-- A pixel to be copied is copied unless the run ends behind it. -/
theorem copied_iff (hv : 0x80 < a v) : Copied a xc 0 v ↔ v + 1 < xc ∧ 0x80 ≤ a (v + 1) := by
  constructor
  · rintro ⟨hlt, u, -, hu, -, hinside⟩
    exact ⟨hlt, hinside _ (by omega) le_rfl⟩
  · rintro ⟨hlt, hnext⟩
    refine ⟨hlt, v, Nat.zero_le v, le_rfl, hv, fun w hw hle => ?_⟩
    obtain rfl : w = v + 1 := by omega
    exact hnext

theorem not_copied_of_clear (hv : a v < 0x80) : ¬ Copied a xc x v := by
  rintro ⟨-, u, -, hu, hopaque, hinside⟩
  by_cases huv : u = v
  · rw [huv] at hopaque
    exact UInt8.lt_irrefl _ (UInt8.lt_trans hopaque hv)
  · exact absurd (hinside v (by omega) (by omega)) (UInt8.not_le.mpr hv)

theorem not_copied_of_none (h : ∀ v, x ≤ v → v < xc → a v ≤ 0x80) (v : ℕ) : ¬ Copied a xc x v := by
  rintro ⟨hlt, u, hx, hu, hopaque, -⟩
  exact absurd hopaque (UInt8.not_lt.mpr (h u hx (by omega)))

/-- **One turn copies a run but its last pixel**, and no later run is passed over: the search does
not go on behind the end of this one. -/
theorem copied_iff_of_run (h : IsRun a xc start stop) (hx : x ≤ start)
    (hfirst : ∀ v, x ≤ v → v < start → a v ≤ 0x80) :
    Copied a xc x v ↔ (start ≤ v ∧ v + 1 < stop) ∨ Copied a xc (x + (stop - start - 1) + 1) v := by
  have hlt := h.lt
  have hle := h.le
  constructor
  · rintro ⟨hv, u, hxu, huv, hopaque, hinside⟩
    by_cases hstop : stop ≤ u
    · exact Or.inr ⟨hv, u, by omega, huv, hopaque, hinside⟩
    · have hstart : start ≤ u := by
        by_contra hlt
        exact absurd hopaque (UInt8.not_lt.mpr (hfirst u hxu (by omega)))
      refine Or.inl ⟨by omega, ?_⟩
      by_contra hend
      exact absurd (hinside stop (by omega) (by omega)) (UInt8.not_le.mpr (h.clear (by omega)))
  · rintro (⟨hstart, hstop⟩ | ⟨hv, u, hxu, huv, hopaque, hinside⟩)
    · exact ⟨by omega, start, hx, hstart, h.first, fun w hw hle => h.inside w hw (by omega)⟩
    · exact ⟨hv, u, by omega, huv, hopaque, hinside⟩

end Runs

/-! ## One row -/

section Row

variable {n mapLen dst src cpp xc x fuel : ℕ} {fbbuff : List UInt8} {fb fb' : Arr UInt8 n}
  {a : ℕ → UInt8} {alphaptr : ℕ → Option UInt8}

/-- The bytes of these pixels of a row that starts at `dst`. -/
def RowBytes (dst cpp : ℕ) (pixels : ℕ → Prop) (j : ℤ) : Prop :=
  ∃ v, pixels v ∧ ∃ k < cpp, j = (dst + (v * cpp + k) : ℕ)

/-- Pixels one after the other are bytes one after the other. -/
theorem rowBytes_interval (hcpp : 0 < cpp) {start stop : ℕ} (j : ℤ) :
    RowBytes dst cpp (fun v => start ≤ v ∧ v + 1 < stop) j ↔
      ∃ b < (stop - start - 1) * cpp, j = (dst + start * cpp + b : ℕ) := by
  constructor
  · rintro ⟨v, ⟨hv, hlt⟩, k, hk, rfl⟩
    obtain ⟨i, rfl⟩ := Nat.exists_eq_add_of_le hv
    refine ⟨i * cpp + k, cell_lt (by omega) hk, ?_⟩
    rw [Nat.add_mul]
    omega
  · rintro ⟨b, hb, rfl⟩
    obtain ⟨i, hi⟩ : ∃ i, b / cpp = i := ⟨_, rfl⟩
    have hlt : i < stop - start - 1 := hi ▸ (Nat.div_lt_iff_lt_mul hcpp).mpr hb
    have hdiv := Nat.div_add_mod' b cpp
    rw [hi] at hdiv
    refine ⟨start + i, ⟨by omega, by omega⟩, b % cpp, Nat.mod_lt b hcpp, ?_⟩
    rw [Nat.add_mul]
    omega

/-- What is copied of a run gets through. -/
theorem copyRow_of_run {start stop : ℕ} (hmap : mapLen ≤ n) (hdst : dst + xc * cpp ≤ mapLen)
    (hsrc : src + xc * cpp ≤ fbbuff.length) (hlt : start < stop) (hle : stop ≤ xc)
    (fb : Arr UInt8 n) :
    ∃ fb', copyRow fb mapLen (dst + start * cpp) fbbuff (src + start * cpp)
      ((stop - start - 1) * cpp) = some fb' := by
  rcases Nat.eq_zero_or_pos ((stop - start - 1) * cpp) with hzero | hpos
  · exact ⟨fb, if_pos hzero⟩
  · have hend : (start + (stop - start - 1)) * cpp ≤ xc * cpp := Nat.mul_le_mul_right _ (by omega)
    rw [Nat.add_mul] at hend
    exact (RowCopy.copyRow_isSome_iff fb fbbuff hmap hpos).mpr ⟨by omega, by omega⟩

/-- A turn copies its run, without an `int` overflow in a row of this length, and goes on. -/
theorem copyMasked_of_run {start : ℕ} {stop : Option ℕ} (hx : x < xc)
    (hfind : findOpaque alphaptr xc x = some (some start, stop)) (hlt : start < stop.getD xc)
    (hle : stop.getD xc ≤ xc) (hrow : xc * cpp < 2 ^ 31) (fb : Arr UInt8 n) :
    copyMasked mapLen dst fbbuff src alphaptr xc cpp (fuel + 1) x fb =
      (copyRow fb mapLen (dst + start * cpp) fbbuff (src + start * cpp)
        ((stop.getD xc - start - 1) * cpp)).bind
        (copyMasked mapLen dst fbbuff src alphaptr xc cpp fuel
          (x + (stop.getD xc - start - 1) + 1)) := by
  have hofs : start * cpp ≤ xc * cpp := Nat.mul_le_mul_right _ (by omega)
  have hlen : (stop.getD xc - start - 1) * cpp ≤ xc * cpp := Nat.mul_le_mul_right _ (by omega)
  have hdiff : ((stop.getD xc : ℤ) - start - 1) * cpp = ((stop.getD xc - start - 1) * cpp : ℕ) := by
    rw [Nat.cast_mul]
    congr 1
    omega
  rw [copyMasked, if_pos hx, hfind, Option.bind_some]
  simp only [← Nat.cast_mul, hdiff, intSize_of_lt (hofs.trans_lt hrow),
    intSize_of_lt (hlen.trans_lt hrow), Option.bind_some]

/-- What a run's copy and the rest of the row write together. -/
theorem writes_of_run {fb₁ fb₂ : Arr UInt8 n} {start stop : ℕ} (hcpp : 0 < cpp)
    (hrun : IsRun a xc start stop) (hx : x ≤ start) (hfirst : ∀ v, x ≤ v → v < start → a v ≤ 0x80)
    (hcopy : copyRow fb mapLen (dst + start * cpp) fbbuff (src + start * cpp)
      ((stop - start - 1) * cpp) = some fb₁)
    (hrest : Arr.Writes (RowBytes dst cpp (Copied a xc (x + (stop - start - 1) + 1)))
      (fun j => fbbuff[src + (j - dst).toNat]?) fb₁ fb₂) :
    Arr.Writes (RowBytes dst cpp (Copied a xc x)) (fun j => fbbuff[src + (j - dst).toNat]?) fb
      fb₂ := by
  have hmove : ∀ j : ℤ, (∃ b < (stop - start - 1) * cpp, j = (dst + start * cpp + b : ℕ)) →
      fbbuff[src + start * cpp + (j - (dst + start * cpp : ℕ)).toNat]? =
        fbbuff[src + (j - dst).toNat]? := by
    rintro _ ⟨b, -, rfl⟩
    congr 1
    omega
  refine ((RowCopy.copyRow_writes hcopy).congr
    (fun j => (rowBytes_interval hcpp j).symm) hmove).trans hrest fun j => ?_
  simp only [RowBytes, copied_iff_of_run hrun hx hfirst, or_and_right, exists_or]

/-- **A masked row**: it gets through, and writes the pixels that are copied. -/
theorem copyMasked_spec (ha : ∀ v < xc, alphaptr v = some (a v)) (hcpp : 0 < cpp)
    (hrow : xc * cpp < 2 ^ 31) (hmap : mapLen ≤ n) (hdst : dst + xc * cpp ≤ mapLen)
    (hsrc : src + xc * cpp ≤ fbbuff.length) (hx : x ≤ xc) (hfuel : xc < x + fuel)
    (fb : Arr UInt8 n) :
    ∃ fb', copyMasked mapLen dst fbbuff src alphaptr xc cpp fuel x fb = some fb' ∧
      Arr.Writes (RowBytes dst cpp (Copied a xc x)) (fun j => fbbuff[src + (j - dst).toNat]?) fb
        fb' := by
  induction fuel generalizing x fb with
  | zero => exact absurd hfuel (by omega)
  | succ fuel ih =>
    by_cases hlt : x < xc
    · obtain ⟨⟨start, stop⟩, hfind, hfound⟩ := findOpaque_spec ha hx
      cases start with
      | none =>
        rw [copyMasked, if_pos hlt, hfind, Option.bind_some]
        refine ⟨fb, rfl, .refl ?_⟩
        rintro j ⟨v, hv, -⟩
        exact not_copied_of_none hfound.2 v hv
      | some start =>
        obtain ⟨⟨hstart, hfirst⟩, hrun, -⟩ := hfound
        have hrunLt := hrun.lt
        have hrunLe := hrun.le
        obtain ⟨fb₁, hcopy⟩ := copyRow_of_run hmap hdst hsrc hrunLt hrunLe fb
        -- the search goes on in front of the run's end, so the row's length bounds the turns
        obtain ⟨fb₂, hrest, hwrites⟩ :=
          ih (x := x + (stop.getD xc - start - 1) + 1) (by omega) (by omega) fb₁
        refine ⟨fb₂, ?_, writes_of_run hcpp hrun hstart hfirst hcopy hwrites⟩
        rw [copyMasked_of_run hlt hfind hrunLt hrunLe hrow, hcopy, Option.bind_some, hrest]
    · rw [copyMasked, if_neg hlt]
      refine ⟨fb, rfl, .refl ?_⟩
      rintro j ⟨v, ⟨hv, u, hxu, huv, -⟩, -⟩
      omega

end Row

/-! ## The masked picture -/

/-- A masked call without pan at offsets in range. The screen is inside the framebuffer's memory,
whose size is a `__u32`, and its rows have a length in `int`, as `Screen.xStride_mul_cpp_lt` has it
for `fb_display`; picture and mask have a pixel and a byte for every pixel. -/
structure MaskedCall where
  d : Depth
  memLen : ℕ
  fb : Arr UInt8 memLen
  fbbuff : List UInt8
  mask : List UInt8
  picXs : ℕ
  picYs : ℕ
  scrXs : ℕ
  scrYs : ℕ
  xoffs : ℕ
  yoffs : ℕ
  memLen_lt : memLen < 2 ^ 32
  screen_le : scrXs * scrYs * d.cpp ≤ memLen
  row_lt : scrXs * d.cpp < 2 ^ 31
  picture_le : picXs * picYs * d.cpp ≤ fbbuff.length
  mask_le : picXs * picYs ≤ mask.length
  xoffs_le : xoffs + min picXs scrXs ≤ scrXs
  yoffs_le : yoffs + min picYs scrYs ≤ scrYs

namespace MaskedCall

variable (c : MaskedCall) {j v k : ℕ}

def run : Option (Arr UInt8 c.memLen) :=
  blit2FB c.fb c.fbbuff (some fun i => c.mask[i]?) c.picXs c.picYs c.scrXs c.scrYs 0 0 c.xoffs
    c.yoffs c.d.cpp

/-- The columns of the clipped area. -/
def xc : ℕ := min c.picXs c.scrXs

/-- The rows of the clipped area. -/
def yc : ℕ := min c.picYs c.scrYs

/-- The mask's value for a pixel of the picture. -/
def alpha (j v : ℕ) : UInt8 := c.mask.getD (j * c.picXs + v) 0

/-- A byte of a pixel of the picture. -/
def pixel (j v k : ℕ) : Option UInt8 := c.fbbuff[(j * c.picXs + v) * c.d.cpp + k]?

/-- Its place on the screen. -/
def place (j v k : ℕ) : ℕ := ((c.yoffs + j) * c.scrXs + (c.xoffs + v)) * c.d.cpp + k

/-- `fb'` is the screen with the picture where the mask is above `0x80`. -/
structure HonoursMask (fb' : Arr UInt8 c.memLen) : Prop where
  solid : ∀ j < c.yc, ∀ v < c.xc, 0x80 < c.alpha j v → ∀ k < c.d.cpp,
    fb'.load (c.place j v k) = c.pixel j v k
  clear : ∀ j < c.yc, ∀ v < c.xc, c.alpha j v < 0x80 → ∀ k < c.d.cpp,
    fb'.load (c.place j v k) = c.fb.load (c.place j v k)
  outside : ∀ b : ℤ, (∀ j < c.yc, ∀ v < c.xc, ∀ k < c.d.cpp, b ≠ c.place j v k) →
    fb'.load b = c.fb.load b

/-- The rows `blit2FB` counts: `yc` is an `int` there. -/
def rows : ℕ := (asInt c.yc).toNat

/-- The byte `blit2FB` reads for a byte of a pixel: the rows' length is an `unsigned int` there. -/
def source (j v k : ℕ) : Option UInt8 := c.fbbuff[j * u32 (c.picXs * c.d.cpp) + (v * c.d.cpp + k)]?

theorem alpha_eq (hj : j < c.yc) (hv : v < c.xc) :
    c.mask[j * c.picXs + v]? = some (c.alpha j v) := by
  have hlt : j * c.picXs + v < c.picYs * c.picXs :=
    rowMajor_lt (hj.trans_le (min_le_left _ _)) (hv.trans_le (min_le_left _ _))
  have hmask := c.mask_le
  rw [Nat.mul_comm] at hmask
  rw [alpha, List.getD_eq_getElem?_getD, List.getElem?_eq_getElem (by omega), Option.getD_some]

theorem place_eq (j v k : ℕ) : c.place j v k = c.place j 0 0 + (v * c.d.cpp + k) := by
  simp only [place]
  ring

/-- A row of the area is inside the screen. -/
theorem place_le (hj : j < c.yc) :
    c.place j 0 0 + c.xc * c.d.cpp ≤ c.scrXs * c.scrYs * c.d.cpp := by
  have hrow : (c.yoffs + j + 1) * c.scrXs ≤ c.scrYs * c.scrXs :=
    Nat.mul_le_mul_right _ ((Nat.add_lt_add_left hj _).trans_le c.yoffs_le)
  rw [Nat.succ_mul] at hrow
  have hx : c.xoffs + c.xc ≤ c.scrXs := c.xoffs_le
  calc c.place j 0 0 + c.xc * c.d.cpp
      = ((c.yoffs + j) * c.scrXs + (c.xoffs + c.xc)) * c.d.cpp := by rw [place]; ring
    _ ≤ c.scrXs * c.scrYs * c.d.cpp := Nat.mul_le_mul_right _ (by rw [Nat.mul_comm c.scrXs]; omega)

/-- A row of the area is inside the picture, wherever its start wraps to. -/
theorem source_le (hj : j < c.yc) :
    j * u32 (c.picXs * c.d.cpp) + c.xc * c.d.cpp ≤ c.fbbuff.length := by
  have hwrap : j * u32 (c.picXs * c.d.cpp) ≤ j * (c.picXs * c.d.cpp) :=
    Nat.mul_le_mul_left _ (Nat.mod_le _ _)
  have hcols : c.xc * c.d.cpp ≤ c.picXs * c.d.cpp := Nat.mul_le_mul_right _ (min_le_left _ _)
  have hrow : (j + 1) * (c.picXs * c.d.cpp) ≤ c.picYs * (c.picXs * c.d.cpp) :=
    Nat.mul_le_mul_right _ (hj.trans_le (min_le_left _ _))
  have harea : c.picXs * c.picYs * c.d.cpp = c.picYs * (c.picXs * c.d.cpp) := by ring
  have hlen := c.picture_le
  rw [Nat.succ_mul] at hrow
  omega

theorem rows_le : c.rows ≤ c.yc := by
  rw [rows, asInt, u32]
  have hmod := Nat.mod_le c.yc (2 ^ 32)
  split <;> omega

/-- Pixels of one place are one pixel. -/
theorem row_eq_of_place {j' v' k' : ℕ} (hv : v < c.xc) (hv' : v' < c.xc) (hk : k < c.d.cpp)
    (hk' : k' < c.d.cpp) (h : c.place j v k = c.place j' v' k') : j = j' ∧ v = v' ∧ k = k' := by
  have hx : c.xoffs + c.xc ≤ c.scrXs := c.xoffs_le
  obtain ⟨hcell, rfl⟩ := eq_of_rowMajor hk hk' h
  obtain ⟨hrow, hcol⟩ := eq_of_rowMajor (by omega) (by omega) hcell
  exact ⟨by omega, by omega, rfl⟩

theorem xc_lt : c.xc < 2 ^ 31 :=
  ((min_le_right _ _).trans (Nat.le_mul_of_pos_right _ c.d.cpp_pos)).trans_lt c.row_lt

/-- The call is the loop over the rows of the area. -/
theorem run_eq (hrows : 0 < c.rows) (hscr : 0 < c.scrXs) :
    c.run = forLoop c.rows (fun i fb =>
      copyMasked (c.scrXs * c.scrYs * c.d.cpp) (c.place i 0 0) c.fbbuff
        (i * u32 (c.picXs * c.d.cpp)) (fun v => c.mask[i * c.picXs + v]?) c.xc c.d.cpp (c.xc + 1) 0
        fb) c.fb := by
  have hsize := c.screen_le
  have hmem := c.memLen_lt
  have hyc : 0 < c.yc := hrows.trans_le c.rows_le
  have hpos : 0 < c.scrXs * c.scrYs * c.d.cpp :=
    Nat.mul_pos (Nat.mul_pos hscr (hyc.trans_le (min_le_right _ _))) c.d.cpp_pos
  have hstart : (c.yoffs * c.scrXs + c.xoffs) * c.d.cpp < 2 ^ 32 := by
    have hle := c.place_le hyc
    simp only [place, Nat.add_zero] at hle
    omega
  have hplace : ∀ i, (c.yoffs * c.scrXs + c.xoffs) * c.d.cpp + i * (c.scrXs * c.d.cpp) =
      c.place i 0 0 := by
    intro i
    rw [place]
    ring
  have hxc : (asInt (min c.picXs c.scrXs)).toNat = c.xc := by
    rw [← xc, asInt_of_lt c.xc_lt, Int.toNat_natCast]
  have hpitch := c.row_lt
  simp only [run, blit2FB, clip_eq_min,
    u32_of_lt (show c.scrXs * c.scrYs * c.d.cpp < 2 ^ 32 by omega), u32_of_lt hstart,
    u32_of_lt (show c.scrXs * c.d.cpp < 2 ^ 32 by omega), hplace, hxc, Nat.zero_mul, Nat.zero_add,
    u32_of_lt (show 0 < 2 ^ 32 by decide)]
  rw [if_neg (by omega)]
  rfl

/-- Without rows or columns nothing is copied. -/
theorem run_of_empty (h : c.rows = 0 ∨ c.scrXs = 0) : c.run = some c.fb := by
  rcases h with hrows | hscr
  · simp only [run, blit2FB, clip_eq_min]
    rw [← yc, ← rows, hrows]
    split <;> rfl
  · simp [run, blit2FB, hscr, u32]

/-- A row of the call. -/
theorem row_spec (hj : j < c.rows) (fb : Arr UInt8 c.memLen) :
    ∃ fb', copyMasked (c.scrXs * c.scrYs * c.d.cpp) (c.place j 0 0) c.fbbuff
        (j * u32 (c.picXs * c.d.cpp)) (fun v => c.mask[j * c.picXs + v]?) c.xc c.d.cpp (c.xc + 1) 0
        fb = some fb' ∧
      Arr.Writes (RowBytes (c.place j 0 0) c.d.cpp (Copied (c.alpha j) c.xc 0))
        (fun b => c.fbbuff[j * u32 (c.picXs * c.d.cpp) + (b - c.place j 0 0).toNat]?) fb fb' := by
  have hrow : j < c.yc := hj.trans_le c.rows_le
  have hlen : c.xc * c.d.cpp ≤ c.scrXs * c.d.cpp := Nat.mul_le_mul_right _ (min_le_right _ _)
  exact copyMasked_spec (fun v hv => c.alpha_eq hrow hv) c.d.cpp_pos (hlen.trans_lt c.row_lt)
    c.screen_le (c.place_le hrow) (c.source_le hrow) (Nat.zero_le _) (by omega) fb

/-- **What the call leaves**: it gets through, and the pixels that are copied are the ones that
change. -/
theorem run_spec : ∃ fb', c.run = some fb' ∧
    (∀ j < c.rows, ∀ v, Copied (c.alpha j) c.xc 0 v → ∀ k < c.d.cpp,
      fb'.load (c.place j v k) = c.source j v k) ∧
    ∀ b : ℤ, (∀ j < c.rows, ∀ v, Copied (c.alpha j) c.xc 0 v → ∀ k < c.d.cpp, b ≠ c.place j v k) →
      fb'.load b = c.fb.load b := by
  by_cases hempty : c.rows = 0 ∨ c.scrXs = 0
  · refine ⟨c.fb, c.run_of_empty hempty, fun j hj v hv => ?_, fun _ _ => rfl⟩
    have hcols : c.xc ≤ c.scrXs := min_le_right _ _
    have hlt := hv.1
    omega
  have hdisjoint : ∀ i < c.rows, ∀ i' < c.rows, ∀ b : ℤ,
      RowBytes (c.place i 0 0) c.d.cpp (Copied (c.alpha i) c.xc 0) b →
        RowBytes (c.place i' 0 0) c.d.cpp (Copied (c.alpha i') c.xc 0) b → i = i' := by
    rintro i - i' - b ⟨v, hv, k, hk, rfl⟩ ⟨v', hv', k', hk', heq⟩
    rw [← place_eq, ← place_eq] at heq
    have hlt := hv.1
    have hlt' := hv'.1
    exact (c.row_eq_of_place (by omega) (by omega) hk hk' (Nat.cast_injective heq)).1
  rw [c.run_eq (by omega) (by omega)]
  obtain ⟨fb', hfb'⟩ := forLoop_isSome (s := c.fb) fun j hj fb =>
    (c.row_spec hj fb).imp fun _ h => h.1
  obtain ⟨hcopied, hkept⟩ := Arr.forLoop_writes hdisjoint (fun j hj fb fb₁ h => by
    obtain ⟨fb₂, hrow, hwrites⟩ := c.row_spec hj fb
    obtain rfl := Option.some.inj (h.symm.trans hrow)
    exact hwrites) hfb'
  refine ⟨fb', hfb', fun j hj v hv k hk => ?_, fun b hb => hkept b ?_⟩
  · rw [hcopied j hj _ ⟨v, hv, k, hk, by rw [place_eq]⟩, source]
    congr 1
    rw [place_eq]
    omega
  · rintro j hj ⟨v, hv, k, hk, rfl⟩
    rw [← place_eq] at hb
    exact hb j hj v hv k hk rfl

/-- The loop runs over the rows of the area, unless their number is negative as an `int`. -/
theorem lt_rows_iff (hj : j < c.yc) (hv : v < c.xc) : j < c.rows ↔ c.yc < 2 ^ 31 := by
  have hcols : c.xc ≤ c.scrXs := min_le_right _ _
  have hscr : c.scrYs ≤ c.scrXs * c.scrYs * c.d.cpp :=
    (Nat.le_mul_of_pos_left _ (by omega)).trans (Nat.le_mul_of_pos_right _ c.d.cpp_pos)
  have hyc : c.yc ≤ c.scrYs := min_le_right _ _
  have hsize := c.screen_le
  have hmem := c.memLen_lt
  rw [rows, asInt, u32_of_lt (by omega)]
  split <;> omega

/-- A pixel with alpha above `0x80` is copied: the run goes on behind it. -/
def Reaches (j v : ℕ) : Prop := c.yc < 2 ^ 31 ∧ v + 1 < c.xc ∧ 0x80 ≤ c.alpha j (v + 1)

/-- The screen gets a byte of such a pixel: from the right place of the picture if it is copied, and
otherwise it had it before. -/
structure Gets (j v k : ℕ) : Prop where
  copied : c.Reaches j v → c.source j v k = c.pixel j v k
  before : ¬ c.Reaches j v → c.fb.load (c.place j v k) = c.pixel j v k

/-- The bytes of a copied pixel are read in the right place when the length of the picture's rows is
an `unsigned int`. -/
theorem source_eq (h : c.picXs * c.d.cpp < 2 ^ 32) (j v k : ℕ) :
    c.source j v k = c.pixel j v k := by
  rw [source, pixel, u32_of_lt h]
  congr 1
  ring

/-- On such a picture a pixel gets to the screen by being copied, or was there before. -/
theorem gets_iff (h : c.picXs * c.d.cpp < 2 ^ 32) :
    c.Gets j v k ↔ c.Reaches j v ∨ c.fb.load (c.place j v k) = c.pixel j v k := by
  constructor
  · rintro ⟨-, hbefore⟩
    by_cases hreach : c.Reaches j v
    · exact Or.inl hreach
    · exact Or.inr (hbefore hreach)
  · rintro (hreach | hbefore)
    · exact ⟨fun _ => c.source_eq h j v k, fun hnot => absurd hreach hnot⟩
    · exact ⟨fun _ => c.source_eq h j v k, fun _ => hbefore⟩

/-- A pixel of the area that is not copied is as it was. -/
theorem load_of_not_copied {fb' : Arr UInt8 c.memLen} (hv : v < c.xc) (hk : k < c.d.cpp)
    (hkept : ∀ b : ℤ, (∀ j < c.rows, ∀ v, Copied (c.alpha j) c.xc 0 v → ∀ k < c.d.cpp,
      b ≠ c.place j v k) → fb'.load b = c.fb.load b)
    (h : ¬ (j < c.rows ∧ Copied (c.alpha j) c.xc 0 v)) :
    fb'.load (c.place j v k) = c.fb.load (c.place j v k) := by
  apply hkept
  intro j' hj' v' hv' k' hk' heq
  have hlt := hv'.1
  obtain ⟨rfl, rfl, rfl⟩ := c.row_eq_of_place hv (by omega) hk hk' (Nat.cast_injective heq)
  exact h ⟨hj', hv'⟩

/-- **What is left of the mask's meaning**: pixels below `0x80` and the bytes outside the area are
left alone, but a pixel above `0x80` gets to the screen only with a right neighbour in its run, or
if it was there before. -/
theorem maskHonoured_iff :
    (∃ fb', c.run = some fb' ∧ c.HonoursMask fb') ↔
      ∀ j < c.yc, ∀ v < c.xc, 0x80 < c.alpha j v → ∀ k < c.d.cpp, c.Gets j v k := by
  obtain ⟨fb', hrun, hcopied, hkept⟩ := c.run_spec
  have hreaches : ∀ j < c.yc, ∀ v < c.xc, 0x80 < c.alpha j v →
      (j < c.rows ∧ Copied (c.alpha j) c.xc 0 v ↔ c.Reaches j v) := fun j hj v hv hsolid => by
    rw [c.lt_rows_iff hj hv, copied_iff hsolid, Reaches]
  constructor
  · rintro ⟨fb₁, hfb₁, hmask⟩ j hj v hv hsolid k hk
    obtain rfl := Option.some.inj (hrun.symm.trans hfb₁)
    have hpixel := hmask.solid j hj v hv hsolid k hk
    constructor
    · intro hreach
      obtain ⟨hrow, hcopy⟩ := (hreaches j hj v hv hsolid).mpr hreach
      rw [← hcopied j hrow v hcopy k hk, hpixel]
    · intro hreach
      rw [← hreaches j hj v hv hsolid] at hreach
      rw [← c.load_of_not_copied hv hk hkept hreach, hpixel]
  · intro hgets
    refine ⟨fb', hrun, fun j hj v hv hsolid k hk => ?_, fun j hj v hv hclear k hk => ?_,
      fun b hb => hkept b fun j hj v hv k hk => ?_⟩
    · obtain ⟨hfrom, hbefore⟩ := hgets j hj v hv hsolid k hk
      by_cases hreach : c.Reaches j v
      · obtain ⟨hrow, hcopy⟩ := (hreaches j hj v hv hsolid).mpr hreach
        rw [hcopied j hrow v hcopy k hk, hfrom hreach]
      · rw [c.load_of_not_copied hv hk hkept (by rwa [hreaches j hj v hv hsolid]), hbefore hreach]
    · exact c.load_of_not_copied hv hk hkept fun h => not_copied_of_clear hclear h.2
    · have hlt := hv.1
      exact hb j (hj.trans_le c.rows_le) v (by omega) k hk

/-- The last column of the area is never copied, whatever the mask says. -/
theorem load_lastColumn {fb' : Arr UInt8 c.memLen} (h : c.run = some fb') (hv : v + 1 = c.xc)
    (hk : k < c.d.cpp) : fb'.load (c.place j v k) = c.fb.load (c.place j v k) := by
  obtain ⟨fb₁, hrun, -, hkept⟩ := c.run_spec
  obtain rfl := Option.some.inj (hrun.symm.trans h)
  refine c.load_of_not_copied (by omega) hk hkept fun hcopied => ?_
  have hlt := hcopied.2.1
  omega

end MaskedCall

/-- Two solid pixels in a row on an empty screen, a byte each. -/
def solidPair : MaskedCall where
  d := .d8
  memLen := 2
  fb := fun _ => 0
  fbbuff := [7, 7]
  mask := [255, 255]
  picXs := 2
  picYs := 1
  scrXs := 2
  scrYs := 1
  xoffs := 0
  yoffs := 0
  memLen_lt := by decide
  screen_le := by decide
  row_lt := by decide
  picture_le := by decide
  mask_le := by decide
  xoffs_le := by decide
  yoffs_le := by decide

/-- The second one does not get to the screen. -/
theorem not_maskHonoured_solidPair :
    ¬ ∃ fb', solidPair.run = some fb' ∧ solidPair.HonoursMask fb' := by
  rintro ⟨fb', hrun, hmask⟩
  have hsolid := hmask.solid 0 (by decide) 1 (by decide) (by decide) 0 (by decide)
  have hbyte : (solidPair.run.map fun fb => fb.load (solidPair.place 0 1 0)) = some (some 0) := by
    decide
  rw [hrun, Option.map_some, Option.some.injEq] at hbyte
  exact absurd (hbyte.symm.trans hsolid) (by decide)

end MaixSpeech.Display
