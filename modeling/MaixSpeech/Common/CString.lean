import Mathlib.Data.List.Basic
import Mathlib.Data.List.TakeWhile

/-!
# NUL-terminated strings in byte memory

A block of C memory is the list of its bytes, and a pointer into it an offset. A string function
gets the bytes from its pointer on. `HoldsStr mem q s` says that the string `s`, with its NUL, lies
at `q`; it survives any extension of the memory, so a scanner that works in place keeps the strings
it has handed out by never writing below its own position.
-/

namespace Common

/-- The bytes of a string literal. -/
def bytes (s : String) : List UInt8 := s.toList.map fun c => UInt8.ofNat c.toNat

/-- A C string: bytes other than NUL. -/
abbrev CStr := { s : List UInt8 // 0 ∉ s }

/-- The C string at the head of `mem`: its bytes before the first NUL. -/
def cstr (mem : List UInt8) : List UInt8 := mem.takeWhile (· ≠ 0)

/-- `strchr`: the offset of the first `c` at or before the first NUL. -/
def strchr (c : UInt8) : List UInt8 → Option ℕ
  | [] => none
  | b :: mem => if b = c then some 0 else if b = 0 then none else (strchr c mem).map (· + 1)

/-- The text in front of the first `c`, if it comes before the first NUL. -/
def strBefore (c : UInt8) (mem : List UInt8) : Option (List UInt8) := (strchr c mem).map mem.take

/-- `strcpy(dst, s)` into an array with the bytes `dst`; `none` when it does not fit. -/
def strcpy (dst s : List UInt8) : Option (List UInt8) :=
  if s.length < dst.length then some (s ++ 0 :: dst.drop (s.length + 1)) else none

/-- `strcat(dst, s)` into an array with the bytes `dst`; `none` when it does not fit. -/
def strcat (dst s : List UInt8) : Option (List UInt8) :=
  strcpy dst (cstr dst ++ s)

/-- The string `s` and its NUL lie at offset `q` of `mem`. -/
def HoldsStr (mem : List UInt8) (q : ℕ) (s : List UInt8) : Prop :=
  0 ∉ s ∧ s ++ [0] <+: mem.drop q

variable {mem l t s : List UInt8} {c : UInt8} {q n : ℕ}

/-! ## Reading strings -/

@[simp] theorem cstr_nil : cstr [] = [] := rfl

theorem cstr_append_nul (h : 0 ∉ s) (t : List UInt8) : cstr (s ++ 0 :: t) = s := by
  rw [cstr, List.takeWhile_append_of_pos]
  · simp
  · intro a ha
    exact decide_eq_true fun h0 => h (h0 ▸ ha)

theorem cstr_append (h : 0 ∉ l) (t : List UInt8) : cstr (l ++ t) = l ++ cstr t := by
  rw [cstr, List.takeWhile_append_of_pos]
  · rfl
  · intro a ha
    exact decide_eq_true fun h0 => h (h0 ▸ ha)

theorem nul_notMem_cstr (mem : List UInt8) : 0 ∉ cstr mem := by
  intro h
  have := List.mem_takeWhile_imp h
  simp at this

theorem length_cstr_le (mem : List UInt8) : (cstr mem).length ≤ mem.length :=
  (List.takeWhile_prefix _).length_le

/-- `strchr` finds `c` behind a stretch free of `c` and NUL, and only there. -/
theorem strchr_eq_some_iff :
    strchr c mem = some n ↔ ∃ l t, mem = l ++ c :: t ∧ l.length = n ∧ c ∉ l ∧ 0 ∉ l := by
  induction mem generalizing n with
  | nil => simp [strchr]
  | cons b mem ih =>
    simp only [strchr]
    by_cases hbc : b = c
    · subst hbc
      rw [if_pos rfl]
      constructor
      · intro h
        exact ⟨[], mem, rfl, by simpa using h, by simp, by simp⟩
      · rintro ⟨l, t, he, hl, hc, -⟩
        cases l with
        | nil => rw [← hl]; rfl
        | cons a l => simp_all
    rw [if_neg hbc]
    by_cases hb0 : b = 0
    · subst hb0
      rw [if_pos rfl]
      constructor
      · intro h; cases h
      · rintro ⟨l, t, he, -, -, h0⟩
        cases l with
        | nil => exact absurd (List.cons.inj he).1 hbc
        | cons a l => simp_all
    rw [if_neg hb0]
    constructor
    · intro h
      obtain ⟨m, hm, rfl⟩ := Option.map_eq_some_iff.mp h
      obtain ⟨l, t, rfl, rfl, hc, h0⟩ := ih.mp hm
      exact ⟨b :: l, t, rfl, rfl, by simp [hc, Ne.symm hbc], by simp [h0, Ne.symm hb0]⟩
    · rintro ⟨l, t, he, hl, hc, h0⟩
      cases l with
      | nil => exact absurd (List.cons.inj he).1 hbc
      | cons a l =>
        obtain ⟨rfl, rfl⟩ := List.cons.inj he
        rw [ih.mpr ⟨l, t, rfl, rfl, fun h => hc (by simp [h]), fun h => h0 (by simp [h])⟩]
        simpa using hl

theorem strchr_append (hc : c ∉ l) (h0 : 0 ∉ l) (t : List UInt8) :
    strchr c (l ++ c :: t) = some l.length :=
  strchr_eq_some_iff.mpr ⟨l, t, rfl, rfl, hc, h0⟩

/-- A string without `c` in it: `strchr` stops at its NUL. -/
theorem strchr_append_nul (hc : c ∉ l) (hc0 : c ≠ 0) (t : List UInt8) :
    strchr c (l ++ 0 :: t) = none := by
  induction l with
  | nil => simp [strchr, hc0.symm]
  | cons b l ih =>
    have hb : b ≠ c := fun h => hc (by simp [h])
    have hl : c ∉ l := fun h => hc (by simp [h])
    rw [List.cons_append, strchr, if_neg hb]
    split
    · rfl
    · rw [ih hl]; rfl

theorem strchr_eq_none_iff (hc0 : c ≠ 0) : strchr c mem = none ↔ c ∉ cstr mem := by
  induction mem with
  | nil => simp [strchr]
  | cons b mem ih =>
    simp only [strchr]
    by_cases hbc : b = c
    · subst hbc
      simp [cstr, hc0]
    rw [if_neg hbc]
    by_cases hb0 : b = 0
    · simp [cstr, hb0]
    rw [if_neg hb0, Option.map_eq_none_iff, ih]
    simp [cstr, hb0, Ne.symm hbc]

theorem strBefore_append (hc : c ∉ l) (h0 : 0 ∉ l) (t : List UInt8) :
    strBefore c (l ++ c :: t) = some l := by
  rw [strBefore, strchr_append hc h0, Option.map_some, List.take_left]

theorem strBefore_append_nul (hc : c ∉ l) (hc0 : c ≠ 0) (t : List UInt8) :
    strBefore c (l ++ 0 :: t) = none := by
  rw [strBefore, strchr_append_nul hc hc0, Option.map_none]

theorem strBefore_of_notMem (hc : c ∉ mem) (hc0 : c ≠ 0) : strBefore c mem = none := by
  have hnone : strchr c mem = none :=
    (strchr_eq_none_iff hc0).mpr fun h => hc ((List.takeWhile_prefix _).subset h)
  rw [strBefore, hnone, Option.map_none]

/-! ## Strings in memory -/

theorem HoldsStr.cstr_drop (h : HoldsStr mem q s) : cstr (mem.drop q) = s := by
  obtain ⟨h0, t, ht⟩ := h
  rw [← ht, List.append_assoc]
  exact cstr_append_nul h0 t

/-- Extending the memory keeps the strings in it. -/
theorem HoldsStr.append (h : HoldsStr mem q s) (more : List UInt8) :
    HoldsStr (mem ++ more) q s := by
  obtain ⟨h0, t, ht⟩ := h
  have hq : q ≤ mem.length := by
    by_contra hlt
    rw [List.drop_of_length_le (by omega)] at ht
    simp at ht
  exact ⟨h0, t ++ more, by
    rw [List.drop_append_of_le_length hq, ← ht, List.append_assoc (s ++ [0])]⟩

theorem HoldsStr.of_prefix {mem' : List UInt8} (h : HoldsStr mem q s) (hp : mem <+: mem') :
    HoldsStr mem' q s := by
  obtain ⟨more, rfl⟩ := hp
  exact h.append more

/-- A string laid out behind `pre` lies at offset `pre.length`. -/
theorem holdsStr_append (pre : List UInt8) (h : 0 ∉ s) (t : List UInt8) :
    HoldsStr (pre ++ (s ++ 0 :: t)) pre.length s :=
  ⟨h, t, by rw [List.drop_left, List.append_assoc]; rfl⟩

/-! ## Writing strings -/

/-- What lies in front of a pointer into the memory. -/
theorem length_take_of_drop {mem : List UInt8} {p : ℕ} (h : mem.drop p ≠ []) :
    (mem.take p).length = p := by
  have hlen := List.length_pos_iff.mpr h
  rw [List.length_drop] at hlen
  rw [List.length_take]
  omega

/-- Storing at the position behind `xs`. -/
theorem set_length_append {α : Type*} (xs : List α) (y v : α) (zs : List α) :
    (xs ++ y :: zs).set xs.length v = xs ++ v :: zs := by
  simp

/-- The byte in front of a position is the last one before it. -/
theorem getElem?_length_sub_one {α : Type*} {xs : List α} (h : xs ≠ []) (ys : List α) :
    (xs ++ ys)[xs.length - 1]? = xs.getLast? := by
  have hlen := List.length_pos_iff.mpr h
  rw [List.getElem?_append_left (by omega), List.getLast?_eq_getElem?]

theorem strcpy_eq_some {dst : List UInt8} (h : s.length < dst.length) :
    strcpy dst s = some (s ++ 0 :: dst.drop (s.length + 1)) := if_pos h

theorem strcpy_eq_none {dst : List UInt8} (h : dst.length ≤ s.length) : strcpy dst s = none :=
  if_neg (by omega)

/-- What lies behind a copied string. -/
theorem strcpy_append {dst dst' : List UInt8} (h : strcpy dst s = some dst') :
    ∃ more, dst' = s ++ 0 :: more := by
  unfold strcpy at h
  split at h
  · exact ⟨_, (Option.some.inj h).symm⟩
  · cases h

/-- A copied string reads back, and the array keeps its size. -/
theorem strcpy_spec {dst dst' : List UInt8} (h : strcpy dst s = some dst') (h0 : 0 ∉ s) :
    cstr dst' = s ∧ dst'.length = dst.length := by
  unfold strcpy at h
  split at h
  · rename_i hlt
    obtain rfl := Option.some.inj h
    refine ⟨cstr_append_nul h0 _, ?_⟩
    simp only [List.length_append, List.length_cons, List.length_drop]
    omega
  · cases h

/-- An appended string reads back behind what was there, and fits. -/
theorem strcat_spec {dst dst' : List UInt8} (h : strcat dst s = some dst') (h0 : 0 ∉ s) :
    cstr dst' = cstr dst ++ s ∧ dst'.length = dst.length ∧ (cstr dst').length < dst.length := by
  have hnul : 0 ∉ cstr dst ++ s := by simp [nul_notMem_cstr, h0]
  obtain ⟨hcstr, hlen⟩ := strcpy_spec h hnul
  refine ⟨hcstr, hlen, ?_⟩
  by_contra hge
  rw [hcstr, Nat.not_lt] at hge
  rw [strcat, strcpy_eq_none hge] at h
  cases h

theorem exists_strcat {dst : List UInt8} (h : (cstr dst).length + s.length < dst.length) :
    ∃ dst', strcat dst s = some dst' :=
  ⟨_, strcpy_eq_some (by rwa [List.length_append])⟩

end Common
