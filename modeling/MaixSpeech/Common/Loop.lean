import Mathlib.Algebra.Order.Ring.Int
import Mathlib.Data.Option.Basic

/-!
# Counted loops and arrays with bounds

`forLoop n body` is `for(int i=0; i<n; i++)` with a body that may fail: an access out of bounds or
an `int` overflow makes the whole loop `none`. `forLoop_spec` is the total rule, for loops that have
to get through, `forLoop_inv` the partial one, for loops that are known to have got through.
`Arr α n` is an array of `n` elements that are read and written through indices of any size.
-/

namespace Common

/-! ## Counted loops -/

section Loop

variable {σ τ : Type*} {n : ℕ} {f : ℕ → σ → Option σ} {s t : σ}

/-- The state after the turns `0, …, n - 1` of `body`. -/
def forLoop : ℕ → (ℕ → σ → Option σ) → σ → Option σ
  | 0, _, s => some s
  | n + 1, f, s => (forLoop n f s).bind (f n)

theorem forLoop_succ : forLoop (n + 1) f s = (forLoop n f s).bind (f n) := rfl

/-- **Total rule**: if every turn gets through and keeps the invariant, so does the loop. -/
theorem forLoop_spec (Inv : ℕ → σ → Prop) (h0 : Inv 0 s)
    (hstep : ∀ i s, i < n → Inv i s → ∃ s', f i s = some s' ∧ Inv (i + 1) s') :
    ∃ s', forLoop n f s = some s' ∧ Inv n s' := by
  induction n with
  | zero => exact ⟨s, rfl, h0⟩
  | succ n ih =>
    obtain ⟨s₁, h₁, hinv⟩ := ih fun i s hi => hstep i s (by omega)
    obtain ⟨s₂, h₂, hinv₂⟩ := hstep n s₁ (by omega) hinv
    exact ⟨s₂, by rw [forLoop_succ, h₁, Option.bind_some, h₂], hinv₂⟩

/-- A loop gets through if its turns get through from every state. -/
theorem forLoop_isSome (h : ∀ i < n, ∀ s, ∃ s', f i s = some s') : ∃ t, forLoop n f s = some t := by
  obtain ⟨t, ht, -⟩ := forLoop_spec (s := s) (fun _ _ => True) trivial fun i s hi _ => by
    obtain ⟨s', hs'⟩ := h i hi s
    exact ⟨s', hs', trivial⟩
  exact ⟨t, ht⟩

/-- A loop whose turns leave the state alone leaves it alone. -/
theorem forLoop_of_fixed (h : ∀ i < n, f i s = some s) : forLoop n f s = some s := by
  induction n with
  | zero => rfl
  | succ n ih => rw [forLoop_succ, ih fun i hi => h i (by omega), Option.bind_some, h n (by omega)]

/-- **Partial rule**: if every turn that gets through keeps the invariant, so does the loop. -/
theorem forLoop_inv (Inv : ℕ → σ → Prop) (h0 : Inv 0 s)
    (hstep : ∀ i s s', i < n → Inv i s → f i s = some s' → Inv (i + 1) s')
    (h : forLoop n f s = some t) : Inv n t := by
  induction n generalizing t with
  | zero =>
    obtain rfl := Option.some.inj h
    exact h0
  | succ n ih =>
    obtain ⟨s₁, h₁, h₂⟩ := Option.bind_eq_some_iff.mp h
    exact hstep n s₁ t (by omega) (ih (fun i s s' hi => hstep i s s' (by omega)) h₁) h₂

/-- Every turn of a loop that gets through gets through. -/
theorem forLoop_turn (h : forLoop n f s = some t) {i : ℕ} (hi : i < n) :
    ∃ s₁ s₂, f i s₁ = some s₂ := by
  induction n generalizing t with
  | zero => exact absurd hi (by omega)
  | succ n ih =>
    obtain ⟨s₁, h₁, h₂⟩ := Option.bind_eq_some_iff.mp h
    by_cases hin : i = n
    · subst hin
      exact ⟨s₁, t, h₂⟩
    · exact ih h₁ (by omega)

/-- A loop in two parts. -/
theorem forLoop_add (m : ℕ) :
    forLoop (m + n) f s = (forLoop m f s).bind (forLoop n fun i => f (m + i)) := by
  induction n with
  | zero => exact (Option.bind_fun_some _).symm
  | succ n ih =>
    rw [← Nat.add_assoc, forLoop_succ, ih, Option.bind_assoc]
    rfl

theorem forLoop_congr {g : ℕ → σ → Option σ} (h : ∀ i < n, f i = g i) :
    forLoop n f s = forLoop n g s := by
  induction n with
  | zero => rfl
  | succ n ih =>
    rw [forLoop_succ, forLoop_succ, ih fun i hi => h i (by omega), h n (Nat.lt_succ_self n)]

/-- Two nested loops are one loop over the pairs, row by row. -/
theorem forLoop_nested (h w : ℕ) (f : ℕ → ℕ → σ → Option σ) (s : σ) :
    forLoop h (fun y => forLoop w (f y)) s = forLoop (h * w) (fun i => f (i / w) (i % w)) s := by
  induction h with
  | zero => rw [Nat.zero_mul]; rfl
  | succ h ih =>
    rw [forLoop_succ, ih, Nat.succ_mul, forLoop_add]
    congr 1
    funext t
    refine forLoop_congr fun x hx => ?_
    rw [Nat.mul_comm h w, Nat.mul_add_div (by omega), Nat.mul_add_mod, Nat.div_eq_of_lt hx,
      Nat.mod_eq_of_lt hx, Nat.add_zero]

/-- **Total rule for two nested loops**: the invariant counts the pairs, row by row. -/
theorem forLoop_nested_spec {h w : ℕ} {f : ℕ → ℕ → σ → Option σ} (Inv : ℕ → σ → Prop)
    (h0 : Inv 0 s)
    (hstep : ∀ y < h, ∀ x < w, ∀ s, Inv (y * w + x) s →
      ∃ s', f y x s = some s' ∧ Inv (y * w + x + 1) s') :
    ∃ s', forLoop h (fun y => forLoop w (f y)) s = some s' ∧ Inv (h * w) s' := by
  rw [forLoop_nested]
  apply forLoop_spec Inv h0
  intro i s hi hs
  have hw : 0 < w := Nat.pos_of_ne_zero fun hw => by simp [hw] at hi
  have hy : i / w < h := (Nat.div_lt_iff_lt_mul hw).mpr hi
  rw [← Nat.div_add_mod' i w] at hs
  obtain ⟨s', hs', hinv⟩ := hstep _ hy _ (Nat.mod_lt i hw) s hs
  rw [Nat.div_add_mod'] at hinv
  exact ⟨s', hs', hinv⟩

/-- A pair is known by its number. -/
theorem eq_of_rowMajor {w x x' y y' : ℕ} (hx : x < w) (hx' : x' < w)
    (heq : y * w + x = y' * w + x') : y = y' ∧ x = x' := by
  have hw : 0 < w := by omega
  have hy : y = y' := by
    have hdiv := congrArg (· / w) heq
    simpa only [Nat.mul_comm _ w, Nat.mul_add_div hw, Nat.div_eq_of_lt hx, Nat.div_eq_of_lt hx',
      Nat.add_zero] using hdiv
  subst hy
  exact ⟨rfl, Nat.add_left_cancel heq⟩

/-- The number of a pair of the rectangle is below the number of its pairs. -/
theorem rowMajor_lt {h w x y : ℕ} (hy : y < h) (hx : x < w) : y * w + x < h * w := by
  have hrow := Nat.mul_le_mul_right w (Nat.succ_le_of_lt hy)
  rw [Nat.succ_mul] at hrow
  omega

end Loop

/-! ## Simulation -/

section Simulates

variable {σ σ' τ τ' ι : Type*} {R : σ → τ → Prop} {R' : σ' → τ' → Prop} {n : ℕ} {s : σ} {t : τ}

/-- Whenever `x` gets through, `y` gets through as well, with a related result. -/
def Simulates (R : σ → τ → Prop) (x : Option σ) (y : Option τ) : Prop :=
  ∀ s, x = some s → ∃ t, y = some t ∧ R s t

theorem Simulates.some (h : R s t) : Simulates R (some s) (some t) := by
  intro s' hs
  obtain rfl := Option.some.inj hs
  exact ⟨t, rfl, h⟩

theorem Simulates.none {y : Option τ} : Simulates R none y := by
  intro s hs
  cases hs

theorem Simulates.bind {x : Option σ} {y : Option τ} {f : σ → Option σ'} {g : τ → Option τ'}
    (h : Simulates R x y) (hfg : ∀ s t, R s t → Simulates R' (f s) (g t)) :
    Simulates R' (x.bind f) (y.bind g) := by
  intro s' hs'
  obtain ⟨s, hs, hf⟩ := Option.bind_eq_some_iff.mp hs'
  obtain ⟨t, ht, hR⟩ := h s hs
  obtain ⟨t', ht', hR'⟩ := hfg s t hR s' hf
  exact ⟨t', by rw [ht, Option.bind_some, ht'], hR'⟩

theorem Simulates.map {x : Option σ} {y : Option τ} {f : σ → σ'} {g : τ → τ'}
    (h : Simulates R x y) (hfg : ∀ s t, R s t → R' (f s) (g t)) :
    Simulates R' (x.map f) (y.map g) := by
  intro s' hs'
  obtain ⟨s, hs, rfl⟩ := Option.map_eq_some_iff.mp hs'
  obtain ⟨t, ht, hR⟩ := h s hs
  exact ⟨g t, by rw [ht, Option.map_some], hfg s t hR⟩

theorem Simulates.mono {R₁ : σ → τ → Prop} {x : Option σ} {y : Option τ} (h : Simulates R x y)
    (hR : ∀ s t, R s t → R₁ s t) : Simulates R₁ x y := by
  intro s hs
  obtain ⟨t, ht, hst⟩ := h s hs
  exact ⟨t, ht, hR s t hst⟩

/-- Loops simulate each other when their turns do. -/
theorem forLoop_simulates {f : ℕ → σ → Option σ} {g : ℕ → τ → Option τ} (h0 : R s t)
    (hstep : ∀ i s t, i < n → R s t → Simulates R (f i s) (g i t)) :
    Simulates R (forLoop n f s) (forLoop n g t) := by
  induction n with
  | zero => exact .some h0
  | succ n ih =>
    rw [forLoop_succ, forLoop_succ]
    exact (ih fun i s t hi => hstep i s t (by omega)).bind fun s t h => hstep n s t (by omega) h

/-- Folds over a list simulate each other when their steps do. -/
theorem foldlM_simulates {l : List ι} {f : σ → ι → Option σ} {g : τ → ι → Option τ} (h0 : R s t)
    (hstep : ∀ a ∈ l, ∀ s t, R s t → Simulates R (f s a) (g t a)) :
    Simulates R (l.foldlM f s) (l.foldlM g t) := by
  induction l generalizing s t with
  | nil => exact .some h0
  | cons a l ih =>
    rw [List.foldlM_cons, List.foldlM_cons]
    refine (hstep a (by simp) s t h0).bind fun s' t' h => ?_
    exact ih h fun b hb => hstep b (by simp [hb])

end Simulates

/-- A traversal whose calls all succeed. -/
theorem mapM_eq_some_map {α β : Type*} {l : List α} {f : α → Option β} {g : α → β}
    (h : ∀ a ∈ l, f a = some (g a)) : l.mapM f = some (l.map g) := by
  induction l with
  | nil => rfl
  | cons a l ih =>
    rw [List.mapM_cons, h a (by simp), ih fun b hb => h b (by simp [hb])]
    rfl

/-! ## Arrays -/

/-- An array of `n` elements. -/
abbrev Arr (α : Type*) (n : ℕ) := Fin n → α

namespace Arr

variable {α : Type*} {n : ℕ} {a a' : Arr α n} {i j lo : ℤ} {v w : α} {len : ℕ}

/-- The element at an index, `none` out of bounds. -/
def load (a : Arr α n) (i : ℤ) : Option α :=
  if h : 0 ≤ i ∧ i < n then some (a ⟨i.toNat, by omega⟩) else none

/-- The array with another element at an index, `none` out of bounds. -/
def store (a : Arr α n) (i : ℤ) (v : α) : Option (Arr α n) :=
  if 0 ≤ i ∧ i < n then some fun j => if (j : ℤ) = i then v else a j else none

/-- `memset`: the array with `v` at the `len` indices from `lo` on, `none` out of bounds. -/
def fill (a : Arr α n) (lo : ℤ) (len : ℕ) (v : α) : Option (Arr α n) :=
  if 0 ≤ lo ∧ lo + len ≤ n then some fun j => if lo ≤ j ∧ j < lo + len then v else a j else none

/-- `memcpy`: the array with the elements `xs` from `lo` on, `none` out of bounds. -/
def copy (a : Arr α n) (lo : ℤ) (xs : List α) : Option (Arr α n) :=
  if 0 ≤ lo ∧ lo + xs.length ≤ n then
    some fun j => if lo ≤ j then (xs[(j - lo).toNat]?).getD (a j) else a j
  else none

/-- The `len` elements from `lo` on, `none` out of bounds. -/
def slice (a : Arr α n) (lo : ℤ) : ℕ → Option (List α)
  | 0 => some []
  | len + 1 => (a.slice lo len).bind fun xs => (a.load (lo + len)).map fun x => xs ++ [x]

theorem load_of_mem (h : 0 ≤ i ∧ i < n) : ∃ v, a.load i = some v := ⟨_, dif_pos h⟩

theorem store_of_mem (a : Arr α n) (v : α) (h : 0 ≤ i ∧ i < n) : ∃ a', a.store i v = some a' :=
  ⟨_, if_pos h⟩

/-- What a store leaves in the array. -/
theorem load_store (h : a.store i v = some a') (j : ℤ) :
    a'.load j = if j = i then some v else a.load j := by
  unfold store at h
  split at h
  · obtain rfl := Option.some.inj h
    unfold load
    by_cases hj : 0 ≤ j ∧ j < n
    · rw [dif_pos hj, dif_pos hj]
      have hcast : (j.toNat : ℤ) = j := by omega
      simp only [hcast]
      split <;> rfl
    · rw [dif_neg hj, dif_neg hj, if_neg]
      rintro rfl
      contradiction
  · cases h

theorem fill_isSome_iff : (a.fill lo len v).isSome ↔ 0 ≤ lo ∧ lo + len ≤ n := by
  unfold fill
  split <;> simp_all

/-- What `memset` leaves in the array. -/
theorem load_fill (h : a.fill lo len v = some a') (j : ℤ) :
    a'.load j = if lo ≤ j ∧ j < lo + len then some v else a.load j := by
  unfold fill at h
  split at h
  · rename_i hin
    obtain rfl := Option.some.inj h
    unfold load
    by_cases hj : 0 ≤ j ∧ j < n
    · rw [dif_pos hj, dif_pos hj]
      have hcast : (j.toNat : ℤ) = j := by omega
      simp only [hcast]
      split <;> rfl
    · rw [dif_neg hj, dif_neg hj, if_neg]
      omega
  · cases h

theorem copy_isSome_iff {xs : List α} :
    (a.copy lo xs).isSome ↔ 0 ≤ lo ∧ lo + xs.length ≤ n := by
  unfold copy
  split <;> simp_all

/-- What `memcpy` leaves in the array. -/
theorem load_copy {xs : List α} (h : a.copy lo xs = some a') (j : ℤ) :
    a'.load j =
      if lo ≤ j ∧ j < lo + xs.length then xs[(j - lo).toNat]? else a.load j := by
  unfold copy at h
  split at h
  · rename_i hin
    obtain rfl := Option.some.inj h
    by_cases hj : 0 ≤ j ∧ j < n
    · unfold load
      rw [dif_pos hj, dif_pos hj]
      have hcast : (j.toNat : ℤ) = j := by omega
      simp only [hcast]
      by_cases hlo : lo ≤ j
      · by_cases hhi : j < lo + xs.length
        · have hlt : (j - lo).toNat < xs.length := by omega
          simp [hlo, hhi, hlt]
        · have hge : xs.length ≤ (j - lo).toNat := by omega
          simp [hlo, hhi, List.getElem?_eq_none hge]
      · simp [hlo]
    · unfold load
      rw [dif_neg hj, dif_neg hj, if_neg]
      omega
  · cases h

theorem slice_eq {f : ℕ → α} (h : ∀ j < len, a.load (lo + j) = some (f j)) :
    a.slice lo len = some ((List.range len).map f) := by
  induction len with
  | zero => rfl
  | succ len ih =>
    rw [slice, ih fun j hj => h j (by omega), Option.bind_some, h len (by omega), Option.map_some,
      List.range_succ, List.map_append, List.map_singleton]

/-- An array that holds a list from `lo` on. -/
theorem slice_eq_list {l : List α} (h : ∀ k < l.length, a.load (lo + k) = l[k]?) :
    a.slice lo l.length = some l := by
  have htake : ∀ m ≤ l.length, a.slice lo m = some (l.take m) := by
    intro m hm
    induction m with
    | zero => rfl
    | succ m ih =>
      rw [slice, ih (by omega), Option.bind_some, h m (by omega), List.getElem?_eq_getElem (by omega),
        Option.map_some, List.take_append_getElem]
  rw [htake l.length le_rfl, List.take_length]

/-! ### What is written -/

/-- Behind a write the indices in `W` have the elements `val`, and the others are as they were. -/
structure Writes (W : ℤ → Prop) (val : ℤ → Option α) (a a' : Arr α n) : Prop where
  written : ∀ j, W j → a'.load j = val j
  kept : ∀ j, ¬ W j → a'.load j = a.load j

variable {W W' V : ℤ → Prop} {val : ℤ → Option α} {a'' : Arr α n}

theorem Writes.refl (h : ∀ j, ¬ W j) : Writes W val a a := ⟨fun j hj => absurd hj (h j), fun _ _ => rfl⟩

theorem Writes.congr {val' : ℤ → Option α} (h : Writes W val a a') (hW : ∀ j, W j ↔ W' j)
    (hval : ∀ j, W j → val j = val' j) : Writes W' val' a a' where
  written j hj := by
    rw [h.written j ((hW j).mpr hj), hval j ((hW j).mpr hj)]
  kept j hj := h.kept j fun hWj => hj ((hW j).mp hWj)

/-- Two writes of elements that agree, one after the other. -/
theorem Writes.trans (h : Writes W val a a') (h' : Writes W' val a' a'')
    (hV : ∀ j, V j ↔ W j ∨ W' j) : Writes V val a a'' where
  written j hj := by
    by_cases hW' : W' j
    · exact h'.written j hW'
    · rw [h'.kept j hW']
      exact h.written j (((hV j).mp hj).resolve_right hW')
  kept j hj := by
    rw [hV, not_or] at hj
    rw [h'.kept j hj.2, h.kept j hj.1]

/-- The turns of a loop write to different indices, and what each writes is there at the end. -/
theorem forLoop_writes {m : ℕ} {f : ℕ → Arr α n → Option (Arr α n)} {W : ℕ → ℤ → Prop}
    {val : ℕ → ℤ → Option α} (hdisjoint : ∀ i < m, ∀ i' < m, ∀ j, W i j → W i' j → i = i')
    (hstep : ∀ i < m, ∀ s s', f i s = some s' → Writes (W i) (val i) s s')
    (h : forLoop m f a = some a') :
    (∀ i < m, ∀ j, W i j → a'.load j = val i j) ∧
      ∀ j, (∀ i < m, ¬ W i j) → a'.load j = a.load j := by
  refine forLoop_inv (fun (k : ℕ) (s : Arr α n) => (∀ i < k, ∀ j, W i j → s.load j = val i j) ∧
    ∀ j, (∀ i < k, ¬ W i j) → s.load j = a.load j)
    ⟨fun i hi => absurd hi (Nat.not_lt_zero i), fun _ _ => rfl⟩ ?_ h
  rintro k s s' hk ⟨hdone, hrest⟩ hturn
  have hwrites := hstep k hk s s' hturn
  constructor
  · intro i hi j hj
    by_cases hik : i = k
    · subst hik
      exact hwrites.written j hj
    · rw [hwrites.kept j fun hWk => hik (hdisjoint i (by omega) k hk j hj hWk)]
      exact hdone i (by omega) j hj
  · intro j hj
    rw [hwrites.kept j (hj k (Nat.lt_succ_self k)), hrest j fun i hi => hj i (by omega)]

end Arr

end Common
