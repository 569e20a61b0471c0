import Mathlib.Data.List.Count
import Mathlib.Data.Set.Basic
import Mathlib.Logic.Function.Basic

/-!
# Memoised attributes and their invalidation

Items have attributes, named by keys; the body of a key computes its value, and reads inputs and asks
for other keys on its way. `plain` evaluates bodies again and again, `cached` stores each value it
computes. One attribute of an item is its flag. When inputs have changed, `recInvalidate` forgets an
item and, following a list of dependents, what may have used it, but stops at items whose flag is not
stored.

That this is enough is the content of `Valid.recInvalidate`: a `Valid` cache holds for each stored
value the values it was computed from (`Sound`), and with it the flag of its item (`Flagged`), so a
dependent without a flag has nothing to forget. `Valid.cached` says that what `cached` returns from
such a cache is what `plain` returns.
-/

namespace Common.Memo

universe u v w

/-! ## Queries -/

/-- A computation that asks for the values of keys and reads inputs. -/
inductive Query (K : Type u) (V : K → Type v) (R : Type u) (W : R → Type v) (α : Type w) :
    Type (max u v w) where
  | ret (a : α)
  | ask (k : K) (next : V k → Query K V R W α)
  | read (r : R) (next : W r → Query K V R W α)

variable {K : Type u} {V : K → Type v} {R : Type u} {W : R → Type v} {α β : Type w}

namespace Query

/-- One computation after the other. -/
def bind : Query K V R W α → (α → Query K V R W β) → Query K V R W β
  | ret a, f => f a
  | ask k next, f => ask k fun x => (next x).bind f
  | read r next, f => read r fun x => (next x).bind f

instance : Monad (Query K V R W) where
  pure := ret
  bind := bind

/-- The value of a key. -/
def get (k : K) : Query K V R W (V k) := ask k ret

/-- An input. -/
def input (r : R) : Query K V R W (W r) := read r ret

/-- The result when the inputs are `inp` and the keys have the values `val`. -/
def eval (inp : ∀ r, W r) (val : ∀ k, V k) : Query K V R W α → α
  | ret a => a
  | ask k next => (next (val k)).eval inp val
  | read r next => (next (inp r)).eval inp val

/-- The result when some keys have no value. -/
def evalOpt (inp : ∀ r, W r) (val : ∀ k, Option (V k)) : Query K V R W α → Option α
  | ret a => some a
  | ask k next => (val k).bind fun x => (next x).evalOpt inp val
  | read r next => (next (inp r)).evalOpt inp val

/-- Whatever the answers are, only keys with `P` are asked for and only inputs with `Q` are read. -/
def Within (P : K → Prop) (Q : R → Prop) : Query K V R W α → Prop
  | ret _ => True
  | ask k next => P k ∧ ∀ x, (next x).Within P Q
  | read r next => Q r ∧ ∀ x, (next x).Within P Q

variable {inp inp' : ∀ r, W r} {val val' : ∀ k, V k} {val₁ val₂ : ∀ k, Option (V k)}
  {P P' : K → Prop} {Q Q' : R → Prop}

@[simp] theorem eval_ret (a : α) : (ret a : Query K V R W α).eval inp val = a := rfl

@[simp] theorem eval_pure (a : α) : (pure a : Query K V R W α).eval inp val = a := rfl

@[simp] theorem eval_get (k : K) : (get k : Query K V R W (V k)).eval inp val = val k := rfl

@[simp] theorem eval_input (r : R) : (input r : Query K V R W (W r)).eval inp val = inp r := rfl

@[simp] theorem eval_bind (q : Query K V R W α) (f : α → Query K V R W β) :
    (q >>= f).eval inp val = (f (q.eval inp val)).eval inp val := by
  change (q.bind f).eval inp val = _
  induction q with
  | ret a => rfl
  | ask k next ih => exact ih (val k)
  | read r next ih => exact ih (inp r)

theorem evalOpt_bind (q : Query K V R W α) (f : α → Query K V R W β) :
    (q >>= f).evalOpt inp val₁ = (q.evalOpt inp val₁).bind fun a => (f a).evalOpt inp val₁ := by
  change (q.bind f).evalOpt inp val₁ = _
  induction q with
  | ret a => rfl
  | ask k next ih =>
    rw [Query.bind, evalOpt, evalOpt, Option.bind_assoc]
    exact congrArg _ (funext fun x => ih x)
  | read r next ih => exact ih (inp r)

theorem eval_ite (p : Prop) [Decidable p] (q r : Query K V R W α) :
    (if p then q else r).eval inp val = if p then q.eval inp val else r.eval inp val := by
  split <;> rfl

@[simp] theorem within_pure (a : α) : (pure a : Query K V R W α).Within P Q := trivial

@[simp] theorem within_get (k : K) : (get k : Query K V R W (V k)).Within P Q ↔ P k :=
  ⟨And.left, fun h => ⟨h, fun _ => trivial⟩⟩

@[simp] theorem within_input (r : R) : (input r : Query K V R W (W r)).Within P Q ↔ Q r :=
  ⟨And.left, fun h => ⟨h, fun _ => trivial⟩⟩

theorem Within.bind {q : Query K V R W α} {f : α → Query K V R W β} (hq : q.Within P Q)
    (hf : ∀ a, (f a).Within P Q) : (q >>= f).Within P Q := by
  change (q.bind f).Within P Q
  induction q with
  | ret a => exact hf a
  | ask k next ih => exact ⟨hq.1, fun x => ih x (hq.2 x)⟩
  | read r next ih => exact ⟨hq.1, fun x => ih x (hq.2 x)⟩

theorem Within.ite {p : Prop} [Decidable p] {q r : Query K V R W α} (hq : p → q.Within P Q)
    (hr : ¬ p → r.Within P Q) : (if p then q else r).Within P Q := by
  split
  · exact hq ‹_›
  · exact hr ‹_›

theorem Within.mono {q : Query K V R W α} (hP : ∀ k, P k → P' k) (hQ : ∀ r, Q r → Q' r)
    (hq : q.Within P Q) : q.Within P' Q' := by
  induction q with
  | ret a => trivial
  | ask k next ih => exact ⟨hP k hq.1, fun x => ih x (hq.2 x)⟩
  | read r next ih => exact ⟨hQ r hq.1, fun x => ih x (hq.2 x)⟩

theorem Within.and {q : Query K V R W α} (hq : q.Within P Q) (hq' : q.Within P' Q') :
    q.Within (fun k => P k ∧ P' k) fun r => Q r ∧ Q' r := by
  induction q with
  | ret a => trivial
  | ask k next ih => exact ⟨⟨hq.1, hq'.1⟩, fun x => ih x (hq.2 x) (hq'.2 x)⟩
  | read r next ih => exact ⟨⟨hq.1, hq'.1⟩, fun x => ih x (hq.2 x) (hq'.2 x)⟩

theorem Within.left {q : Query K V R W α} {f : α → Query K V R W β}
    (h : (q >>= f).Within P Q) : q.Within P Q := by
  change (q.bind f).Within P Q at h
  induction q with
  | ret a => trivial
  | ask k next ih => exact ⟨h.1, fun x => ih x (h.2 x)⟩
  | read r next ih => exact ⟨h.1, fun x => ih x (h.2 x)⟩

theorem Within.right {q : Query K V R W α} {f : α → Query K V R W β}
    (h : (q >>= f).Within P Q) (inp : ∀ r, W r) (val : ∀ k, V k) :
    (f (q.eval inp val)).Within P Q := by
  change (q.bind f).Within P Q at h
  induction q with
  | ret a => exact h
  | ask k next ih => exact ih _ (h.2 _)
  | read r next ih => exact ih _ (h.2 _)

/-- Only what a query may ask for or read matters. -/
theorem eval_congr {q : Query K V R W α} (hq : q.Within P Q) (h : ∀ k, P k → val k = val' k)
    (hinp : ∀ r, Q r → inp r = inp' r) : q.eval inp val = q.eval inp' val' := by
  induction q with
  | ret a => rfl
  | ask k next ih =>
    rw [eval, eval, h k hq.1]
    exact ih _ (hq.2 _)
  | read r next ih =>
    rw [eval, eval, hinp r hq.1]
    exact ih _ (hq.2 _)

theorem evalOpt_congr {q : Query K V R W α} (hq : q.Within P Q) (h : ∀ k, P k → val₁ k = val₂ k)
    (hinp : ∀ r, Q r → inp r = inp' r) : q.evalOpt inp val₁ = q.evalOpt inp' val₂ := by
  induction q with
  | ret a => rfl
  | ask k next ih =>
    rw [evalOpt, evalOpt, h k hq.1]
    exact congrArg _ (funext fun x => ih x (hq.2 x))
  | read r next ih =>
    rw [evalOpt, evalOpt, hinp r hq.1]
    exact ih _ (hq.2 _)

/-- More values do not change a result. -/
theorem evalOpt_mono {q : Query K V R W α} {a : α} (h : ∀ k x, val₁ k = some x → val₂ k = some x)
    (ha : q.evalOpt inp val₁ = some a) : q.evalOpt inp val₂ = some a := by
  induction q with
  | ret b => exact ha
  | ask k next ih =>
    obtain ⟨x, hx, hnext⟩ := Option.bind_eq_some_iff.mp ha
    rw [evalOpt, h k x hx]
    exact ih x hnext
  | read r next ih => exact ih _ ha

theorem evalOpt_some {q : Query K V R W α} (hq : q.Within P Q)
    (h : ∀ k, P k → val₁ k = some (val k)) : q.evalOpt inp val₁ = some (q.eval inp val) := by
  induction q with
  | ret a => rfl
  | ask k next ih =>
    rw [evalOpt, h k hq.1]
    exact ih _ (hq.2 _)
  | read r next ih => exact ih _ (hq.2 _)

end Query

open Query

/-! ## The plain evaluation -/

/-- The value of a key without a cache. -/
def plain (body : ∀ k, Query K V R W (V k)) (inp : ∀ r, W r) : ℕ → ∀ k, Option (V k)
  | 0, _ => none
  | fuel + 1, k => (body k).evalOpt inp (plain body inp fuel)

/-- Along the ranks, no key needs itself. -/
def Ranked (body : ∀ k, Query K V R W (V k)) (rank : K → ℕ) : Prop :=
  ∀ k, (body k).Within (fun k' => rank k' < rank k) fun _ => True

/-- `val` satisfies every body. -/
def Solves (body : ∀ k, Query K V R W (V k)) (inp : ∀ r, W r) (val : ∀ k, V k) : Prop :=
  ∀ k, val k = (body k).eval inp val

variable {body : ∀ k, Query K V R W (V k)} {inp inp' : ∀ r, W r} {rank : K → ℕ}

theorem Ranked.isSome_plain (h : Ranked body rank) (inp : ∀ r, W r) {fuel : ℕ} {k : K}
    (hfuel : rank k < fuel) : (plain body inp fuel k).isSome := by
  induction fuel generalizing k with
  | zero => exact absurd hfuel (Nat.not_lt_zero _)
  | succ fuel ih =>
    have key : ∀ q : Query K V R W (V k), q.Within (fun k' => rank k' < rank k) (fun _ => True) →
        (q.evalOpt inp (plain body inp fuel)).isSome := by
      intro q hq
      induction q with
      | ret a => rfl
      | ask k' next ihq =>
        obtain ⟨x, hx⟩ := Option.isSome_iff_exists.mp (ih (k := k') (by have := hq.1; omega))
        rw [evalOpt, hx]
        exact ihq x (hq.2 x)
      | read r next ihq => exact ihq _ (hq.2 _)
    exact key (body k) (h k)

/-- The values of all keys. -/
def Ranked.value (h : Ranked body rank) (inp : ∀ r, W r) (k : K) : V k :=
  (plain body inp (rank k + 1) k).get (h.isSome_plain inp (Nat.lt_succ_self _))

/-- Two evaluations with enough fuel agree. -/
theorem Ranked.plain_eq_plain (h : Ranked body rank) {m n : ℕ} {k : K} (hm : rank k < m)
    (hn : rank k < n) : plain body inp m k = plain body inp n k := by
  induction m generalizing n k with
  | zero => exact absurd hm (Nat.not_lt_zero _)
  | succ m ih =>
    cases n with
    | zero => exact absurd hn (Nat.not_lt_zero _)
    | succ n => exact evalOpt_congr (h k) (fun k' hk' => ih (by omega) (by omega)) fun _ _ => rfl

theorem Ranked.plain_eq (h : Ranked body rank) {fuel : ℕ} {k : K} (hfuel : rank k < fuel) :
    plain body inp fuel k = some (h.value inp k) := by
  rw [h.plain_eq_plain hfuel (Nat.lt_succ_self _), Ranked.value, Option.some_get]

theorem Ranked.value_solves (h : Ranked body rank) : Solves body inp (h.value inp) := by
  intro k
  have heval : plain body inp (rank k + 1) k = some ((body k).eval inp (h.value inp)) :=
    evalOpt_some (h k) fun k' hk' => h.plain_eq hk'
  rw [h.plain_eq (Nat.lt_succ_self _)] at heval
  exact Option.some.inj heval

/-- The bodies have one solution. -/
theorem Ranked.eq_value (h : Ranked body rank) {val : ∀ k, V k} (hval : Solves body inp val) :
    val = h.value inp := by
  have key : ∀ n k, rank k < n → val k = h.value inp k := by
    intro n
    induction n with
    | zero => exact fun k hk => absurd hk (Nat.not_lt_zero _)
    | succ n ih =>
      intro k hk
      rw [hval k, h.value_solves k]
      exact eval_congr (h k) (fun k' hk' => ih k' (by omega)) fun _ _ => rfl
  exact funext fun k => key _ k (Nat.lt_succ_self _)

/-- Keys that only lead to each other do not see other inputs. -/
theorem Ranked.value_congr (h : Ranked body rank) {P : K → Prop}
    (hP : ∀ k, P k → (body k).Within P fun r => inp r = inp' r) {k : K} (hk : P k) :
    h.value inp k = h.value inp' k := by
  have key : ∀ n k, rank k < n → P k → h.value inp k = h.value inp' k := by
    intro n
    induction n with
    | zero => exact fun k hk => absurd hk (Nat.not_lt_zero _)
    | succ n ih =>
      intro k hk hkP
      rw [h.value_solves k, h.value_solves k]
      exact eval_congr ((h k).and (hP k hkP)) (fun k' hk' => ih k' (by omega) hk'.2)
        fun r hr => hr.2
  exact key _ k (Nat.lt_succ_self _) hk

/-! ## The cache -/

/-- The stored values. -/
abbrev Cache (K : Type u) (V : K → Type v) := ∀ k, Option (V k)

/-- A query that leaves its answers in the cache. -/
def Query.run (inp : ∀ r, W r) (answer : ∀ k, Cache K V → Option (V k × Cache K V)) :
    Query K V R W α → Cache K V → Option (α × Cache K V)
  | ret a, c => some (a, c)
  | ask k next, c => (answer k c).bind fun r => (next r.1).run inp answer r.2
  | read r next, c => (next (inp r)).run inp answer c

/-- The value of a key: the stored one, or else it is computed and stored. -/
def cached [DecidableEq K] (body : ∀ k, Query K V R W (V k)) (inp : ∀ r, W r) :
    ℕ → ∀ k, Cache K V → Option (V k × Cache K V)
  | 0, _, _ => none
  | fuel + 1, k, c =>
    match c k with
    | some x => some (x, c)
    | none =>
      ((body k).run inp (cached body inp fuel) c).map fun r =>
        (r.1, Function.update r.2 k (some r.1))

/-- A stored value is what its body makes of stored values. -/
def Sound (body : ∀ k, Query K V R W (V k)) (inp : ∀ r, W r) (c : Cache K V) : Prop :=
  ∀ k x, c k = some x → (body k).evalOpt inp c = some x

/-- The cache has only grown. -/
def Grows (c c' : Cache K V) : Prop := ∀ k x, c k = some x → c' k = some x

theorem Grows.refl (c : Cache K V) : Grows c c := fun _ _ h => h

theorem Grows.trans {c c' c'' : Cache K V} (h : Grows c c') (h' : Grows c' c'') : Grows c c'' :=
  fun k x hx => h' k x (h k x hx)

/-- A stored value is the value. -/
theorem Sound.eq_value (h : Ranked body rank) {c : Cache K V} (hc : Sound body inp c) {k : K}
    {x : V k} (hx : c k = some x) : x = h.value inp k := by
  have key : ∀ n k x, rank k < n → c k = some x → x = h.value inp k := by
    intro n
    induction n with
    | zero => exact fun k x hk => absurd hk (Nat.not_lt_zero _)
    | succ n ih =>
      intro k x hk hx
      have hval : ∀ q : Query K V R W (V k),
          q.Within (fun k' => rank k' < rank k) (fun _ => True) →
          ∀ y, q.evalOpt inp c = some y → y = q.eval inp (h.value inp) := by
        intro q hq
        induction q with
        | ret a => exact fun y hy => (Option.some.inj hy).symm
        | ask k' next ihq =>
          intro y hy
          obtain ⟨x', hx', hnext⟩ := Option.bind_eq_some_iff.mp hy
          rw [eval, ← ih k' x' (by have := hq.1; omega) hx']
          exact ihq x' (hq.2 x') y hnext
        | read r next ihq => exact ihq _ (hq.2 _)
      rw [h.value_solves k]
      exact hval (body k) (h k) x (hc k x hx)
  exact key _ k x (Nat.lt_succ_self _) hx

/-! ## Items, flags and dependents -/

/-- How keys belong to items, and what `recInvalidate` knows of them: the dependents of an item, the
items whose change concerns all `members`, and the key whose value doubles as a flag. -/
structure Layout (I : Type*) (K : Type u) where
  item : K → I
  flag : I → K
  item_flag : ∀ i, item (flag i) = i
  /-- Keys whose value does not depend on anything. -/
  constant : K → Bool
  members : List I
  dependents : I → List I
  dependents_subset : ∀ i, dependents i ⊆ members
  wide : I → Bool

variable {I : Type*} (L : Layout I K)

/-- Each stored value has the flag of its item beside it. -/
def Flagged (c : Cache K V) : Prop :=
  ∀ k x, c k = some x → L.constant k = false → (c (L.flag (L.item k))).isSome

/-- When `k` asks for `k'`, a change of the item of `k'` reaches the item of `k`. -/
def Layout.Reaches (k k' : K) : Prop :=
  L.item k' ∉ L.members ∨ L.item k' = L.item k ∨ L.item k ∈ L.dependents (L.item k') ∨
    (L.wide (L.item k') = true ∧ L.item k ∈ L.members)

/-- The bodies keep to the layout: they ask only where changes reach them, and for the flag first, or
for another attribute of the item that does so. -/
structure Fits (body : ∀ k, Query K V R W (V k)) : Prop where
  reaches : ∀ k, (body k).Within (L.Reaches k) fun _ => True
  constant : ∀ k, L.constant k = true →
    (body k).Within (fun k' => L.item k' ∉ L.members) fun _ => False
  flagFirst : ∀ k, L.constant k = false → k ≠ L.flag (L.item k) →
    ∃ k' next, body k = ask k' next ∧ L.item k' = L.item k ∧
      (k' = L.flag (L.item k) ∨ L.constant k' = false)

/-- What the cache satisfies between two operations. -/
structure Valid (body : ∀ k, Query K V R W (V k)) (inp : ∀ r, W r) (c : Cache K V) : Prop where
  sound : Sound body inp c
  flagged : Flagged L c

variable {L} {c c' : Cache K V}

/-- A new cache is empty. -/
theorem valid_empty : Valid L body inp fun _ => none where
  sound := fun _ _ h => nomatch h
  flagged := fun _ _ h => nomatch h

/-- Where each question is answered with the value, so is a query. -/
theorem Valid.run_of {val : ∀ k, V k} {answer : ∀ k, Cache K V → Option (V k × Cache K V)}
    {P : K → Prop}
    (hans : ∀ k c, P k → Valid L body inp c → ∃ c', answer k c = some (val k, c') ∧
      Valid L body inp c' ∧ Grows c c' ∧ c' k = some (val k))
    (hc : Valid L body inp c) {q : Query K V R W α} (hq : q.Within P fun _ => True) :
    ∃ c', q.run inp answer c = some (q.eval inp val, c') ∧ Valid L body inp c' ∧ Grows c c' ∧
      q.evalOpt inp c' = some (q.eval inp val) := by
  induction q generalizing c with
  | ret a => exact ⟨c, rfl, hc, Grows.refl c, rfl⟩
  | ask k next ih =>
    obtain ⟨c₁, hrun₁, hc₁, hgrow₁, hk₁⟩ := hans k c hq.1 hc
    obtain ⟨c₂, hrun₂, hc₂, hgrow₂, heval⟩ := ih (val k) hc₁ (hq.2 _)
    refine ⟨c₂, ?_, hc₂, hgrow₁.trans hgrow₂, ?_⟩
    · rw [Query.run, hrun₁]
      exact hrun₂
    · rw [evalOpt, hgrow₂ _ _ hk₁]
      exact heval
  | read r next ih => exact ih (inp r) hc (hq.2 _)

section Cached

variable [DecidableEq K]

/-- Storing what the body of `k` makes of the cache keeps the cache valid. -/
theorem Valid.update (hfits : Fits L body) (hc : Valid L body inp c) {k : K} {x : V k}
    (hx : (body k).evalOpt inp c = some x) (hk : ∀ y, c k = some y → y = x) :
    Valid L body inp (Function.update c k (some x)) ∧
      Grows c (Function.update c k (some x)) := by
  have hgrow : Grows c (Function.update c k (some x)) := by
    intro k' y hy
    by_cases h : k' = k
    · subst h
      rw [Function.update_self, hk y hy]
    · rwa [Function.update_of_ne h]
  have hflag : ∀ i, (c (L.flag i)).isSome → (Function.update c k (some x) (L.flag i)).isSome := by
    intro i hi
    obtain ⟨z, hz⟩ := Option.isSome_iff_exists.mp hi
    rw [hgrow _ z hz]
    rfl
  refine ⟨⟨fun k' y hy => ?_, fun k' y hy hconst => ?_⟩, hgrow⟩
  · by_cases h : k' = k
    · subst h
      rw [Function.update_self] at hy
      exact evalOpt_mono hgrow (hx.trans hy)
    · rw [Function.update_of_ne h] at hy
      exact evalOpt_mono hgrow (hc.sound k' y hy)
  · by_cases h : k' = k
    · subst h
      by_cases hself : k' = L.flag (L.item k')
      · rw [← hself, Function.update_self]
        rfl
      · -- The first key the body asked for is stored, and has the flag beside it.
        obtain ⟨k₁, next, hbody, hitem, hk₁⟩ := hfits.flagFirst k' hconst hself
        rw [hbody] at hx
        obtain ⟨x₁, hx₁, -⟩ := Option.bind_eq_some_iff.mp hx
        apply hflag
        rcases hk₁ with rfl | hconst₁
        · rw [hx₁]
          rfl
        · rw [← hitem]
          exact hc.flagged k₁ x₁ hx₁ hconst₁
    · rw [Function.update_of_ne h] at hy
      exact hflag _ (hc.flagged k' y hy hconst)

/-- **The cache is transparent.** From a valid cache `cached` returns the value of the key, and
leaves a valid cache that holds it. -/
theorem Valid.cached (h : Ranked body rank) (hfits : Fits L body) (hc : Valid L body inp c)
    {fuel : ℕ} {k : K} (hfuel : rank k < fuel) :
    ∃ c', Memo.cached body inp fuel k c = some (h.value inp k, c') ∧ Valid L body inp c' ∧
      Grows c c' ∧ c' k = some (h.value inp k) := by
  induction fuel generalizing k c with
  | zero => exact absurd hfuel (Nat.not_lt_zero _)
  | succ fuel ih =>
    rw [Memo.cached]
    cases hk : c k with
    | some x =>
      obtain rfl := hc.sound.eq_value h hk
      exact ⟨c, rfl, hc, Grows.refl c, hk⟩
    | none =>
      -- The query stores its answers one after the other, and its result stands on them.
      obtain ⟨c₁, hrun, hc₁, hgrow, heval⟩ := hc.run_of (P := fun k' => rank k' < rank k)
        (fun k' c hk' hc => ih hc (k := k') (by omega)) (h k)
      rw [← h.value_solves k] at hrun heval
      obtain ⟨hvalid, hgrow'⟩ :=
        hc₁.update hfits heval fun y hy => hc₁.sound.eq_value h hy
      refine ⟨_, ?_, hvalid, hgrow.trans hgrow', Function.update_self ..⟩
      rw [hrun]
      rfl

end Cached

/-! ## What is forgotten -/

section Forget

variable (L)

/-- The items in `C` are forgotten, and nothing else. -/
def Forgets (C : Set I) (c c' : Cache K V) : Prop :=
  ∀ k, (L.item k ∈ C → c' k = none) ∧ (L.item k ∉ C → c' k = c k)

/-- No dependent of an item in `C` has its flag stored, and a wide one has taken all members with
it. -/
def Done (C : Set I) (c' : Cache K V) : Prop :=
  ∀ i ∈ C, (∀ j ∈ L.dependents i, c' (L.flag j) = none) ∧ (L.wide i = true → ∀ j ∈ L.members, j ∈ C)

variable {L} {C C' : Set I} {c'' : Cache K V}

theorem Forgets.trans (h : Forgets L C c c') (h' : Forgets L C' c' c'') :
    Forgets L (C ∪ C') c c'' := by
  intro k
  constructor
  · rintro (hk | hk)
    · by_cases hk' : L.item k ∈ C'
      · exact (h' k).1 hk'
      · rw [(h' k).2 hk', (h k).1 hk]
    · exact (h' k).1 hk
  · intro hk
    rw [(h' k).2 fun hk' => hk (Or.inr hk'), (h k).2 fun hk' => hk (Or.inl hk')]

theorem Forgets.flag (h : Forgets L C c c') {i : I} (hi : c (L.flag i) = none) :
    c' (L.flag i) = none := by
  by_cases hC : L.item (L.flag i) ∈ C
  · exact (h _).1 hC
  · rw [(h _).2 hC, hi]

theorem Done.forgets (hd : Done L C c') (h : Forgets L C' c' c'') (hd' : Done L C' c'') :
    Done L (C ∪ C') c'' := by
  rintro i (hi | hi)
  · exact ⟨fun j hj => h.flag ((hd i hi).1 j hj), fun hw j hj => Or.inl ((hd i hi).2 hw j hj)⟩
  · exact ⟨(hd' i hi).1, fun hw j hj => Or.inr ((hd' i hi).2 hw j hj)⟩

/-- A valid cache stays valid when a set without loose ends is forgotten, for inputs that give what
is left the values it had. -/
theorem Valid.forgets (hfits : Fits L body) (hc : Valid L body inp c) (hf : Forgets L C c c')
    (hd : Done L C c') (hC : ∀ i ∈ C, i ∈ L.members)
    (hsame : ∀ k x, c k = some x → L.item k ∉ C →
      (body k).evalOpt inp' c = (body k).evalOpt inp c) :
    Valid L body inp' c' := by
  have hback : ∀ k x, c' k = some x → L.item k ∉ C ∧ c k = some x := by
    intro k x hx
    have hk : L.item k ∉ C := by
      intro hk
      rw [(hf k).1 hk] at hx
      cases hx
    exact ⟨hk, ((hf k).2 hk).symm.trans hx⟩
  have hflag : ∀ i, i ∉ C → c' (L.flag i) = c (L.flag i) := by
    intro i hi
    apply (hf _).2
    rwa [L.item_flag]
  refine ⟨fun k x hx => ?_, fun k x hx hconst => ?_⟩
  · obtain ⟨hk, hck⟩ := hback k x hx
    rw [← hc.sound k x hck, ← hsame k x hck hk]
    by_cases hconst : L.constant k = true
    · exact evalOpt_congr (hfits.constant k hconst)
        (fun k' hk' => (hf k').2 fun hmem => hk' (hC _ hmem)) fun _ _ => rfl
    -- A key the body asks for is not forgotten: that would have reached the flag of `k`.
    · have hsome := hc.flagged k x hck (Bool.eq_false_iff.mpr hconst)
      refine evalOpt_congr (hfits.reaches k) (fun k' hk' => (hf k').2 fun hmem => ?_) fun _ _ => rfl
      rcases hk' with hout | hself | hdep | ⟨hwide, hin⟩
      · exact hout (hC _ hmem)
      · exact hk (hself ▸ hmem)
      · rw [← hflag _ hk, (hd _ hmem).1 _ hdep] at hsome
        cases hsome
      · exact hk ((hd _ hmem).2 hwide _ hin)
  · obtain ⟨hk, hck⟩ := hback k x hx
    rw [hflag _ hk]
    exact hc.flagged k x hck hconst

/-- Nothing need be forgotten when stored values are what they were. -/
theorem Valid.inert (hc : Valid L body inp c)
    (hsame : ∀ k x, c k = some x → (body k).evalOpt inp' c = (body k).evalOpt inp c) :
    Valid L body inp' c where
  sound := fun k x hx => (hsame k x hx).trans (hc.sound k x hx)
  flagged := hc.flagged

end Forget

/-! ## Invalidation -/

section Invalidate

variable [DecidableEq I] (L)

/-- Forgets the attributes of one item. -/
def invalidate (i : I) (c : Cache K V) : Cache K V :=
  fun k => if L.item k = i then none else c k

/-- Forgets the attributes of all members. -/
def invalidateAll (c : Cache K V) : Cache K V :=
  fun k => if L.item k ∈ L.members then none else c k

/-- Forgets an item and, from dependent to dependent, what has its flag stored. -/
def recInvalidate : ℕ → I → Cache K V → Option (Cache K V)
  | 0, _, _ => none
  | fuel + 1, i, c =>
    if L.wide i then some (invalidateAll L c)
    else
      (L.dependents i).foldlM
        (fun c j => if (c (L.flag j)).isSome then recInvalidate fuel j c else some c)
        (invalidate L i c)

/-- The members whose flag is stored. -/
def flagCount (c : Cache K V) : ℕ := L.members.countP fun i => (c (L.flag i)).isSome

variable {L} {C : Set I}

/-! ### The search ends -/

theorem countP_lt_countP {α : Type*} {p q : α → Bool} {l : List α} {a : α}
    (h : ∀ x ∈ l, q x = true → p x = true) (ha : a ∈ l) (hp : p a = true) (hq : q a = false) :
    l.countP q < l.countP p := by
  induction l with
  | nil => exact absurd ha List.not_mem_nil
  | cons b l ih =>
    have hb := h b List.mem_cons_self
    have hle : l.countP q ≤ l.countP p :=
      List.countP_mono_left fun x hx => h x (List.mem_cons_of_mem b hx)
    rw [List.countP_cons, List.countP_cons]
    rcases List.mem_cons.mp ha with rfl | ha
    · simp only [hp, hq, if_true, Bool.false_eq_true, if_false]
      omega
    · have := ih (fun x hx => h x (List.mem_cons_of_mem b hx)) ha
      by_cases hqb : q b = true
      · simp only [hqb, hb hqb, if_true]
        omega
      · rw [if_neg hqb]
        omega

omit [DecidableEq I] in
theorem Forgets.flagCount_le (h : Forgets L C c c') : flagCount L c' ≤ flagCount L c := by
  refine List.countP_mono_left fun i _ hi => ?_
  by_contra hnone
  rw [h.flag (Option.not_isSome_iff_eq_none.mp hnone)] at hi
  cases hi

theorem forgets_invalidate (i : I) (c : Cache K V) : Forgets L {i} c (invalidate L i c) :=
  fun _ => ⟨fun hk => if_pos hk, fun hk => if_neg hk⟩

theorem flagCount_invalidate_lt {i : I} (hi : i ∈ L.members) (hflag : (c (L.flag i)).isSome) :
    flagCount L (invalidate L i c) < flagCount L c := by
  refine countP_lt_countP (fun j _ hj => ?_) hi hflag ?_
  · by_contra hnone
    rw [(forgets_invalidate i c).flag (Option.not_isSome_iff_eq_none.mp hnone)] at hj
    cases hj
  · rw [invalidate, if_pos (L.item_flag i)]
    rfl

/-- The search from `i` forgets a set of members around `i` that leaves no dependent behind. -/
theorem exists_recInvalidate {fuel : ℕ} {i : I} {c : Cache K V} (hi : i ∈ L.members)
    (hfuel : flagCount L (invalidate L i c) < fuel) :
    ∃ c' C, recInvalidate L fuel i c = some c' ∧ i ∈ C ∧ (∀ j ∈ C, j ∈ L.members) ∧
      Forgets L C c c' ∧ Done L C c' := by
  induction fuel generalizing i c with
  | zero => exact absurd hfuel (Nat.not_lt_zero _)
  | succ fuel ih =>
    rw [recInvalidate]
    split
    · refine ⟨_, {j | j ∈ L.members}, rfl, hi, fun j hj => hj, fun k => ⟨fun h => if_pos h, fun h => if_neg h⟩, ?_⟩
      refine fun j _ => ⟨fun d hd => if_pos ?_, fun _ d hd => hd⟩
      rw [L.item_flag]
      exact L.dependents_subset j hd
    · next hwide =>
      -- The loop over the dependents, from any cache with as few flags.
      have loop : ∀ (ds : List I) (c : Cache K V), ds ⊆ L.members → flagCount L c < fuel + 1 →
          ∃ c' C, ds.foldlM (fun c j => if (c (L.flag j)).isSome then recInvalidate L fuel j c
              else some c) c = some c' ∧ (∀ j ∈ C, j ∈ L.members) ∧ Forgets L C c c' ∧
            Done L C c' ∧ ∀ j ∈ ds, c' (L.flag j) = none := by
        intro ds
        induction ds with
        | nil =>
          exact fun c _ _ => ⟨c, ∅, rfl, fun _ h => h.elim, fun _ => ⟨fun h => h.elim, fun _ => rfl⟩,
            fun _ h => h.elim, fun _ h => (List.not_mem_nil h).elim⟩
        | cons j ds ihds =>
          intro c hds hfuel
          have hj : j ∈ L.members := hds List.mem_cons_self
          obtain ⟨c₁, C₁, hrun₁, hC₁, hf₁, hd₁, hj₁⟩ : ∃ c₁ C₁,
              (if (c (L.flag j)).isSome then recInvalidate L fuel j c else some c) = some c₁ ∧
                (∀ j ∈ C₁, j ∈ L.members) ∧ Forgets L C₁ c c₁ ∧ Done L C₁ c₁ ∧
                c₁ (L.flag j) = none := by
            split
            · next hflag =>
              have hlt := flagCount_invalidate_lt hj hflag
              obtain ⟨c₁, C₁, hrun, hjC, hC, hf, hd⟩ := ih (c := c) hj (by omega)
              refine ⟨c₁, C₁, hrun, hC, hf, hd, (hf _).1 ?_⟩
              rwa [L.item_flag]
            · next hflag =>
              exact ⟨c, ∅, rfl, fun _ h => h.elim, fun _ => ⟨fun h => h.elim, fun _ => rfl⟩,
                fun _ h => h.elim, Option.not_isSome_iff_eq_none.mp hflag⟩
          have hle := hf₁.flagCount_le
          obtain ⟨c₂, C₂, hrun₂, hC₂, hf₂, hd₂, hds₂⟩ :=
            ihds c₁ (fun d hd => hds (List.mem_cons_of_mem j hd)) (by omega)
          refine ⟨c₂, C₁ ∪ C₂, ?_, fun d hd => hd.elim (hC₁ d) (hC₂ d), hf₁.trans hf₂,
            hd₁.forgets hf₂ hd₂, fun d hd => ?_⟩
          · rw [List.foldlM_cons, hrun₁]
            exact hrun₂
          · rcases List.mem_cons.mp hd with rfl | hd
            · exact hf₂.flag hj₁
            · exact hds₂ d hd
      obtain ⟨c', C, hrun, hC, hf, hd, hds⟩ :=
        loop (L.dependents i) (invalidate L i c) (L.dependents_subset i) hfuel
      refine ⟨c', {i} ∪ C, hrun, Or.inl rfl, ?_, (forgets_invalidate i c).trans hf, ?_⟩
      · rintro j (rfl | hj)
        exacts [hi, hC j hj]
      · rintro j (rfl | hj)
        · exact ⟨hds, fun hw => absurd hw hwide⟩
        · exact ⟨(hd j hj).1, fun hw d hd' => Or.inr ((hd j hj).2 hw d hd')⟩

/-! ### What is left is valid -/

/-- **Invalidation is enough.** When the inputs have only changed where bodies of `i` and of its
dependents read them, what `recInvalidate` leaves of a valid cache is valid for the new inputs. -/
theorem Valid.recInvalidate (hfits : Fits L body) (hc : Valid L body inp c) {fuel : ℕ} {i : I}
    (hi : i ∈ L.members) (hfuel : L.members.length < fuel)
    (hread : ∀ k, (body k).Within (fun _ => True) fun r =>
      inp' r = inp r ∨ L.item k = i ∨ L.item k ∈ L.dependents i) :
    ∃ c', Memo.recInvalidate L fuel i c = some c' ∧ Valid L body inp' c' := by
  have hcount : flagCount L (invalidate L i c) ≤ L.members.length := List.countP_le_length
  obtain ⟨c', C, hrun, hiC, hC, hf, hd⟩ := exists_recInvalidate (c := c) hi (hcount.trans_lt hfuel)
  refine ⟨c', hrun, hc.forgets hfits hf hd hC fun k x hx hk => ?_⟩
  by_cases hconst : L.constant k = true
  · exact evalOpt_congr (hfits.constant k hconst) (fun _ _ => rfl) fun _ h => h.elim
  · refine evalOpt_congr (hread k) (fun _ _ => rfl) fun r hr => ?_
    rcases hr with hr | rfl | hdep
    · exact hr
    · exact absurd hiC hk
    -- A dependent that was not forgotten has no flag, so nothing of it is stored.
    · have hsome := hc.flagged k x hx (Bool.eq_false_iff.mpr hconst)
      have hflag : c' (L.flag (L.item k)) = c (L.flag (L.item k)) := by
        apply (hf _).2
        rwa [L.item_flag]
      rw [← hflag, (hd i hiC).1 _ hdep] at hsome
      cases hsome

end Invalidate

end Common.Memo
