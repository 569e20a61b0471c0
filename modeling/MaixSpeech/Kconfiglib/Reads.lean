import MaixSpeech.Kconfiglib.Choices
import MaixSpeech.Kconfiglib.Contents
import MaixSpeech.Kconfiglib.Loading

/-!
# What a written file leaves when it is loaded

Reference: `tools/kconfig/Kconfiglib/kconfiglib.py`.

`fileCalls_configContents` says which assignments a written file makes. Here they are carried out one
after the other: `Reads` is what they have left after some of the symbols.
-/

namespace MaixSpeech.Kconfiglib

open Common Common.Memo Build

namespace Kconfig

variable {S C : Type} [DecidableEq S] [DecidableEq C] {K : Kconfig S C} {u : User K.toTables}

/-! ## The values in the file -/

/-- The value that loading its line sets a symbol to. -/
def savedValue (u : User K.toTables) (s : S) : UserValue :=
  (UserValue.str (K.str u s)).forType (K.sym s).origType

/-- Does `set_value` take that value? -/
def takesSaved (u : User K.toTables) (s : S) : Bool :=
  validFor (K.sym s).origType (savedValue u s)

theorem str_eq_toStr {s : S} (htype : isBoolTristate (K.sym s).origType = true) :
    K.str u s = (K.tri u s).toStr :=
  congrArg Prod.fst (K.str_tri u htype)

theorem savedValue_tri {s : S} (htype : isBoolTristate (K.sym s).origType = true) :
    savedValue u s = .tri (K.tri u s) := by
  rw [savedValue, UserValue.forType, if_pos htype, str_eq_toStr htype, UserValue.normalize,
    Tristate.ofStr_toStr]

theorem toStr_eq_n_iff (t : Tristate) : t.toStr = ['n'] ↔ t = .n := by
  cases t <;> simp [Tristate.toStr]

namespace Regular

variable {c : C} (hc : K.Regular c) {s : S} (hs : s ∈ (K.choice c).syms)

include hc hs

/-- A symbol that is not `n` shows the mode of its choice. -/
theorem tri_eq_mode (hn : K.tri u s ≠ .n) : K.tri u s = K.mode u c := by
  have htri : K.tri u s = _ := congrArg Prod.fst (hc.vals_triValue hs)
  rw [htri] at hn ⊢
  cases hmode : K.mode u c with
  | n =>
    rw [hc.vis_of_mode_n hs hmode] at hn
    exact absurd rfl hn
  | m =>
    have hvis := hc.vis_of_mode_m hs hmode
    rw [if_neg hvis] at hn ⊢
    split at hn
    · exact absurd rfl hn
    · next hvis' =>
      rw [if_neg hvis']
      revert hn
      unfold mModeValue
      split
      · split <;> simp
      · simp
  | y =>
    have hvis := hc.vis_of_mode_y hs hmode
    revert hn hvis
    cases K.vis u s with
    | n => simp
    | m => simp
    | y =>
      rw [if_pos rfl]
      split <;> simp

/-- Only tristate symbols are `m`. -/
theorem tristate_of_tri_m (hm : K.tri u s = .m) : (K.sym s).origType = .tristate := by
  have hmode : K.mode u c = .m := (hc.tri_eq_mode hs (by rw [hm]; decide)).symm.trans hm
  have htri : K.tri u s = _ := congrArg Prod.fst (hc.vals_triValue hs)
  have hvis : K.vis u s = .m := by
    have hy := hc.vis_of_mode_m hs hmode
    rw [htri, if_neg hy] at hm
    split at hm
    · cases hm
    · next hn =>
      revert hy hn
      cases K.vis u s <;> simp
  have htype := hc.symType s hs
  have hbool := symTypeIn_of_vis_m hvis
  revert htype hbool
  unfold symTypeIn
  cases (K.sym s).origType <;> simp [isBoolTristate]

/-- A choice takes the value of a symbol as its mode. -/
theorem validFor_mode (hn : K.tri u s ≠ .n) :
    validFor (K.choice c).origType (.tri (K.mode u c)) = true := by
  have htype := hc.type
  rw [hc.tri_eq_mode hs hn] at hn
  cases hmode : K.mode u c with
  | n => exact absurd hmode hn
  | m =>
    rw [(type_of_mode_m htype hmode).1]
    rfl
  | y =>
    revert htype
    cases (K.choice c).origType <;> simp [isBoolTristate, validFor]

end Regular

/-- `set_value` takes the value of a bool or tristate symbol. -/
theorem takesSaved_tri (hreg : ∀ c, K.Regular c) {s : S} (hs : s ∈ K.uniqueDefinedSyms)
    (htype : isBoolTristate (K.sym s).origType = true) : takesSaved u s = true := by
  have hm : K.tri u s = .m → (K.sym s).origType = .tristate := by
    intro hm
    cases hc : (K.sym s).choice with
    | none =>
      by_contra htri
      have hbool : (K.sym s).origType = .bool := by
        revert htype htri
        cases (K.sym s).origType <;> simp [isBoolTristate]
      exact tri_bool hs hbool hc hm
    | some c => exact (hreg c).tristate_of_tri_m (K.choice_mem s c hc).1 hm
  rw [takesSaved, savedValue_tri htype]
  revert htype hm
  cases (K.sym s).origType <;> cases K.tri u s <;> simp [isBoolTristate, validFor]

/-! ## What the assignments of the file leave -/

/-- The symbols `P` have been read from the file of `u`. -/
structure Reads (u : User K.toTables) (P : List S) (p : User K.toTables × (Item S C → Bool)) :
    Prop where
  typed : Typed p.1
  symMark : ∀ s, p.2 (.sym s) = true ↔ s ∈ P ∧ takesSaved u s = true
  symValue : ∀ s ∈ P, takesSaved u s = true → p.1.symValue s = some (savedValue u s)
  choiceMark : ∀ c, p.2 (.choice c) = true ↔ ∃ s ∈ P, (K.sym s).choice = some c ∧ K.tri u s ≠ .n
  mode : ∀ s ∈ P, ∀ c, (K.sym s).choice = some c → K.tri u s ≠ .n →
    p.1.choiceValue c = some (K.mode u c)
  selection : ∀ s ∈ P, ∀ c (hc : (K.sym s).choice = some c), K.tri u s = .y →
    p.1.userSelection c = some ⟨s, (K.choice_mem s c hc).1⟩

variable {P : List S} {p : User K.toTables × (Item S C → Bool)} {s : S}

theorem Reads.nil {u₁ : User K.toTables} (h : Typed u₁) : Reads u [] (u₁, fun _ => false) where
  typed := h
  symMark := by simp
  symValue := by simp
  choiceMark := by simp
  mode := by simp
  selection := by simp

/-- A line that sets its symbol and selects nothing. -/
theorem Reads.cons_plain (h : Reads u P p)
    (hplain : (K.sym s).choice = none ∨ isBoolTristate (K.sym s).origType = true ∧ K.tri u s = .n) :
    Reads u (s :: P) (applyMarked p (.setValue s (.str (K.str u s)))) := by
  have htyped := typed_applyCall h.typed (.setValue s (.str (K.str u s)))
  have hchoice : ∀ c, (∃ t ∈ s :: P, (K.sym t).choice = some c ∧ K.tri u t ≠ .n) ↔
      ∃ t ∈ P, (K.sym t).choice = some c ∧ K.tri u t ≠ .n := by
    intro c
    refine ⟨?_, fun ⟨t, ht, h'⟩ => ⟨t, List.mem_cons_of_mem s ht, h'⟩⟩
    rintro ⟨t, ht, hc, hn⟩
    rcases List.mem_cons.mp ht with rfl | ht
    · rcases hplain with hnone | ⟨-, hn'⟩
      · rw [hnone] at hc
        cases hc
      · exact absurd hn' hn
    · exact ⟨t, ht, hc, hn⟩
  have hmode : ∀ t ∈ s :: P, ∀ c, (K.sym t).choice = some c → K.tri u t ≠ .n →
      p.1.choiceValue c = some (K.mode u c) := by
    intro t ht c hc hn
    obtain ⟨t', ht', hc', hn'⟩ := (hchoice c).mp ⟨t, ht, hc, hn⟩
    exact h.mode t' ht' c hc' hn'
  have hselection : ∀ t ∈ s :: P, ∀ c (hc : (K.sym t).choice = some c), K.tri u t = .y →
      p.1.userSelection c = some ⟨t, (K.choice_mem t c hc).1⟩ := by
    intro t ht c hc hy
    rcases List.mem_cons.mp ht with rfl | ht
    · rcases hplain with hnone | ⟨-, hn⟩
      · rw [hnone] at hc
        cases hc
      · rw [hn] at hy
        cases hy
    · exact h.selection t ht c hc hy
  cases hok : takesSaved u s with
  | true =>
    have hne : (K.sym s).choice = none ∨ savedValue u s ≠ .tri .y := by
      refine hplain.imp_right fun ⟨htype, hn⟩ => ?_
      rw [savedValue_tri htype, hn]
      decide
    have heq := applyMarked_plain (p := p) (x := savedValue u s) rfl hok hne
    change Typed (applyMarked p (.setValue s (.str (K.str u s)))).1 at htyped
    rw [heq] at htyped ⊢
    refine ⟨htyped, fun t => ?_, fun t ht hok' => ?_, fun c => ?_, hmode, hselection⟩
    · have := h.symMark t
      by_cases hts : t = s
      · simp [addMarks_apply, hts, hok]
      · simp [addMarks_apply, hts, this]
    · by_cases hts : t = s
      · simp [hts]
      · simpa [hts] using h.symValue t ((List.mem_cons.mp ht).resolve_left hts) hok'
    · rw [hchoice, ← h.choiceMark]
      simp [addMarks_apply]
  | false =>
    rw [applyMarked_refused h.typed (x := savedValue u s) rfl hok]
    refine ⟨h.typed, fun t => ?_, fun t ht hok' => ?_, fun c => ?_, hmode, hselection⟩
    · rw [h.symMark t]
      by_cases hts : t = s
      · simp [hts, hok]
      · simp [hts]
    · rcases List.mem_cons.mp ht with rfl | ht
      · rw [hok] at hok'
        cases hok'
      · exact h.symValue t ht hok'
    · rw [hchoice, h.choiceMark]

/-- A line that sets a choice symbol and the mode of its choice. -/
theorem Reads.cons_choice (hreg : ∀ c, K.Regular c) (h : Reads u P p) {c : C}
    (hc : (K.sym s).choice = some c) (hn : K.tri u s ≠ .n) :
    Reads u (s :: P) (applyMarked (applyMarked p (.setChoice c (.str (K.str u s))))
      (.setValue s (.str (K.str u s)))) := by
  have hmem := (K.choice_mem s c hc).1
  have htype := (hreg c).symType s hmem
  have htri := (hreg c).tri_eq_mode hmem hn
  have hok : takesSaved u s = true := takesSaved_tri hreg (K.choice_syms c s hmem) htype
  have htyped := typed_applyCall (typed_applyCall h.typed (.setChoice c (.str (K.str u s))))
    (.setValue s (.str (K.str u s)))
  have hset : applyMarked p (.setChoice c (.str (K.str u s))) =
      (p.1.setMode c (some (K.mode u c)), addMarks p.2 [.choice c]) := by
    refine applyMarked_setChoice ?_ ((hreg c).validFor_mode hmem hn)
    rw [str_eq_toStr htype, UserValue.normalize, Tristate.ofStr_toStr, htri]
  have hcalls : ∃ q : User K.toTables × (Item S C → Bool),
      applyMarked (p.1.setMode c (some (K.mode u c)), addMarks p.2 [.choice c])
        (.setValue s (.str (K.str u s))) = q ∧
      q.1.symValue = (p.1.setSym s (some (savedValue u s))).symValue ∧
      q.1.choiceValue = (p.1.setMode c (some (K.mode u c))).choiceValue ∧
      (∀ d, d ≠ c → q.1.userSelection d = p.1.userSelection d) ∧
      q.1.userSelection c =
        (if K.tri u s = .y then some ⟨s, hmem⟩ else p.1.userSelection c) ∧
      q.2 = addMarks p.2 [.sym s, .choice c] := by
    by_cases hy : K.tri u s = .y
    · have hsaved : savedValue u s = .tri .y := by rw [savedValue_tri htype, hy]
      have hvalid : validFor (K.sym s).origType (.tri .y) = true := hsaved ▸ hok
      refine ⟨_, applyMarked_select hsaved hvalid hc, ?_, rfl, fun d hd => ?_, ?_, ?_⟩
      · rw [hsaved]
        rfl
      · simp [hd]
      · simp [hy]
      · funext i
        simp only [addMarks_apply, List.mem_cons, List.not_mem_nil, or_false]
        by_cases hi : i = .sym s <;> by_cases hi' : i = .choice c <;> simp [hi, hi']
    · have hne : savedValue u s ≠ .tri .y := by
        rw [savedValue_tri htype]
        simpa using hy
      refine ⟨_, applyMarked_plain (x := savedValue u s) rfl hok (Or.inr hne), rfl, rfl,
        fun _ _ => rfl, ?_, ?_⟩
      · simp [hy]
      · funext i
        simp only [addMarks_apply, List.mem_cons, List.not_mem_nil, or_false]
        by_cases hi : i = .sym s <;> by_cases hi' : i = .choice c <;> simp [hi, hi']
  obtain ⟨q, hq, hsym, hchoiceValue, hsel, hselc, hmarks⟩ := hcalls
  rw [hset, hq]
  have htyped' : Typed q.1 := by
    rw [← hq, ← hset]
    exact htyped
  refine ⟨htyped', fun t => ?_, fun t ht hok' => ?_, fun d => ?_, fun t ht d hd hn' => ?_,
    fun t ht d hd hy => ?_⟩
  · have := h.symMark t
    by_cases hts : t = s
    · simp [hmarks, addMarks_apply, hts, hok]
    · simp [hmarks, addMarks_apply, hts, this]
  · rw [hsym, User.symValue_setSym]
    by_cases hts : t = s
    · simp [hts]
    · simpa [hts] using h.symValue t ((List.mem_cons.mp ht).resolve_left hts) hok'
  · have := h.choiceMark d
    by_cases hdc : d = c
    · subst hdc
      have : q.2 (.choice d) = true := by simp [hmarks, addMarks_apply]
      exact ⟨fun _ => ⟨s, List.mem_cons_self, hc, hn⟩, fun _ => this⟩
    · have hs : (K.sym s).choice ≠ some d := by
        rw [hc]
        exact fun h => hdc (Option.some.inj h).symm
      simp [hmarks, addMarks_apply, hdc, this, hs]
  · rw [hchoiceValue, User.choiceValue_setMode]
    by_cases hdc : d = c
    · rw [if_pos hdc, hdc]
    · rw [if_neg hdc]
      rcases List.mem_cons.mp ht with rfl | ht
      · exact absurd (Option.some.inj (hd.symm.trans hc)) hdc
      · exact h.mode t ht d hd hn'
  · by_cases hdc : d = c
    · subst hdc
      rw [hselc]
      rcases List.mem_cons.mp ht with rfl | ht
      · rw [if_pos hy]
      · by_cases hsy : K.tri u s = .y
        · -- Only one symbol of the choice is `y`.
          have h₁ := ((hreg d).tri_eq_y_iff hmem).mp hsy
          have h₂ := ((hreg d).tri_eq_y_iff (K.choice_mem t d hd).1).mp hy
          obtain rfl := Option.some.inj (h₁.symm.trans h₂)
          rw [if_pos hsy]
        · rw [if_neg hsy]
          exact h.selection t ht d hd hy
    · rw [hsel d hdc]
      rcases List.mem_cons.mp ht with rfl | ht
      · exact absurd (Option.some.inj (hd.symm.trans hc)) hdc
      · exact h.selection t ht d hd hy

/-- What the file says about one symbol. -/
theorem Reads.valueCalls (hreg : ∀ c, K.Regular c) (h : Reads u P p) :
    Reads u (s :: P)
      ((Kconfiglib.valueCalls K.toTables s (K.str u s)).foldl applyMarked p) := by
  unfold Kconfiglib.valueCalls
  split
  · next htype =>
    split
    · next c hc =>
      have hiff : K.str u s = ['n'] ↔ K.tri u s = .n := by
        rw [str_eq_toStr htype, toStr_eq_n_iff]
      split
      · next hn => exact h.cons_choice hreg hc (mt hiff.mpr hn)
      · next hn => exact h.cons_plain (Or.inr ⟨htype, hiff.mp (not_not.mp hn)⟩)
    · next hc => exact h.cons_plain (Or.inl hc)
  · next htype =>
    refine h.cons_plain (Or.inl ?_)
    cases hc : (K.sym s).choice with
    | none => rfl
    | some c => exact absurd ((hreg c).symType s (K.choice_mem s c hc).1) htype

/-- What the file says about some symbols. -/
theorem Reads.flatMap (hreg : ∀ c, K.Regular c) (h : Reads u P p) (syms : List S) :
    Reads u (syms.reverse ++ P) ((syms.flatMap fun s =>
      Kconfiglib.valueCalls K.toTables s (K.str u s)).foldl applyMarked p) := by
  induction syms generalizing P p with
  | nil => exact h
  | cons s syms ih =>
    rw [List.flatMap_cons, List.foldl_append, List.reverse_cons, List.append_assoc]
    exact ih (h.valueCalls hreg)

end Kconfig

end MaixSpeech.Kconfiglib
