import MaixSpeech.Kconfiglib.Choices
import MaixSpeech.Kconfiglib.Meaning

/-!
# Choices of a finalized menu

Reference: `tools/kconfig/Kconfiglib/kconfiglib.py`.

`_check_choice_sanity` looks at the menu tree: a choice is to be bool or tristate, and the nodes of its
symbols that have a prompt are to be its children. Where also the symbols are bool or tristate and are
children of no other choice, which it does not check, `regular_of_sane` turns this into what the values
need: the symbols know their choice, and every prompt of theirs has it among its conditions.
-/

namespace MaixSpeech.Kconfiglib

open Common Build

variable {S C : Type} [DecidableEq S] [DecidableEq C] {k : Constants S}

/-- The symbol has a node among the children of the choice. -/
def ChildOf (menu : Chain (Entry S C)) (c : C) (s : S) : Prop :=
  ∃ f ∈ menu.families, f.1.item = some (.choice c) ∧ s ∈ symsOf f.2

/-- A choice in a finalized menu. Of `type` and `inside`, `_check_choice_sanity` warns where they fail;
`symType` and `once` are beyond it. -/
structure Sane (menu : Chain (Entry S C)) (st : Collected S C) (c : C) : Prop where
  type : isBoolTristate (st.choices.type c) = true
  symType : ∀ s, ChildOf menu c s → isBoolTristate (st.choices.symType s) = true
  inside : ∀ s, ChildOf menu c s → ∀ x ∈ nodesOf (.sym s) menu.preorder, x.prompt ≠ none →
    ∃ f ∈ menu.families, f.1.item = some (.choice c) ∧ x ∈ f.2
  once : ∀ s, ChildOf menu c s → ∀ d, ChildOf menu d s → d = c

/-! ## The symbols of a choice -/

theorem mem_syms_finalizeChoice (choices : ChoiceProps S C) (f : Entry S C × List (Entry S C))
    (c : C) (s : S) : s ∈ (finalizeChoice k choices f).syms c ↔
      s ∈ choices.syms c ∨ f.1.item = some (.choice c) ∧ s ∈ symsOf f.2 := by
  by_cases hchoice : ∃ d, f.1.item = some (.choice d)
  · obtain ⟨d, hd⟩ := hchoice
    have hunfold : (finalizeChoice k choices f).syms =
        Function.update choices.syms d (choices.syms d ++ symsOf f.2) := by
      unfold finalizeChoice
      rw [hd]
    rw [hunfold]
    by_cases hdc : c = d
    · subst hdc
      simp [hd]
    · simp [hd, Function.update_of_ne hdc, Ne.symm hdc]
  · have hne : ∀ d, f.1.item ≠ some (.choice d) := fun d hd => hchoice ⟨d, hd⟩
    have hnot : f.1.isChoice = false := by
      rcases hitem : f.1.item with _ | _ | _ | _ | _ <;> simp_all [Entry.isChoice]
    rw [show f = (f.1, f.2) from rfl, finalizeChoice_of_not hnot]
    simp [hne]

theorem mem_syms_foldl (choices : ChoiceProps S C) (l : List (Entry S C × List (Entry S C)))
    (c : C) (s : S) : s ∈ (l.foldl (finalizeChoice k) choices).syms c ↔
      s ∈ choices.syms c ∨ ∃ f ∈ l, f.1.item = some (.choice c) ∧ s ∈ symsOf f.2 := by
  induction l generalizing choices with
  | nil => simp
  | cons f l ih =>
    rw [List.foldl_cons, ih, mem_syms_finalizeChoice, or_assoc]
    simp only [List.mem_cons, exists_eq_or_imp]

theorem symChoice_finalizeChoice (choices : ChoiceProps S C) (f : Entry S C × List (Entry S C))
    {c : C} {s : S} (honly : ∀ d, f.1.item = some (.choice d) → s ∈ symsOf f.2 → d = c)
    (h : choices.symChoice s = some c ∨ f.1.item = some (.choice c) ∧ s ∈ symsOf f.2) :
    (finalizeChoice k choices f).symChoice s = some c := by
  unfold finalizeChoice
  split
  · next d hd =>
    by_cases hs : s ∈ symsOf f.2
    · simp [hs, honly d hd hs]
    · simpa [hs] using h
  · next hnot => exact h.resolve_right fun hc => hnot c hc.1

theorem symChoice_foldl (choices : ChoiceProps S C) (l : List (Entry S C × List (Entry S C)))
    {c : C} {s : S}
    (honly : ∀ f ∈ l, ∀ d, f.1.item = some (.choice d) → s ∈ symsOf f.2 → d = c)
    (h : choices.symChoice s = some c ∨
      ∃ f ∈ l, f.1.item = some (.choice c) ∧ s ∈ symsOf f.2) :
    (l.foldl (finalizeChoice k) choices).symChoice s = some c := by
  induction l generalizing choices with
  | nil => exact h.resolve_right fun ⟨_, hf, _⟩ => absurd hf List.not_mem_nil
  | cons f l ih =>
    refine ih _ (fun g hg => honly g (List.mem_cons_of_mem f hg)) ?_
    have hstep := symChoice_finalizeChoice (k := k) choices f (honly f List.mem_cons_self)
    rcases h with h | ⟨g, hg, hgc⟩
    · exact Or.inl (hstep (Or.inl h))
    · rcases List.mem_cons.mp hg with rfl | hg
      · exact Or.inl (hstep (Or.inr hgc))
      · exact Or.inr ⟨g, hg, hgc⟩

/-! ## What the values need -/

section Regular

variable {T : Tables S C} {top : Entry S C} {list menu : Chain (Entry S C)}
  {symType : S → SymbolType} {choiceType : C → SymbolType} {st : Collected S C}

theorem Finalized.mem_syms (h : Finalized k top list (.start k symType choiceType) menu st) (c : C)
    (s : S) : s ∈ st.choices.syms c ↔ ChildOf menu c s := by
  rw [h.choices, mem_syms_foldl]
  exact or_iff_right List.not_mem_nil

/-- The prompts of a symbol whose nodes are in a choice name the choice. -/
theorem Finalized.prompts_name (h : Finalized k top list (.start k symType choiceType) menu st)
    {c : C} (hc : Sane menu st c) {s : S} (hs : ChildOf menu c s) {e : Expr S C}
    (he : e ∈ promptsOf (.sym s) menu) : NamesChoice k c e := by
  obtain ⟨x, hx, hprompt⟩ := List.mem_filterMap.mp he
  obtain ⟨p, hp, rfl⟩ := Option.map_eq_some_iff.mp hprompt
  have howner : x.owner = some (.sym s) := by simpa using (List.mem_filter.mp hx).2
  obtain ⟨f, hf, hfc, hxf⟩ := hc.inside s hs x hx (by simp [hp])
  exact (h.members f hf c hfc x hxf).prompt (Entry.isSymbolChoice_of_owner howner) p hp

/-- **Choices after finalizing.** A sane choice of the menu tree is regular in a configuration with the
finalized tables. -/
theorem regular_of_sane {K : Kconfig S C}
    (h : Finalized T.consts top list (.start T.consts symType choiceType) menu st)
    (hK : K.toTables = finalizedTables T menu st) {c : C} (hc : Sane menu st c) : K.Regular c := by
  have hsyms : ∀ s, s ∈ (K.choice c).syms ↔ ChildOf menu c s := by
    rw [hK]
    exact h.mem_syms c
  refine ⟨?_, fun s hs => ?_, fun s hs => ?_, fun s hs e he => ?_⟩
  · rw [hK]
    exact hc.type
  · rw [hK]
    exact hc.symType s ((hsyms s).mp hs)
  · obtain ⟨f, hf, hfc, hfs⟩ := (hsyms s).mp hs
    rw [hK]
    change st.choices.symChoice s = some c
    rw [h.choices]
    exact symChoice_foldl _ _
      (fun g hg d hd hgs => hc.once s ⟨f, hf, hfc, hfs⟩ d ⟨g, hg, hd, hgs⟩)
      (Or.inr ⟨f, hf, hfc, hfs⟩)
  · rw [hK] at he ⊢
    exact h.prompts_name hc ((hsyms s).mp hs) he

end Regular

end MaixSpeech.Kconfiglib
