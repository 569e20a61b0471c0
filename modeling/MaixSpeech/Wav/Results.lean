import MaixSpeech.Wav.Benchmark

/-!
# The results of the files

Reference: `components/utils/src/benchmark.c`.

What `benchmark` should write for a file is read off its callbacks: all syllables but silence, in
order (`rawText`), and the last words (`lastWords`). The callbacks collect this in two buffers of
512 bytes each, so it is what `benchmark` writes exactly when it fits (`benchmark_results_iff`). The
invariant is that a buffer holds the text of the callbacks so far; a callback gets through if and
only if the longer text still fits.
-/

namespace MaixSpeech.Wav

open Common

variable {n : ℕ} {env : WavEnv n}

/-! ## What is to be written -/

/-- The text of the time steps: each syllable other than silence, with a space behind it. -/
def topsText (vocab : Fin n → CStr) (tops : List (Fin n)) : List UInt8 :=
  tops.flatMap fun top : Fin n => if (top : ℕ) = n - 1 then [] else (vocab top).1 ++ bytes " "

/-- The text of the raw callbacks. -/
def rawText (vocab : Fin n → CStr) (cbs : List (Callback n)) : List UInt8 :=
  cbs.flatMap fun
    | .raw tops => topsText vocab tops
    | .lvcsr _ => []

/-- The words of the LVCSR callbacks. -/
def wordsOf (cbs : List (Callback n)) : List CStr :=
  cbs.filterMap fun
    | .raw _ => none
    | .lvcsr words => some words

/-- The words of the last LVCSR callback, nothing if there is none. -/
def lastWords (cbs : List (Callback n)) : List UInt8 := (wordsOf cbs).getLast?.elim [] Subtype.val

/-- The callbacks made for a file. -/
def fileCallbacks : List (Run n) → List (Callback n)
  | [] => []
  | r :: runs => r.callbacks ++ if r.frames < 1 then [] else fileCallbacks runs

/-- `exit_flag` is seen to be raised in or behind the loop of a file. -/
def exits (f : WavFile n) : Prop := (∀ r ∈ f.runs, ¬ r.frames < 1) ∨ f.exitFlag = true

instance (f : WavFile n) : Decidable (exits f) := inferInstanceAs (Decidable (_ ∨ _))

/-- The files that are tested to their end. -/
def tested : List (WavFile n) → List (WavFile n)
  | [] => []
  | f :: files => if f.setDev ≠ 0 ∨ exits f then [] else f :: tested files

/-- The results are complete: `benchmark` stays inside its buffers, and for each tested file, in
order, there is a line with its name and its syllables, and one with its name and its last words. -/
def ResultsComplete (env : WavEnv n) (files : List (WavFile n)) : Prop :=
  ∃ st, benchmark env files = some st ∧
    st.pnyFile = (if env.testpny then (tested files).map fun f =>
      (f.name, rawText env.vocab (fileCallbacks f.runs)) else []) ∧
    st.hanFile = (if env.testhan then (tested files).map fun f =>
      (f.name, lastWords (fileCallbacks f.runs)) else [])

/-- The results of these callbacks fit into the buffers. -/
structure CallbacksFit (env : WavEnv n) (cbs : List (Callback n)) : Prop where
  pny : env.testpny = true → (rawText env.vocab cbs).length < resultLen
  han : env.testhan = true → ∀ words ∈ wordsOf cbs, words.1.length < resultLen

/-- The results of every file `benchmark` gets to fit into the buffers. -/
def FilesFit (env : WavEnv n) : List (WavFile n) → Prop
  | [] => True
  | f :: files => f.setDev = 0 →
    CallbacksFit env (fileCallbacks f.runs) ∧ (¬ exits f → FilesFit env files)

/-! ## The raw callback -/

theorem zero_notMem_space : (0 : UInt8) ∉ bytes " " := by decide

section Raw

variable {vocab : Fin n → CStr} {pny pny' : List UInt8}

/-- A time step that gets through appends its text. -/
theorem testRawStep_spec {top : Fin n} (h : testRawStep vocab pny top = some pny') :
    cstr pny' = cstr pny ++ topsText vocab [top] ∧ pny'.length = pny.length ∧
      ((cstr pny).length < pny.length → (cstr pny').length < pny.length) := by
  unfold testRawStep at h
  simp only [topsText, List.flatMap_cons, List.flatMap_nil, List.append_nil]
  split at h
  · rename_i hsilent
    obtain rfl := Option.some.inj h
    rw [if_pos hsilent, List.append_nil]
    exact ⟨rfl, rfl, id⟩
  · rename_i hsyllable
    obtain ⟨pny₁, h₁, h₂⟩ := Option.bind_eq_some_iff.mp h
    obtain ⟨hc₁, hl₁, -⟩ := strcat_spec h₁ (vocab top).2
    obtain ⟨hc₂, hl₂, hlt⟩ := strcat_spec h₂ zero_notMem_space
    rw [hl₁] at hlt
    refine ⟨?_, hl₂.trans hl₁, fun _ => hlt⟩
    rw [if_neg hsyllable, hc₂, hc₁, List.append_assoc]

theorem exists_testRawStep {top : Fin n}
    (h : (cstr pny).length + (topsText vocab [top]).length < pny.length) :
    ∃ pny', testRawStep vocab pny top = some pny' := by
  unfold testRawStep
  simp only [topsText, List.flatMap_cons, List.flatMap_nil, List.append_nil] at h
  split
  · exact ⟨pny, rfl⟩
  · rename_i hsyllable
    rw [if_neg hsyllable, List.length_append] at h
    have hsyllable₁ : (cstr pny).length + (vocab top).1.length < pny.length := by omega
    obtain ⟨pny₁, h₁⟩ := exists_strcat hsyllable₁
    obtain ⟨hc₁, hl₁, -⟩ := strcat_spec h₁ (vocab top).2
    have hspace : (cstr pny₁).length + (bytes " ").length < pny₁.length := by
      rw [hc₁, hl₁, List.length_append]
      omega
    obtain ⟨pny₂, h₂⟩ := exists_strcat hspace
    exact ⟨pny₂, by rw [h₁, Option.bind_some, h₂]⟩

theorem topsText_cons (top : Fin n) (tops : List (Fin n)) :
    topsText vocab (top :: tops) = topsText vocab [top] ++ topsText vocab tops := by
  simp [topsText]

theorem testRawcb_spec {tops : List (Fin n)} (h : testRawcb vocab pny tops = some pny') :
    cstr pny' = cstr pny ++ topsText vocab tops ∧ pny'.length = pny.length ∧
      ((cstr pny).length < pny.length → (cstr pny').length < pny.length) := by
  induction tops generalizing pny with
  | nil =>
    obtain rfl := Option.some.inj h
    exact ⟨(List.append_nil _).symm, rfl, id⟩
  | cons top tops ih =>
    rw [testRawcb, List.foldlM_cons, Option.bind_eq_bind] at h
    obtain ⟨pny₁, h₁, h₂⟩ := Option.bind_eq_some_iff.mp h
    obtain ⟨hc₁, hl₁, hlt₁⟩ := testRawStep_spec h₁
    obtain ⟨hc₂, hl₂, hlt₂⟩ := ih h₂
    rw [hl₁] at hlt₂
    refine ⟨?_, hl₂.trans hl₁, fun h => hlt₂ (hlt₁ h)⟩
    rw [hc₂, hc₁, List.append_assoc, ← topsText_cons]

theorem exists_testRawcb {tops : List (Fin n)}
    (h : (cstr pny).length + (topsText vocab tops).length < pny.length) :
    ∃ pny', testRawcb vocab pny tops = some pny' := by
  induction tops generalizing pny with
  | nil => exact ⟨pny, rfl⟩
  | cons top tops ih =>
    rw [topsText_cons, List.length_append] at h
    have hfirst : (cstr pny).length + (topsText vocab [top]).length < pny.length := by omega
    obtain ⟨pny₁, h₁⟩ := exists_testRawStep hfirst
    obtain ⟨hc₁, hl₁, -⟩ := testRawStep_spec h₁
    have hrest : (cstr pny₁).length + (topsText vocab tops).length < pny₁.length := by
      rw [hc₁, hl₁, List.length_append]
      omega
    obtain ⟨pny₂, h₂⟩ := ih hrest
    refine ⟨pny₂, ?_⟩
    rw [testRawcb, List.foldlM_cons, Option.bind_eq_bind, h₁, Option.bind_some]
    exact h₂

end Raw

/-! ## All callbacks -/

section Callbacks

variable {b b' b₁ : Bufs} {cbs cbs₁ : List (Callback n)}

/-- The buffers have their size, and hold strings. -/
structure BufsInv (b : Bufs) : Prop where
  pnyLength : b.pnyResult.length = resultLen
  hanLength : b.hanResult.length = resultLen
  pny : (cstr b.pnyResult).length < resultLen

/-- Between `b` and `b'` the buffers have collected the results of the callbacks. -/
structure Collected (env : WavEnv n) (b : Bufs) (cbs : List (Callback n)) (b' : Bufs) : Prop where
  inv : BufsInv b'
  pny : env.testpny = true → cstr b'.pnyResult = cstr b.pnyResult ++ rawText env.vocab cbs
  han : env.testhan = true →
    cstr b'.hanResult = (wordsOf cbs).getLast?.elim (cstr b.hanResult) Subtype.val
  words : env.testhan = true → ∀ words ∈ wordsOf cbs, words.1.length < resultLen

/-- There is room for the results of the callbacks. -/
structure Room (env : WavEnv n) (b : Bufs) (cbs : List (Callback n)) : Prop where
  pny : env.testpny = true →
    (cstr b.pnyResult).length + (rawText env.vocab cbs).length < resultLen
  han : env.testhan = true → ∀ words ∈ wordsOf cbs, words.1.length < resultLen

theorem rawText_append : rawText env.vocab (cbs ++ cbs₁) =
    rawText env.vocab cbs ++ rawText env.vocab cbs₁ := List.flatMap_append

theorem wordsOf_append : wordsOf (cbs ++ cbs₁) = wordsOf cbs ++ wordsOf cbs₁ :=
  List.filterMap_append

theorem Collected.nil (h : BufsInv b) : Collected env b [] b where
  inv := h
  pny _ := (List.append_nil _).symm
  han _ := rfl
  words _ := by simp [wordsOf]

theorem Collected.append (h : Collected env b cbs b₁) (h₁ : Collected env b₁ cbs₁ b') :
    Collected env b (cbs ++ cbs₁) b' where
  inv := h₁.inv
  pny ht := by rw [h₁.pny ht, h.pny ht, List.append_assoc, rawText_append]
  han ht := by
    rw [h₁.han ht, h.han ht, wordsOf_append, List.getLast?_append]
    cases (wordsOf cbs₁).getLast? <;> rfl
  words ht := by
    rw [wordsOf_append]
    intro w hw
    rcases List.mem_append.mp hw with hw | hw
    · exact h.words ht w hw
    · exact h₁.words ht w hw

/-- What has been collected had room. -/
theorem Collected.room (h : Collected env b cbs b') : Room env b cbs where
  pny ht := by
    rw [← List.length_append, ← h.pny ht]
    exact h.inv.pny
  han := h.words

theorem Room.left (h : Room env b (cbs ++ cbs₁)) : Room env b cbs where
  pny ht := by
    have := h.pny ht
    rw [rawText_append, List.length_append] at this
    omega
  han ht w hw := h.han ht w (by rw [wordsOf_append]; exact List.mem_append_left _ hw)

theorem Room.right (h : Room env b (cbs ++ cbs₁)) (hc : Collected env b cbs b₁) :
    Room env b₁ cbs₁ where
  pny ht := by
    have := h.pny ht
    rw [rawText_append, List.length_append] at this
    rw [hc.pny ht, List.length_append]
    omega
  han ht w hw := h.han ht w (by rw [wordsOf_append]; exact List.mem_append_right _ hw)

/-- One callback collects its result, if it gets through. -/
theorem callback_collected {cb : Callback n} (hinv : BufsInv b) (h : callback env b cb = some b') :
    Collected env b [cb] b' := by
  cases cb with
  | raw tops =>
    have htext : rawText env.vocab [.raw tops] = topsText env.vocab tops := by simp [rawText]
    have hwords : wordsOf [.raw tops] = [] := rfl
    simp only [callback] at h
    split at h
    · obtain ⟨pny, hpny, rfl⟩ := Option.map_eq_some_iff.mp h
      obtain ⟨hcstr, hlen, hlt⟩ := testRawcb_spec hpny
      have hsize := hinv.pnyLength
      refine ⟨⟨hlen.trans hsize, hinv.hanLength, ?_⟩, fun _ => ?_, fun _ => rfl, fun _ w hw => ?_⟩
      · rw [← hsize]
        exact hlt (hsize ▸ hinv.pny)
      · rw [htext, hcstr]
      · rw [hwords] at hw
        exact absurd hw List.not_mem_nil
    · rename_i hoff
      obtain rfl := Option.some.inj h
      exact ⟨hinv, fun ht => absurd ht hoff, fun _ => rfl,
        fun _ w hw => absurd (hwords ▸ hw) List.not_mem_nil⟩
  | lvcsr words =>
    have htext : rawText env.vocab [.lvcsr words] = [] := rfl
    simp only [callback] at h
    split at h
    · obtain ⟨han, hhan, rfl⟩ := Option.map_eq_some_iff.mp h
      obtain ⟨hcstr, hlen⟩ := strcpy_spec hhan words.2
      refine ⟨⟨hinv.pnyLength, hlen.trans hinv.hanLength, hinv.pny⟩, fun _ => ?_, fun _ => hcstr,
        fun _ w hw => ?_⟩
      · rw [htext, List.append_nil]
      · obtain rfl : w = words := by simpa [wordsOf] using hw
        by_contra hge
        rw [testLvcsrcb, strcpy_eq_none (by rw [hinv.hanLength]; omega)] at hhan
        cases hhan
    · rename_i hoff
      obtain rfl := Option.some.inj h
      exact ⟨hinv, fun _ => by rw [htext, List.append_nil], fun ht => absurd ht hoff,
        fun ht => absurd ht hoff⟩

theorem exists_callback {cb : Callback n} (hinv : BufsInv b) (h : Room env b [cb]) :
    ∃ b', callback env b cb = some b' := by
  cases cb with
  | raw tops =>
    simp only [callback]
    split
    · rename_i ht
      have hfit : (cstr b.pnyResult).length + (topsText env.vocab tops).length <
          b.pnyResult.length := by
        have hroom := h.pny ht
        rw [hinv.pnyLength]
        simpa [rawText] using hroom
      obtain ⟨pny, hpny⟩ := exists_testRawcb hfit
      exact ⟨_, by rw [hpny, Option.map_some]⟩
    · exact ⟨b, rfl⟩
  | lvcsr words =>
    simp only [callback]
    split
    · rename_i ht
      have hfit : words.1.length < b.hanResult.length := by
        rw [hinv.hanLength]
        exact h.han ht words (by simp [wordsOf])
      exact ⟨_, by rw [testLvcsrcb, strcpy_eq_some hfit, Option.map_some]⟩
    · exact ⟨b, rfl⟩

theorem callbacks_collected (hinv : BufsInv b) (h : cbs.foldlM (callback env) b = some b') :
    Collected env b cbs b' := by
  induction cbs generalizing b with
  | nil =>
    obtain rfl := Option.some.inj h
    exact .nil hinv
  | cons cb cbs ih =>
    rw [List.foldlM_cons, Option.bind_eq_bind] at h
    obtain ⟨b₁, h₁, h₂⟩ := Option.bind_eq_some_iff.mp h
    have hfirst := callback_collected hinv h₁
    exact hfirst.append (ih hfirst.inv h₂)

theorem exists_callbacks (hinv : BufsInv b) (h : Room env b cbs) :
    ∃ b', cbs.foldlM (callback env) b = some b' := by
  induction cbs generalizing b with
  | nil => exact ⟨b, rfl⟩
  | cons cb cbs ih =>
    rw [← List.singleton_append] at h
    obtain ⟨b₁, h₁⟩ := exists_callback hinv h.left
    have hfirst := callback_collected hinv h₁
    obtain ⟨b₂, h₂⟩ := ih hfirst.inv (h.right hfirst)
    exact ⟨b₂, by rw [List.foldlM_cons, Option.bind_eq_bind, h₁, Option.bind_some, h₂]⟩

end Callbacks

/-! ## The files -/

section Files

variable {b b' : Bufs} {runs : List (Run n)} {frames frames' : ℕ} {exit : Bool}

/-- The loop of a file collects the file's callbacks, and sees `exit_flag` when no call of
`ms_asr_run` has ended it. -/
theorem runLoop_spec (hinv : BufsInv b)
    (h : runLoop env runs b frames = some (b', frames', exit)) :
    Collected env b (fileCallbacks runs) b' ∧ (exit = true ↔ ∀ r ∈ runs, ¬ r.frames < 1) := by
  induction runs generalizing b frames with
  | nil =>
    obtain ⟨rfl, -, rfl⟩ : b = b' ∧ frames = frames' ∧ true = exit := by simpa [runLoop] using h
    exact ⟨.nil hinv, by simp⟩
  | cons r runs ih =>
    obtain ⟨b₁, h₁, h₂⟩ := Option.bind_eq_some_iff.mp h
    have hfirst := callbacks_collected hinv h₁
    rw [fileCallbacks]
    split at h₂
    · rename_i hlast
      obtain ⟨rfl, -, rfl⟩ : b₁ = b' ∧ frames + 1 = frames' ∧ false = exit := by simpa using h₂
      rw [if_pos hlast, List.append_nil]
      refine ⟨hfirst, fun hf => ?_, fun hall => absurd hlast (hall r List.mem_cons_self)⟩
      cases hf
    · rename_i hgo
      obtain ⟨hrest, hexit⟩ := ih hfirst.inv h₂
      rw [if_neg hgo]
      refine ⟨hfirst.append hrest, ?_⟩
      rw [hexit, List.forall_mem_cons]
      exact ⟨fun h => ⟨hgo, h⟩, fun h => h.2⟩

theorem exists_runLoop (frames : ℕ) (hinv : BufsInv b) (h : Room env b (fileCallbacks runs)) :
    ∃ b' frames' exit, runLoop env runs b frames = some (b', frames', exit) := by
  induction runs generalizing b frames with
  | nil => exact ⟨b, frames, true, rfl⟩
  | cons r runs ih =>
    rw [fileCallbacks] at h
    obtain ⟨b₁, h₁⟩ := exists_callbacks hinv h.left
    have hfirst := callbacks_collected hinv h₁
    rw [runLoop, h₁, Option.bind_some]
    split
    · exact ⟨_, _, _, rfl⟩
    · rename_i hgo
      rw [if_neg hgo] at h
      exact ih (frames + 1) hfirst.inv (h.right hfirst)

theorem bufsInv_cleared : BufsInv clearedBufs :=
  ⟨List.length_replicate, List.length_replicate, Nat.zero_lt_succ _⟩

theorem cstr_clearedBufs :
    cstr clearedBufs.pnyResult = [] ∧ cstr clearedBufs.hanResult = [] := ⟨rfl, rfl⟩

theorem room_cleared_iff {cbs : List (Callback n)} :
    Room env clearedBufs cbs ↔ CallbacksFit env cbs := by
  have hempty : (cstr clearedBufs.pnyResult).length = 0 := by rw [cstr_clearedBufs.1]; rfl
  constructor
  · rintro ⟨hpny, hhan⟩
    simp only [hempty, Nat.zero_add] at hpny
    exact ⟨hpny, hhan⟩
  · rintro ⟨hpny, hhan⟩
    refine ⟨fun ht => ?_, hhan⟩
    rw [hempty, Nat.zero_add]
    exact hpny ht

/-- The lines for the files are those of `st'` behind those of `st`. -/
structure Wrote (env : WavEnv n) (files : List (WavFile n)) (st st' : WavSt) : Prop where
  pny : st'.pnyFile = st.pnyFile ++ if env.testpny then (tested files).map fun f =>
    (f.name, rawText env.vocab (fileCallbacks f.runs)) else []
  han : st'.hanFile = st.hanFile ++ if env.testhan then (tested files).map fun f =>
    (f.name, lastWords (fileCallbacks f.runs)) else []

/-- A file's lines, then those of the files behind it. -/
theorem Wrote.cons {f : WavFile n} {files : List (WavFile n)} {st st' : WavSt} (frames : ℕ)
    (hf : ¬ (f.setDev ≠ 0 ∨ exits f)) (hc : Collected env clearedBufs (fileCallbacks f.runs) b)
    (h : Wrote env files (writeResults env f.name b { st with totalFrames := frames }) st') :
    Wrote env (f :: files) st st' where
  pny := by
    rw [h.pny, tested, if_neg hf]
    cases ht : env.testpny with
    | false => simp [writeResults, ht]
    | true =>
      have htext := hc.pny ht
      rw [cstr_clearedBufs.1, List.nil_append] at htext
      simp [writeResults, ht, htext]
  han := by
    rw [h.han, tested, if_neg hf]
    cases ht : env.testhan with
    | false => simp [writeResults, ht]
    | true =>
      have htext := hc.han ht
      rw [cstr_clearedBufs.2] at htext
      simp [writeResults, ht, htext, lastWords]

/-- Files that fit are worked through, and their lines are complete. -/
theorem testFiles_of_fit {files : List (WavFile n)} {st : WavSt} (h : FilesFit env files) :
    ∃ st', testFiles env files st = some st' ∧ Wrote env files st st' := by
  induction files generalizing st with
  | nil => exact ⟨st, rfl, by simp [tested], by simp [tested]⟩
  | cons f files ih =>
    by_cases hdev : f.setDev = 0
    · obtain ⟨hfit, hnext⟩ := h hdev
      obtain ⟨b, frames, exit, hrun⟩ :=
        exists_runLoop st.totalFrames bufsInv_cleared (room_cleared_iff.mpr hfit)
      obtain ⟨hcollected, hexit⟩ := runLoop_spec bufsInv_cleared hrun
      have hexits : (exit || f.exitFlag) = true ↔ exits f := by
        rw [Bool.or_eq_true, hexit, exits]
      rw [testFiles, if_neg (not_not.mpr hdev), hrun, Option.bind_some]
      by_cases hex : exits f
      · refine ⟨_, if_pos (hexits.mpr hex), ?_, ?_⟩
        · simp [tested, hex]
        · simp [tested, hex]
      · obtain ⟨st', hst', hwrote⟩ := ih (hnext hex)
        refine ⟨st', ?_, hwrote.cons frames (by simp [hdev, hex]) hcollected⟩
        rw [← hst']
        exact if_neg fun h => hex (hexits.mp h)
    · refine ⟨st, by rw [testFiles, if_pos hdev], ?_, ?_⟩
      · simp [tested, hdev]
      · simp [tested, hdev]

/-- Files that are worked through fit. -/
theorem fit_of_testFiles {files : List (WavFile n)} {st st' : WavSt}
    (h : testFiles env files st = some st') : FilesFit env files := by
  induction files generalizing st with
  | nil => trivial
  | cons f files ih =>
    intro hdev
    rw [testFiles, if_neg (not_not.mpr hdev)] at h
    obtain ⟨⟨b, frames, exit⟩, hrun, hrest⟩ := Option.bind_eq_some_iff.mp h
    obtain ⟨hcollected, hexit⟩ := runLoop_spec bufsInv_cleared hrun
    refine ⟨room_cleared_iff.mp hcollected.room, fun hex => ?_⟩
    have hgo : ¬ (exit || f.exitFlag) = true := by
      rw [Bool.or_eq_true, hexit]
      exact hex
    simp only [if_neg hgo] at hrest
    exact ih hrest

/-- What is not tested always fits. -/
theorem filesFit_of_untested (h : ¬ (env.testpny || env.testhan) = true) (files : List (WavFile n)) :
    FilesFit env files := by
  rw [Bool.or_eq_true, not_or] at h
  induction files with
  | nil => trivial
  | cons f files ih =>
    exact fun _ => ⟨⟨fun ht => absurd ht h.1, fun ht => absurd ht h.2⟩, fun _ => ih⟩

/-- **The results are complete exactly when they fit.** For every list of files and every behaviour
of the decoder, `benchmark` stays inside its buffers and writes the complete results if and only if
the syllables of each file it gets to take fewer than 512 bytes and so do all words reported for it,
as far as they are tested. -/
theorem benchmark_results_iff (env : WavEnv n) (files : List (WavFile n)) :
    ResultsComplete env files ↔ FilesFit env files := by
  unfold ResultsComplete benchmark
  by_cases ht : (env.testpny || env.testhan) = true
  · rw [if_pos ht]
    constructor
    · rintro ⟨st, hst, -⟩
      exact fit_of_testFiles hst
    · intro hfit
      obtain ⟨st, hst, hwrote⟩ := testFiles_of_fit hfit
      exact ⟨st, hst, hwrote.pny, hwrote.han⟩
  · have hoff := ht
    rw [Bool.or_eq_true, not_or] at hoff
    rw [if_neg ht, if_neg hoff.1, if_neg hoff.2]
    exact ⟨fun _ => filesFit_of_untested ht files, fun _ => ⟨_, rfl, rfl, rfl⟩⟩

theorem notMem_silence : 0 ∉ bytes "_" := by decide

/-- A vocabulary of one syllable and silence. -/
def oneSyllable : WavEnv 2 where
  vocab i := if i = 0 then ⟨bytes "ni", by decide⟩ else ⟨bytes "_", notMem_silence⟩
  testpny := true
  testhan := false

/-- A recording of that syllable, over and over. -/
def longRecording : WavFile 2 where
  name := ⟨bytes "long.wav", by decide⟩
  setDev := 0
  runs := [⟨[.raw (List.replicate 171 0)], 1⟩, ⟨[], 0⟩]
  exitFlag := false

theorem benchmark_overflows_longRecording : ¬ ResultsComplete oneSyllable [longRecording] := by
  rintro ⟨st, hst, -⟩
  rw [benchmark, if_pos (by decide)] at hst
  have hfit : FilesFit oneSyllable [longRecording] := fit_of_testFiles hst
  -- 171 syllables of three bytes do not fit into 512
  have hlong : ¬ (rawText oneSyllable.vocab (fileCallbacks longRecording.runs)).length <
      resultLen := by
    decide +kernel
  exact hlong ((hfit rfl).1.pny rfl)

end Files

end MaixSpeech.Wav
