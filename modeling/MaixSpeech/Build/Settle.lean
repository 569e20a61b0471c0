import MaixSpeech.Build.Describe
import MaixSpeech.Build.Rewrite
import MaixSpeech.Common.Block

/-!
# When the version file is left alone

Reference: `tools/kconfig/update_build_info.py`.

`append_time_info` compares the text it has made with the text it has read, so that a version that
is unchanged leaves the file and nothing is built again. The second run must then make the text of
the first one. It does so when the file has one block, with or without other text, and not for
every text: what stands between an unmatched start marker and the new block is taken for the old
info. `notRewritten_iff` gives the exact condition.
-/

namespace MaixSpeech.Build

open Common

/-! ## The lines of an info -/

/-- The lines of `append_format_git_str`. -/
def gitFields (ft : FileType) (dirty : Bool) : List (Text × Text) :=
  formatFields (appendFormatGitStr ft dirty)

/-- The values of `git_define`. -/
def gitValues (ft : FileType) (info : GitInfo) : List Text :=
  [pyStrInt info.versionMajor, pyStrInt info.versionMinor, pyStrInt info.versionMicro,
    pyStrInt info.versionDev, info.gitHash, dirtyValue ft info.dirty]

/-- The lines of `git_define`. -/
def gitLines (ft : FileType) (info : GitInfo) : List Text :=
  List.zipWith (fun f v => f.1 ++ (v ++ f.2)) (gitFields ft info.dirty) (gitValues ft info)

/-- The first line begins as no other line does. -/
theorem gitFields_first (ft : FileType) (dirty : Bool) :
    ∀ f ∈ (gitFields ft dirty).head?, ∀ g ∈ (gitFields ft dirty).tail,
      ¬ f.1 <+: g.1 ∧ ¬ g.1 <+: f.1 := by
  cases ft with
  | header =>
    show ∀ f ∈ (gitFields .header true).head?, ∀ g ∈ (gitFields .header true).tail, _
    decide +kernel
  | cmake =>
    show ∀ f ∈ (gitFields .cmake true).head?, ∀ g ∈ (gitFields .cmake true).tail, _
    decide +kernel
  | makefile => cases dirty <;> decide +kernel

section GitLines

variable {ft : FileType} {info : GitInfo}

theorem gitLines_ne_nil (ft : FileType) (info : GitInfo) : gitLines ft info ≠ [] := by
  have hlen : (gitFields ft info.dirty).length = 6 := (lineFormat_gitStr ft info.dirty).2.1
  rw [← List.length_pos_iff, gitLines, List.length_zipWith, hlen]
  exact Nat.succ_pos 5

/-- A line has a field and a value in it. -/
theorem mem_gitLines {fields : List (Text × Text)} {values : List Text} {l : Text}
    (hl : l ∈ List.zipWith (fun f v => f.1 ++ (v ++ f.2)) fields values) :
    ∃ f ∈ fields, ∃ v ∈ values, l = f.1 ++ (v ++ f.2) := by
  obtain ⟨n, hn, rfl⟩ := List.getElem_of_mem hl
  rw [List.length_zipWith, Nat.lt_min] at hn
  exact ⟨fields[n], List.getElem_mem hn.1, values[n], List.getElem_mem hn.2, List.getElem_zipWith⟩

/-- `git_define` is its lines. -/
theorem gitDefine_eq_mark (ft : FileType) (describe : Option Text) :
    gitDefine ft describe = mark '\n' (['\n'].intercalate (gitLines ft (gitInfo describe))) := by
  obtain ⟨hformat, hlen, hfields⟩ := lineFormat_gitStr ft (gitInfo describe).dirty
  have hopen := fun f hf => And.intro (hfields f hf).1 (hfields f hf).2.1
  have hvalues : (gitValues ft (gitInfo describe)).length =
      (gitFields ft (gitInfo describe).dirty).length := hlen.symm
  rw [gitDefine_eq, hformat, ← List.singleton_append, pyFormat_append (by decide)]
  show ['\n'] ++ pyFormat _ (gitValues ft (gitInfo describe)) = _
  rw [← gitFields, pyFormat_fields hvalues hopen, ← gitLines, mark,
    intercalate_concat (gitLines_ne_nil ft _), List.singleton_append]

theorem newline_notMem_gitValues (ft : FileType) (hhash : '\n' ∉ info.gitHash) :
    ∀ v ∈ gitValues ft info, '\n' ∉ v := by
  have hint : ∀ n : ℤ, '\n' ∉ pyStrInt n := fun n hn =>
    absurd (mem_pyStrInt hn) (by decide)
  have hdirty : '\n' ∉ dirtyValue ft info.dirty := by
    cases ft <;> cases info.dirty <;> decide
  simp [gitValues, hint, hhash, hdirty]

/-- The lines are told from the markers, and the first one is there once. -/
theorem blockLines_gitLines (ft : FileType) (hhash : '\n' ∉ info.gitHash) :
    BlockLines '\n' 'B' (startLine ft) (stopLine ft) (['\n'].intercalate (gitLines ft info)) := by
  obtain ⟨-, ⟨hs, he⟩, hse, ⟨hs0, he0⟩, hsB, heB⟩ := markerSpec ft
  obtain ⟨-, hlen, hfields⟩ := lineFormat_gitStr ft info.dirty
  have hfirst := gitFields_first ft info.dirty
  have hvalues := newline_notMem_gitValues ft hhash
  have hline : ∀ l ∈ gitLines ft info, '\n' ∉ l ∧ 'B' ∈ l := by
    intro l hl
    obtain ⟨f, hf, v, hv, rfl⟩ := mem_gitLines hl
    obtain ⟨-, -, hbefore, hbehind, hB⟩ := hfields f hf
    simp [hbefore, hbehind, hvalues v hv, hB]
  have hsplit := List.splitOn_intercalate '\n' (fun l hl => (hline l hl).1)
    (gitLines_ne_nil ft info)
  refine ⟨hs, he, hse, hs0, he0, by decide, hsB, heB, ?_, ?_⟩
  · rw [hsplit]
    exact fun l hl => (hline l hl).2
  · rw [hsplit]
    intro l ls hls hmem
    obtain ⟨f, fs, hf⟩ := List.exists_cons_of_length_eq_add_one hlen
    rw [gitLines, gitFields, gitValues, hf, List.zipWith_cons_cons, List.cons.injEq] at hls
    rw [gitFields, hf] at hfirst
    obtain ⟨g, hg, v, -, rfl⟩ := mem_gitLines (by rw [← hls.2] at hmem; exact hmem)
    have hnot := hfirst f (by simp) g hg
    have hprefix : f.1 <+: g.1 ++ (v ++ g.2) := by
      rw [← hls.1]
      exact List.prefix_append _ _
    exact (List.prefix_or_prefix_of_prefix hprefix (List.prefix_append g.1 _)).elim hnot.1 hnot.2

end GitLines

/-! ## A second run -/

/-- The second of two runs with this git state makes the text that it has read, and leaves the version
file. -/
def NotRewritten (ft : FileType) (files : Files) (describe : Option Text) : Prop :=
  ∀ run run' : Run, run.versionFile = true → run'.versionFile = true →
    run.describe = describe → run'.describe = describe →
      let first := appendTimeInfo ft files run
      rewriteInfo ft (first.version.getD []) (gitDefine ft run'.describe) = first.version.getD [] ∧
        (appendTimeInfo ft first run').version = first.version

/-- A text that settles. One without a block, to which one is appended, has no start marker that it
would be taken to begin with, and the info is not in it. In one with a block, when the old info is
deleted wherever it stands, the first start marker is directly in front of the last stop marker, and
the info is not in it. -/
def Settles (ft : FileType) (describe : Option Text) (text : Text) : Prop :=
  match searchGroup (strDefineStart ft) (strDefineEnd ft) text with
  | none => FirstAt (strDefineStart ft) text ∧ ¬ gitDefine ft describe <:+: text ++ ['\n']
  | some old =>
    HasBlock (strDefineStart ft) (strDefineEnd ft) (gitDefine ft describe) (pyReplace old [] text)

section Second

variable {ft : FileType} {describe : Option Text} {text : Text}

theorem blockLines_gitDefine (hhash : '\n' ∉ (gitInfo describe).gitHash) (ft : FileType) :
    ∃ i, gitDefine ft describe = mark '\n' i ∧
      BlockLines '\n' 'B' (startLine ft) (stopLine ft) i :=
  ⟨_, gitDefine_eq_mark ft describe, blockLines_gitLines ft hhash⟩

/-- A run puts the info in front of every stop marker, behind which the old info is deleted. -/
theorem rewriteInfo_eq_putBefore (ft : FileType) (content info : Text) :
    rewriteInfo ft content info = putBefore (strDefineEnd ft) info
      (removeOldConfigInfo (strDefineStart ft) (strDefineEnd ft) content) := rfl

/-- The second run removes what the first one has put in, when there is one block. -/
theorem removeOldConfigInfo_putBefore_iff (hhash : '\n' ∉ (gitInfo describe).gitHash)
    (ft : FileType) (text : Text) :
    removeOldConfigInfo (strDefineStart ft) (strDefineEnd ft)
        (putBefore (strDefineEnd ft) (gitDefine ft describe) text) = text ↔
      HasBlock (strDefineStart ft) (strDefineEnd ft) (gitDefine ft describe) text := by
  obtain ⟨i, hi, h⟩ := blockLines_gitDefine hhash ft
  obtain ⟨hs, he⟩ := (markerSpec ft).1
  rw [hi, hs, he, ← settles_iff h, removeOldConfigInfo]
  cases hgroup : searchGroup (mark '\n' (startLine ft)) (mark '\n' (stopLine ft))
      (putBefore (mark '\n' (stopLine ft)) (mark '\n' i) text) with
  | none =>
    -- a block that is appended makes the text longer
    obtain ⟨k, hk, -, -⟩ := exists_count_putBefore (mark_ne_nil '\n' (stopLine ft))
      (mark '\n' i) text
    have hpos := List.length_pos_iff.mpr (mark_ne_nil '\n' (stopLine ft))
    refine iff_of_false (fun hremove => ?_) (by simp)
    have hlen := congrArg List.length hremove
    rw [List.length_append, List.length_append, hk] at hlen
    omega
  | some old => simp

/-- The text without the old info has one block when the text settles. -/
theorem hasBlock_removeOldConfigInfo_iff (hhash : '\n' ∉ (gitInfo describe).gitHash)
    (ft : FileType) (text : Text) :
    HasBlock (strDefineStart ft) (strDefineEnd ft) (gitDefine ft describe)
        (removeOldConfigInfo (strDefineStart ft) (strDefineEnd ft) text) ↔
      Settles ft describe text := by
  rw [removeOldConfigInfo, Settles]
  cases searchGroup (strDefineStart ft) (strDefineEnd ft) text with
  | none =>
    obtain ⟨i, hi, h⟩ := blockLines_gitDefine hhash ft
    obtain ⟨hs, he⟩ := (markerSpec ft).1
    rw [hi, hs, he]
    exact h.hasBlock_append_iff
  | some old => exact Iff.rfl

/-- The second run makes the text of the first one when the text settles. -/
theorem rewriteInfo_rewriteInfo_iff (hhash : '\n' ∉ (gitInfo describe).gitHash) (ft : FileType)
    (text : Text) :
    rewriteInfo ft (rewriteInfo ft text (gitDefine ft describe)) (gitDefine ft describe) =
        rewriteInfo ft text (gitDefine ft describe) ↔ Settles ft describe text := by
  rw [← hasBlock_removeOldConfigInfo_iff hhash, ← removeOldConfigInfo_putBefore_iff hhash,
    rewriteInfo_eq_putBefore ft text, rewriteInfo_eq_putBefore]
  refine ⟨fun heq => ?_, fun heq => by rw [heq]⟩
  obtain ⟨i, hi, h⟩ := blockLines_gitDefine hhash ft
  obtain ⟨-, he⟩ := (markerSpec ft).1
  rw [hi, he] at heq ⊢
  exact h.putBefore_injective heq

/-- The version file is not written when its text is that of the run. -/
theorem appendTimeInfo_version_of_eq {files : Files} {run : Run} (hrun : run.versionFile = true)
    (heq : rewriteInfo ft (files.version.getD []) (gitDefine ft run.describe) =
      files.version.getD []) : (appendTimeInfo ft files run).version = files.version := by
  simp only [appendTimeInfo, hrun, if_true]
  exact if_neg (not_not.mpr heq)

/-- Two runs with one git state are two rewritings with one info. -/
theorem notRewritten_iff_rewriteInfo (ft : FileType) (files : Files) (describe : Option Text) :
    NotRewritten ft files describe ↔
      rewriteInfo ft (rewriteInfo ft (files.version.getD []) (gitDefine ft describe))
          (gitDefine ft describe) =
        rewriteInfo ft (files.version.getD []) (gitDefine ft describe) := by
  constructor
  · intro h
    have hread := (h ⟨sampleClock, describe, true⟩ ⟨sampleClock, describe, true⟩ rfl rfl rfl rfl).1
    rwa [appendTimeInfo_version ft files rfl] at hread
  · rintro heq run run' hrun hrun' rfl hdescribe
    have hread : rewriteInfo ft ((appendTimeInfo ft files run).version.getD [])
        (gitDefine ft run'.describe) = (appendTimeInfo ft files run).version.getD [] := by
      rw [hdescribe, appendTimeInfo_version ft files hrun, heq]
    exact ⟨hread, appendTimeInfo_version_of_eq hrun' hread⟩

end Second

/-- **A second run with the same git state leaves the version file exactly when its text settles.**
The hash that `git describe` prints is in one line. -/
theorem notRewritten_iff (ft : FileType) (files : Files) (describe : Option Text)
    (hhash : '\n' ∉ (gitInfo describe).gitHash) :
    NotRewritten ft files describe ↔ Settles ft describe (files.version.getD []) := by
  rw [notRewritten_iff_rewriteInfo, rewriteInfo_rewriteInfo_iff hhash]

/-- A file with text of its own, at a tag. -/
theorem notRewritten_sampleFile :
    NotRewritten .header ⟨none, some "int x;\n".toList⟩ (some "v1.2.3-4-gabc\n".toList) :=
  (notRewritten_iff _ _ _ (by decide +kernel)).mpr (by
    rw [Settles, searchGroup_of_not_infix (strDefineEnd_ne_nil _) (by decide +kernel)]
    decide +kernel)

/-- A start marker without a stop marker, behind which text is lost, and the two markers in the wrong
order. -/
theorem not_notRewritten_markers :
    ¬ NotRewritten .header ⟨none, some (strDefineStart .header ++ "int x;\n".toList)⟩ none ∧
      ¬ NotRewritten .header ⟨none, some (strDefineEnd .header ++ strDefineStart .header)⟩ none := by
  have hnot : ∀ text : Text,
      searchGroup (strDefineStart .header) (strDefineEnd .header) text = none →
        ¬ FirstAt (strDefineStart .header) text → ¬ NotRewritten .header ⟨none, some text⟩ none := by
    intro text hgroup hfirst h
    rw [notRewritten_iff_rewriteInfo, rewriteInfo_rewriteInfo_iff (by decide +kernel), Settles,
      Option.getD_some, hgroup] at h
    exact hfirst h.1
  exact ⟨hnot _ (by decide +kernel) (by decide +kernel), hnot _ (by decide +kernel) (by decide +kernel)⟩

end MaixSpeech.Build
