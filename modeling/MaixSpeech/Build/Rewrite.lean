import MaixSpeech.Build.Info
import MaixSpeech.Common.Delete

/-!
# Rewriting the info in a file

Reference: `tools/kconfig/update_build_info.py`.

`append_time_info` takes the info of the last run out of a file and puts that of this run in. The
user's text survives a sequence of runs exactly when no pattern is found in the wrong place: the text
does not run into a marker, and it does not contain what an earlier run has generated
(`appendTimeInfo_preserves_iff`).
-/

namespace MaixSpeech.Build

open Common

/-! ## The script -/

/-- `remove_old_config_info`. -/
def removeOldConfigInfo (startFlagStr endFlagStr content : Text) : Text :=
  match searchGroup startFlagStr endFlagStr content with
  | none => content ++ (startFlagStr ++ endFlagStr)
  | some info => pyReplace info [] content

/-- The two files, by the text that is read from them; `none` when that fails. -/
structure Files where
  time : Option Text
  version : Option Text
deriving DecidableEq

/-- One run: the clock, the output of `git describe` unless it fails, and whether the version has a
file of its own. -/
structure Run where
  now : Clock
  describe : Option Text
  versionFile : Bool

/-- `append_time_info`. -/
def appendTimeInfo (ft : FileType) (files : Files) (run : Run) : Files :=
  let start := strDefineStart ft
  let stop := strDefineEnd ft
  let content2Old := if run.versionFile then files.version.getD [] else []
  let content := pySplit stop (removeOldConfigInfo start stop (files.time.getD []))
  let content2 := pySplit stop (removeOldConfigInfo start stop content2Old)
  let time := timeDefine ft run.now
  let git := gitDefine ft run.describe
  if run.versionFile then
    let content2 := (git ++ stop).intercalate content2
    { time := some ((time ++ stop).intercalate content)
      version := if content2 ≠ content2Old then some content2 else files.version }
  else { files with time := some ((time ++ git ++ stop).intercalate content) }

/-- The files after a sequence of runs. -/
def appendRuns (ft : FileType) (files : Files) (runs : List Run) : Files :=
  runs.foldl (appendTimeInfo ft) files

/-! ## What a run is for -/

/-- A text with the one block that holds an info. -/
def block (ft : FileType) (text info : Text) : Text :=
  text ++ (strDefineStart ft ++ (info ++ strDefineEnd ft))

/-- The info a run has for the first file. -/
def timeFileInfo (ft : FileType) (run : Run) : Text :=
  if run.versionFile then timeDefine ft run.now
  else timeDefine ft run.now ++ gitDefine ft run.describe

/-- The infos that runs have for the version file. -/
def versionFileInfos (ft : FileType) (runs : List Run) : List Text :=
  (runs.filter Run.versionFile).map fun run => gitDefine ft run.describe

/-- After a run every file it is about has its text and the one block with the run's info. -/
def Shown (ft : FileType) (init : Files) (run : Run) (files : Files) : Prop :=
  files.time = some (block ft (init.time.getD []) (timeFileInfo ft run)) ∧
    (run.versionFile = true →
      files.version = some (block ft (init.version.getD []) (gitDefine ft run.describe)))

/-- After every run of the sequence its info is shown. -/
def Preserves (ft : FileType) (init : Files) (runs : List Run) : Prop :=
  ∀ done run rest, runs = done ++ run :: rest →
    Shown ft init run (appendRuns ft init (done ++ [run]))

/-- A text with neither of the markers. -/
def Unmarked (ft : FileType) (text : Text) : Prop :=
  ¬ strDefineStart ft <:+: text ∧ ¬ strDefineEnd ft <:+: text

instance (ft : FileType) (text : Text) : Decidable (Unmarked ft text) :=
  inferInstanceAs (Decidable (_ ∧ _))

/-- A text into which these infos can be written one after the other: it does not end with a marker
up to its last newline, and no info that is to be taken out again stands in front of its place. -/
structure Undisturbed (ft : FileType) (text : Text) (infos : List Text) : Prop where
  endMark : infos ≠ [] → ¬ (strDefineEnd ft).dropLast <:+ text
  startMark : 2 ≤ infos.length → ¬ (strDefineStart ft).dropLast <:+ text
  older : ∀ info ∈ infos.dropLast, FirstAt info (text ++ strDefineStart ft)

/-! ## The markers -/

/-- What the markers of a file type are. -/
def MarkerSpec (ft : FileType) (s e : Text) : Prop :=
  (strDefineStart ft = mark '\n' s ∧ strDefineEnd ft = mark '\n' e) ∧
    ('\n' ∉ s ∧ '\n' ∉ e) ∧ s ≠ e ∧ (s ≠ [] ∧ e ≠ []) ∧ 'B' ∉ s ∧ 'B' ∉ e

instance (ft : FileType) (s e : Text) : Decidable (MarkerSpec ft s e) :=
  inferInstanceAs (Decidable (_ ∧ _))

/-- The lines of the markers. -/
def startLine (ft : FileType) : Text := (strDefineStart ft).tail.dropLast

def stopLine (ft : FileType) : Text := (strDefineEnd ft).tail.dropLast

theorem markerSpec (ft : FileType) : MarkerSpec ft (startLine ft) (stopLine ft) := by
  cases ft <;> decide +kernel

/-- An info has the letter that the markers lack, and does not end with the start marker. -/
structure IsInfo (ft : FileType) (info : Text) : Prop where
  letter : 'B' ∈ info
  notMark : ¬ strDefineStart ft <:+ info

section Markers

variable {ft : FileType} {text : Text}

theorem strDefineStart_ne_nil (ft : FileType) : strDefineStart ft ≠ [] := by
  cases ft <;> decide +kernel

theorem strDefineEnd_ne_nil (ft : FileType) : strDefineEnd ft ≠ [] := by
  cases ft <;> decide +kernel

/-- The end marker does not stand in its own tail. -/
theorem not_infix_strDefineEnd_tail (ft : FileType) :
    ¬ strDefineEnd ft <:+: (strDefineEnd ft).tail ++ [] := by
  rw [List.append_nil]
  exact not_infix_tail (strDefineEnd_ne_nil ft)

/-- A text that runs into the end marker shares all of it but the last newline. -/
theorem firstAt_strDefineEnd (htext : ¬ strDefineEnd ft <:+: text)
    (hend : ¬ (strDefineEnd ft).dropLast <:+ text) :
    FirstAt (strDefineEnd ft) (text ++ strDefineStart ft) := by
  have hcut : ∀ n < (strDefineEnd ft).length, 0 < n →
      (strDefineEnd ft).drop n <+: strDefineStart ft ++ (strDefineEnd ft).dropLast →
        (strDefineEnd ft).take n = (strDefineEnd ft).dropLast := by
    cases ft <;> decide +kernel
  have hstart : FirstAt (strDefineEnd ft) (strDefineStart ft) := by
    cases ft <;> decide +kernel
  exact firstAt_append_of_cut htext hend hstart hcut

/-- A text that runs into the start marker shares all of it but the last newline. -/
theorem firstAt_strDefineStart (htext : ¬ strDefineStart ft <:+: text)
    (hstart : ¬ (strDefineStart ft).dropLast <:+ text) : FirstAt (strDefineStart ft) text := by
  have hcut : ∀ n < (strDefineStart ft).length, 0 < n →
      (strDefineStart ft).drop n <+: [] ++ (strDefineStart ft).dropLast →
        (strDefineStart ft).take n = (strDefineStart ft).dropLast := by
    cases ft <;> decide +kernel
  have hnil : FirstAt (strDefineStart ft) [] := firstAt_nil (strDefineStart_ne_nil ft)
  have h := firstAt_append_of_cut htext hstart hnil hcut
  rwa [List.append_nil] at h

/-- A text whose last line has the letter does not end with the start marker. -/
theorem not_suffix_strDefineStart {u l : Text} (hl : '\n' ∉ l) (hB : 'B' ∈ l) :
    ¬ strDefineStart ft <:+ u ++ mark '\n' l := by
  obtain ⟨⟨hs, -⟩, ⟨hline, -⟩, -, -, hBs, -⟩ := markerSpec ft
  rw [hs]
  rintro ⟨v, hv⟩
  have hlines := congrArg (List.splitOn '\n') hv
  rw [splitOn_append_mark, splitOn_append_mark, List.splitOn_eq_singleton hline,
    List.splitOn_eq_singleton hl] at hlines
  have hlast := (List.append_inj' hlines rfl).2
  rw [List.singleton_append, List.singleton_append, List.cons.injEq] at hlast
  exact hBs (hlast.1 ▸ hB)

theorem isInfo_of_last_line {u l : Text} (hl : '\n' ∉ l) (hB : 'B' ∈ l) :
    IsInfo ft (u ++ mark '\n' l) :=
  ⟨List.mem_append_right _ (by simp [mark, hB]), not_suffix_strDefineStart hl hB⟩

theorem exists_last_line_gitDefine (ft : FileType) (describe : Option Text) :
    ∃ u l, gitDefine ft describe = u ++ mark '\n' l ∧ '\n' ∉ l ∧ 'B' ∈ l := by
  have hdirty : ∀ dirty, '\n' ∉ dirtyValue ft dirty := by
    intro dirty
    cases ft <;> cases dirty <;> decide
  exact exists_last_line (lineFormat_gitStr ft _) [_, _, _, _, _] rfl (hdirty _)

theorem isInfo_gitDefine (ft : FileType) (describe : Option Text) :
    IsInfo ft (gitDefine ft describe) := by
  obtain ⟨u, l, heq, hl, hB⟩ := exists_last_line_gitDefine ft describe
  rw [heq]
  exact isInfo_of_last_line hl hB

theorem isInfo_timeFileInfo (ft : FileType) (run : Run) : IsInfo ft (timeFileInfo ft run) := by
  unfold timeFileInfo
  split
  · have hday : '\n' ∉ pyStrInt run.now.tmYday := fun h => absurd (mem_pyStrInt h) (by decide)
    obtain ⟨u, l, heq, hl, hB⟩ := exists_last_line (lineFormat_timeStr ft)
      [_, _, _, _, _, _, _] rfl hday
    rw [timeDefine]
    exact heq ▸ isInfo_of_last_line hl hB
  · obtain ⟨u, l, heq, hl, hB⟩ := exists_last_line_gitDefine ft run.describe
    rw [heq, ← List.append_assoc]
    exact isInfo_of_last_line hl hB

end Markers

/-! ## One file -/

/-- What a run makes of the text of one file. -/
def rewriteInfo (ft : FileType) (content info : Text) : Text :=
  (info ++ strDefineEnd ft).intercalate
    (pySplit (strDefineEnd ft) (removeOldConfigInfo (strDefineStart ft) (strDefineEnd ft) content))

section OneFile

variable {ft : FileType} {text old info : Text} {infos : List Text}

/-- Between the two markers the info is put in at the end marker. -/
theorem intercalate_empty_block (hend : FirstAt (strDefineEnd ft) (text ++ strDefineStart ft)) :
    (info ++ strDefineEnd ft).intercalate
      (pySplit (strDefineEnd ft) (text ++ (strDefineStart ft ++ strDefineEnd ft))) =
        block ft text info := by
  have hsplit := pySplit_firstAt (strDefineEnd_ne_nil ft) hend []
  rw [List.append_nil, List.append_assoc] at hsplit
  rw [hsplit, show pySplit (strDefineEnd ft) [] = [[]] from rfl, List.intercalate_cons_cons,
    List.intercalate_singleton, List.append_nil, List.append_assoc, block]

/-- The first run appends a block. -/
theorem rewriteInfo_unmarked (htext : ¬ strDefineEnd ft <:+: text)
    (hend : FirstAt (strDefineEnd ft) (text ++ strDefineStart ft)) (info : Text) :
    rewriteInfo ft text info = block ft text info := by
  rw [rewriteInfo, removeOldConfigInfo,
    searchGroup_of_not_infix (strDefineEnd_ne_nil ft) htext]
  exact intercalate_empty_block hend

/-- The group that a later run finds is the old info. -/
theorem removeOldConfigInfo_block (hstart : FirstAt (strDefineStart ft) text) :
    removeOldConfigInfo (strDefineStart ft) (strDefineEnd ft) (block ft text old) =
      pyReplace old [] (text ++ strDefineStart ft ++ (old ++ strDefineEnd ft)) := by
  have hgroup := searchGroup_firstAt (strDefineEnd_ne_nil ft) hstart (not_infix_strDefineEnd_tail ft)
    old
  rw [List.append_nil] at hgroup
  rw [removeOldConfigInfo, block, hgroup]
  exact congrArg (pyReplace old []) (List.append_assoc _ _ _).symm

/-- A later run takes the old info out of the block and puts the new one in. -/
theorem rewriteInfo_block (hstart : FirstAt (strDefineStart ft) text)
    (hend : FirstAt (strDefineEnd ft) (text ++ strDefineStart ft))
    (hold : FirstAt old (text ++ strDefineStart ft)) (hB : 'B' ∈ old) (info : Text) :
    rewriteInfo ft (block ft text old) info = block ft text info := by
  have hne : old ≠ [] := List.ne_nil_of_mem hB
  have hnot : ¬ old <:+: strDefineEnd ft := fun h => notMem_strDefineEnd ft (h.subset hB)
  have hremove : removeOldConfigInfo (strDefineStart ft) (strDefineEnd ft) (block ft text old) =
      text ++ (strDefineStart ft ++ strDefineEnd ft) := by
    rw [removeOldConfigInfo_block hstart, pyReplace_firstAt hne hold,
      pyReplace_of_not_infix hne hnot, List.nil_append, List.append_assoc]
  rw [rewriteInfo, hremove]
  exact intercalate_empty_block hend

/-! What a run leaves when a pattern is found in the wrong place. -/

/-- A text that ends with the start of the end marker has it twice then. -/
theorem rewriteInfo_ne_of_endMark (htext : Unmarked ft text) (hinfo : info ≠ [])
    (hend : (strDefineEnd ft).dropLast <:+ text) : rewriteInfo ft text info ≠ block ft text info := by
  obtain ⟨⟨hs, he⟩, -⟩ := markerSpec ft
  obtain ⟨pre, rfl⟩ := hend
  have hne := strDefineEnd_ne_nil ft
  have hfirst : FirstAt (strDefineEnd ft) pre := htext.2
  have hcontent : pre ++ (strDefineEnd ft).dropLast ++ (strDefineStart ft ++ strDefineEnd ft) =
      pre ++ (strDefineEnd ft ++ ((strDefineStart ft).tail ++ strDefineEnd ft)) := by
    rw [he, hs, mark_dropLast]
    simp [mark]
  have hrun : rewriteInfo ft (pre ++ (strDefineEnd ft).dropLast) info =
      pre ++ (info ++ (strDefineEnd ft ++
        putBefore (strDefineEnd ft) info ((strDefineStart ft).tail ++ strDefineEnd ft))) := by
    rw [rewriteInfo, removeOldConfigInfo, searchGroup_of_not_infix hne htext.2]
    show putBefore _ _ _ = _
    rw [hcontent, putBefore_firstAt hne hfirst]
  obtain ⟨k, hk, -, hpos⟩ :=
    exists_count_putBefore hne info ((strDefineStart ft).tail ++ strDefineEnd ft)
  have hmul := Nat.mul_pos (hpos (List.suffix_append _ _).isInfix) (List.length_pos_iff.mpr hinfo)
  intro heq
  have hlen := congrArg List.length heq
  have hlens : 0 < (strDefineEnd ft).length ∧ 0 < (strDefineStart ft).length :=
    ⟨List.length_pos_iff.mpr hne, List.length_pos_iff.mpr (strDefineStart_ne_nil ft)⟩
  simp only [hrun, block, List.length_append, hk, List.length_dropLast, List.length_tail] at hlen
  omega

/-- What a run makes of a block, when it leaves one, it has made of the empty block. -/
theorem removeOldConfigInfo_of_block
    (hend : FirstAt (strDefineEnd ft) (text ++ strDefineStart ft)) (hinfo : 'B' ∈ info)
    {content : Text} (h : rewriteInfo ft content info = block ft text info) :
    removeOldConfigInfo (strDefineStart ft) (strDefineEnd ft) content =
      text ++ strDefineStart ft ++ strDefineEnd ft := by
  have hlen : (strDefineEnd ft).length ≤ (strDefineStart ft).length := by
    cases ft <;> decide +kernel
  refine eq_of_putBefore (strDefineEnd_ne_nil ft) hend (List.suffix_append _ _) hlen hinfo
    (notMem_strDefineStart ft) ?_
  rw [List.append_assoc]
  exact h

/-- A text that ends with the start of the start marker loses it. -/
theorem rewriteInfo_block_ne_of_startMark (htext : Unmarked ft text)
    (hend : FirstAt (strDefineEnd ft) (text ++ strDefineStart ft)) (hinfo : 'B' ∈ info)
    (hstart : (strDefineStart ft).dropLast <:+ text) :
    rewriteInfo ft (block ft text old) info ≠ block ft text info := by
  intro h
  have hremove := removeOldConfigInfo_of_block hend hinfo h
  obtain ⟨⟨hs, -⟩, -⟩ := markerSpec ft
  obtain ⟨pre, rfl⟩ := hstart
  have hfirst : FirstAt (strDefineStart ft) pre := htext.1
  have hblock : block ft (pre ++ (strDefineStart ft).dropLast) old =
      pre ++ (strDefineStart ft ++ ((strDefineStart ft).tail ++ old ++ (strDefineEnd ft ++ []))) := by
    rw [block, hs, mark_dropLast]
    simp [mark]
  have htail : 0 < (strDefineStart ft).tail.length := by
    cases ft <;> decide +kernel
  have hgroup := searchGroup_firstAt (strDefineEnd_ne_nil ft) hfirst (not_infix_strDefineEnd_tail ft)
    ((strDefineStart ft).tail ++ old)
  rw [← hblock] at hgroup
  rw [removeOldConfigInfo, hgroup] at hremove
  have hr : (strDefineStart ft).tail ++ old ≠ [] := by
    rw [← List.length_pos_iff, List.length_append]
    omega
  obtain ⟨n, hn, -, hpos⟩ := exists_count_delete hr (block ft (pre ++ (strDefineStart ft).dropLast) old)
  have hle := Nat.le_mul_of_pos_left ((strDefineStart ft).tail ++ old).length
    (hpos (by rw [hblock]; exact ⟨pre ++ strDefineStart ft, strDefineEnd ft ++ [], by simp⟩))
  change pyReplace _ [] _ = _ at hremove
  rw [hremove] at hn
  simp only [block, List.length_append] at hn hle
  omega

/-- The old info is taken out where it stands only if it stands nowhere in front. -/
theorem firstAt_of_rewriteInfo_block (hstart : FirstAt (strDefineStart ft) text)
    (hend : FirstAt (strDefineEnd ft) (text ++ strDefineStart ft)) (hold : IsInfo ft old)
    (hinfo : 'B' ∈ info) (h : rewriteInfo ft (block ft text old) info = block ft text info) :
    FirstAt old (text ++ strDefineStart ft) := by
  have hremove := removeOldConfigInfo_of_block hend hinfo h
  rw [removeOldConfigInfo_block hstart] at hremove
  exact firstAt_of_delete (List.suffix_append _ _) hold.letter (notMem_strDefineStart ft) hold.notMark
    hremove

/-- The earlier infos are undisturbed when all of them are. -/
theorem Undisturbed.of_prefix {infos' : List Text} (h : Undisturbed ft text infos)
    (hp : infos' <+: infos) : Undisturbed ft text infos' where
  endMark hne := h.endMark (hp.ne_nil hne)
  startMark hlen := h.startMark (hlen.trans hp.length_le)
  older i hi := by
    obtain ⟨rest, rfl⟩ := hp
    refine h.older i ?_
    cases rest with
    | nil => rwa [List.append_nil]
    | cons j rest =>
      rw [List.dropLast_append_of_ne_nil (List.cons_ne_nil j rest)]
      exact List.mem_append_left _ ((List.dropLast_prefix infos').subset hi)

/-- **Any number of infos leaves the text and the last one.** -/
theorem foldl_rewriteInfo (htext : Unmarked ft text) (hB : ∀ i ∈ infos, 'B' ∈ i)
    (h : Undisturbed ft text (infos ++ [info])) :
    (infos ++ [info]).foldl (rewriteInfo ft) text = block ft text info := by
  have hend := firstAt_strDefineEnd htext.2 (h.endMark (by simp))
  rw [List.foldl_append, List.foldl_cons, List.foldl_nil]
  induction infos using List.reverseRecOn generalizing info with
  | nil => exact rewriteInfo_unmarked htext.2 hend info
  | append_singleton infos old ih =>
    have hstart := firstAt_strDefineStart htext.1 (h.startMark (by simp))
    have hold := h.older old (by rw [List.dropLast_concat]; simp)
    rw [List.foldl_append, List.foldl_cons, List.foldl_nil,
      ih (fun i hi => hB i (by simp [hi])) (h.of_prefix (List.prefix_append _ _))]
    exact rewriteInfo_block hstart hend hold (hB old (by simp)) info

/-- After every info that is written, the text has one block with it. -/
def Keeps (ft : FileType) (text : Text) (infos : List Text) : Prop :=
  ∀ done info rest, infos = done ++ info :: rest →
    (done ++ [info]).foldl (rewriteInfo ft) text = block ft text info

/-- What a later run does to the block of an earlier one. -/
theorem Keeps.step (h : Keeps ft text infos) (done : List Text) {rest : List Text}
    (heq : infos = done ++ old :: info :: rest) :
    rewriteInfo ft (block ft text old) info = block ft text info := by
  have hnext := h (done ++ [old]) info rest (by rw [heq]; simp)
  rwa [List.foldl_append, h done old (info :: rest) heq] at hnext

theorem Undisturbed.of_keeps (htext : Unmarked ft text) (hinfos : ∀ i ∈ infos, IsInfo ft i)
    (h : Keeps ft text infos) : Undisturbed ft text infos := by
  have hendMark : infos ≠ [] → ¬ (strDefineEnd ft).dropLast <:+ text := by
    intro hne hend
    obtain ⟨info, rest, rfl⟩ := List.exists_cons_of_ne_nil hne
    have hinfo := List.ne_nil_of_mem (hinfos info List.mem_cons_self).letter
    exact rewriteInfo_ne_of_endMark htext hinfo hend (h [] info rest rfl)
  have hstartMark : 2 ≤ infos.length → ¬ (strDefineStart ft).dropLast <:+ text := by
    intro hlen hstart
    match infos, hlen with
    | old :: info :: rest, _ =>
      have hend := firstAt_strDefineEnd htext.2 (hendMark (List.cons_ne_nil _ _))
      exact rewriteInfo_block_ne_of_startMark htext hend (hinfos info (by simp)).letter hstart
        (h.step [] rfl)
  refine ⟨hendMark, hstartMark, fun old hold => ?_⟩
  obtain ⟨done, rest, hdrop⟩ := List.append_of_mem hold
  have hne : infos ≠ [] := by
    rintro rfl
    exact absurd hold List.not_mem_nil
  obtain ⟨info, rest, hrest⟩ : ∃ info rest', rest ++ [infos.getLast hne] = info :: rest' :=
    List.exists_cons_of_ne_nil (by simp)
  have heq : infos = done ++ old :: info :: rest := by
    rw [← List.dropLast_append_getLast hne, hdrop, ← hrest]
    simp
  have hstart := firstAt_strDefineStart htext.1 (hstartMark (by
    rw [heq, List.length_append, List.length_cons, List.length_cons]
    omega))
  have hend := firstAt_strDefineEnd htext.2 (hendMark hne)
  exact firstAt_of_rewriteInfo_block hstart hend (hinfos old (by rw [heq]; simp))
    (hinfos info (by rw [heq]; simp)).letter (h.step _ heq)

/-- **One file keeps its text** exactly when the text is not disturbed. -/
theorem keeps_iff (htext : Unmarked ft text) (hinfos : ∀ i ∈ infos, IsInfo ft i) :
    Keeps ft text infos ↔ Undisturbed ft text infos := by
  refine ⟨Undisturbed.of_keeps htext hinfos, ?_⟩
  rintro h done info rest rfl
  refine foldl_rewriteInfo htext (fun i hi => (hinfos i (by simp [hi])).letter) (h.of_prefix ?_)
  exact ⟨rest, by simp⟩

end OneFile

/-! ## All runs -/

section Runs

variable {ft : FileType} {init files : Files} {runs : List Run}

theorem appendTimeInfo_time (ft : FileType) (files : Files) (run : Run) :
    (appendTimeInfo ft files run).time =
      some (rewriteInfo ft (files.time.getD []) (timeFileInfo ft run)) := by
  unfold appendTimeInfo timeFileInfo rewriteInfo
  cases run.versionFile <;> rfl

/-- The version file is written when its text is new; otherwise it has that text. -/
theorem appendTimeInfo_version (ft : FileType) (files : Files) {run : Run}
    (hrun : run.versionFile = true) :
    (appendTimeInfo ft files run).version.getD [] =
      rewriteInfo ft (files.version.getD []) (gitDefine ft run.describe) := by
  simp only [appendTimeInfo, rewriteInfo, hrun, if_true]
  split
  · rfl
  · rename_i h
    exact (not_not.mp h).symm

theorem appendTimeInfo_version_of_single (ft : FileType) (files : Files) {run : Run}
    (hrun : run.versionFile = false) : (appendTimeInfo ft files run).version = files.version := by
  simp only [appendTimeInfo, hrun, Bool.false_eq_true, if_false]

/-- The runs rewrite the two files one info after the other. -/
theorem appendRuns_eq (ft : FileType) (init : Files) (runs : List Run) :
    (appendRuns ft init runs).time.getD [] =
        (runs.map (timeFileInfo ft)).foldl (rewriteInfo ft) (init.time.getD []) ∧
      (appendRuns ft init runs).version.getD [] =
        (versionFileInfos ft runs).foldl (rewriteInfo ft) (init.version.getD []) := by
  induction runs using List.reverseRecOn with
  | nil => exact ⟨rfl, rfl⟩
  | append_singleton runs run ih =>
    obtain ⟨htime, hversion⟩ := ih
    have hsucc : appendRuns ft init (runs ++ [run]) =
        appendTimeInfo ft (appendRuns ft init runs) run := by
      rw [appendRuns, List.foldl_append]
      rfl
    constructor
    · rw [hsucc, appendTimeInfo_time, Option.getD_some, htime, List.map_append, List.foldl_append]
      rfl
    · rw [hsucc, versionFileInfos, List.filter_append, List.map_append, List.foldl_append]
      cases hrun : run.versionFile with
      | false =>
        rw [appendTimeInfo_version_of_single ft _ hrun, hversion,
          List.filter_singleton, hrun]
        rfl
      | true =>
        rw [appendTimeInfo_version ft _ hrun, hversion, List.filter_singleton, hrun]
        rfl

/-- The runs keep the texts of both files, each with its infos. -/
theorem preserves_iff_keeps : Preserves ft init runs ↔
    Keeps ft (init.time.getD []) (runs.map (timeFileInfo ft)) ∧
      Keeps ft (init.version.getD []) (versionFileInfos ft runs) := by
  constructor
  · intro h
    constructor
    · intro done info rest heq
      obtain ⟨done, last, rfl, rfl, hlast⟩ := List.map_eq_append_iff.mp heq
      obtain ⟨run, rest, rfl, rfl, rfl⟩ := List.map_eq_cons_iff.mp hlast
      have htime := (appendRuns_eq ft init (done ++ [run])).1
      rw [(h done run rest rfl).1, Option.getD_some] at htime
      rw [htime, List.map_append, List.map_singleton]
    · intro done info rest heq
      obtain ⟨pre, last, hfilter, rfl, hlast⟩ := List.map_eq_append_iff.mp heq
      obtain ⟨run, post, rfl, rfl, rfl⟩ := List.map_eq_cons_iff.mp hlast
      obtain ⟨done, rest, rfl, rfl, hrest⟩ := List.filter_eq_append_iff.mp hfilter
      obtain ⟨skipped, rest, rfl, hskipped, hrun, rfl⟩ := List.filter_eq_cons_iff.mp hrest
      have hversion := (appendRuns_eq ft init (done ++ skipped ++ [run])).2
      rw [(h (done ++ skipped) run rest (by simp)).2 hrun, Option.getD_some] at hversion
      have hnone : skipped.filter Run.versionFile = [] := by
        rw [List.filter_eq_nil_iff]
        exact hskipped
      rw [hversion, versionFileInfos, List.filter_append, List.filter_append, hnone,
        List.append_nil, List.filter_singleton, hrun, cond_true, List.map_append, List.map_singleton]
  · rintro ⟨htime, hversion⟩ done run rest rfl
    obtain ⟨htexts, htexts2⟩ := appendRuns_eq ft init (done ++ [run])
    have hsucc : appendRuns ft init (done ++ [run]) =
        appendTimeInfo ft (appendRuns ft init done) run := by
      rw [appendRuns, List.foldl_append]
      rfl
    constructor
    · rw [List.map_append, List.map_singleton,
        htime _ _ (rest.map (timeFileInfo ft)) (by simp)] at htexts
      rw [hsucc, appendTimeInfo_time] at htexts ⊢
      exact congrArg some htexts
    · intro hrun
      have hfilter : versionFileInfos ft (done ++ [run]) =
          versionFileInfos ft done ++ [gitDefine ft run.describe] := by
        simp [versionFileInfos, hrun]
      rw [hfilter, hversion _ _ (versionFileInfos ft rest)
        (by simp [versionFileInfos, hrun])] at htexts2
      cases hv : (appendRuns ft init (done ++ [run])).version with
      | some text =>
        rw [hv] at htexts2
        exact congrArg some htexts2
      | none =>
        -- a block is not empty, so it has been written
        rw [hv, Option.getD_none] at htexts2
        have hmem : 'B' ∈ block ft (init.version.getD []) (gitDefine ft run.describe) := by
          simp [block, mem_gitDefine]
        rw [← htexts2] at hmem
        exact absurd hmem List.not_mem_nil

/-- **After every run the files have their texts and one block with the run's info** exactly when the
texts, which have no markers in them, are not disturbed. -/
theorem appendTimeInfo_preserves_iff (ft : FileType) (init : Files) (runs : List Run)
    (htime : Unmarked ft (init.time.getD [])) (hversion : Unmarked ft (init.version.getD [])) :
    Preserves ft init runs ↔
      Undisturbed ft (init.time.getD []) (runs.map (timeFileInfo ft)) ∧
        Undisturbed ft (init.version.getD []) (versionFileInfos ft runs) := by
  rw [preserves_iff_keeps]
  refine and_congr (keeps_iff htime ?_) (keeps_iff hversion ?_)
  · intro i hi
    obtain ⟨run, -, rfl⟩ := List.mem_map.mp hi
    exact isInfo_timeFileInfo ft run
  · intro i hi
    obtain ⟨run, -, rfl⟩ := List.mem_map.mp hi
    exact isInfo_gitDefine ft run.describe

end Runs

/-! ## Runs on small files -/

/-- A second after midnight. -/
def sampleClock : Clock := ⟨2023, 1, 2, 0, 0, 1, 0, 2⟩

/-- A run for one file and a run for two. -/
def sampleRuns : List Run :=
  [⟨sampleClock, some "v1.2-3-gabc-dirty".toList, false⟩, ⟨sampleClock, none, true⟩]

theorem appendTimeInfo_preserves_sampleRuns :
    Preserves .header ⟨some "int x;\n".toList, none⟩ sampleRuns :=
  (appendTimeInfo_preserves_iff .header _ _ (by decide +kernel) (by decide +kernel)).mpr
    ⟨⟨fun _ => by decide +kernel, fun _ => by decide +kernel, by decide +kernel⟩,
      ⟨fun _ => by decide +kernel, fun _ => by decide +kernel, by decide +kernel⟩⟩

/-- A text that runs into the end marker, and one that says what the first run will generate. -/
theorem not_preserves_endMark_or_oldInfo :
    (∃ text, Unmarked .header text ∧
      ¬ Preserves .header ⟨some text, none⟩ [⟨sampleClock, none, false⟩]) ∧
    ∃ text, Unmarked .header text ∧
      ¬ Preserves .header ⟨some text, none⟩
        [⟨sampleClock, none, false⟩, ⟨sampleClock, none, false⟩] := by
  constructor
  · refine ⟨"\n//compile append define end".toList, by decide +kernel, fun h => ?_⟩
    have hshown := (h [] _ [] rfl).1
    revert hshown
    decide +kernel
  · refine ⟨timeFileInfo .header ⟨sampleClock, none, false⟩, by decide +kernel, fun h => ?_⟩
    have hshown := (h [⟨sampleClock, none, false⟩] _ [] rfl).1
    revert hshown
    decide +kernel

end MaixSpeech.Build
