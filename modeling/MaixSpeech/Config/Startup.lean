import MaixSpeech.Config.Correct

/-!
# The buffers of a start

Reference: `components/utils/src/opts.c`, and `projects/maix_asr/main/src/main.cpp`.

At its start the program reads one configuration: `parse_opts` works on `content[1000]`, the dump of
the arguments looks into `device_type_str[3]`, and `main` builds the paths of the three fonts in
`font_path[100]`. All of this stays inside the arrays exactly when the file says nothing that the
code does not check: a first line that is empty, a device without a name in the table, a long
`font_path`, a length that `size` cannot hold (`startupSafe_iff`).
-/

namespace MaixSpeech.Config

open Common

variable {F : Type*} {lib : CNum F}

/-! ## What runs at the start -/

/-- The string options in the order in which the dump prints them. -/
def dumpedStr : List StrOpt :=
  [.deviceName, .modelName, .sfstName, .symName, .phonesTxt, .wordsTxt, .fontPath, .testpath,
    .testlm]

/-- The ranges of indices at which the dump reads `content`: the strings that are set. -/
def dumpReads (r : ParseResult F) : List (ℤ × ℤ) :=
  dumpedStr.filterMap fun k => (r.opts.str k).map fun q : ℕ =>
    ((q : ℤ), (q : ℤ) + (cstr (r.content.drop q)).length + 1)

/-- What `main` appends to the path of the fonts. -/
def fontSuffixes : List (List UInt8) := [bytes "16.FON", bytes "24.FON", bytes "32.FON"]

/-- `main` builds the three paths one after the other in the array `font_path`; `none` when one of
them does not fit. -/
def fontPaths (path fontPath : List UInt8) : Option (List UInt8) :=
  fontSuffixes.foldlM (fun dst suffix => (strcpy dst path).bind (strcat · suffix)) fontPath

/-- A range of indices of `content`. -/
def InContent (i : ℤ × ℤ) : Prop := 0 ≤ i.1 ∧ i.2 ≤ 1000

/-- The first call of `parse_opts` finds zeros in its static array. -/
def firstCall (lib : CNum F) (before : UInt8) (file : List UInt8) : ParseResult F :=
  parseOpts lib (List.replicate 1000 0) before (some file)

/-- A start with this file stays inside `content`, `device_type_str` and `font_path`. -/
structure StartupSafe (lib : CNum F) (before : UInt8) (file : List UInt8) : Prop where
  content : ∀ i ∈ (firstCall lib before file).used ++ dumpReads (firstCall lib before file),
    InContent i
  deviceTypeStr : ∀ i, (firstCall lib before file).dumped = some i → 0 ≤ i ∧ i < 3
  fontPath : (firstCall lib before file).ret = 0 →
    ∀ q, (firstCall lib before file).opts.str .fontPath = some q →
      ∀ dst : List UInt8, dst.length = 100 →
        (fontPaths (cstr ((firstCall lib before file).content.drop q)) dst).isSome = true

/-! ## The paths of the fonts -/

section FontPath

variable {path suffix dst : List UInt8}

/-- One path fits in an array exactly when there is room for both parts and the NUL. -/
theorem strcpy_strcat_spec (h0 : 0 ∉ path) (hs : 0 ∉ suffix) :
    (path.length + suffix.length < dst.length →
      ∃ dst', (strcpy dst path).bind (strcat · suffix) = some dst' ∧ dst'.length = dst.length) ∧
    (dst.length ≤ path.length + suffix.length →
      (strcpy dst path).bind (strcat · suffix) = none) := by
  constructor
  · intro hroom
    have hcpy : strcpy dst path = some _ := strcpy_eq_some (by omega)
    obtain ⟨hcstr, hlen⟩ := strcpy_spec hcpy h0
    have hcat : (cstr (path ++ 0 :: dst.drop (path.length + 1))).length + suffix.length <
        (path ++ 0 :: dst.drop (path.length + 1)).length := by
      rw [hcstr, hlen]
      exact hroom
    obtain ⟨dst', hdst'⟩ := exists_strcat hcat
    refine ⟨dst', ?_, ?_⟩
    · rw [hcpy, Option.bind_some, hdst']
    · rw [(strcat_spec hdst' hs).2.1, hlen]
  · intro hfull
    cases hcpy : strcpy dst path with
    | none => rfl
    | some mid =>
      obtain ⟨hcstr, hlen⟩ := strcpy_spec hcpy h0
      rw [Option.bind_some, strcat, hcstr]
      exact strcpy_eq_none (by rw [hlen, List.length_append]; exact hfull)

/-- The suffixes have six characters. -/
theorem fontSuffixes_spec : ∀ s ∈ fontSuffixes, 0 ∉ s ∧ s.length = 6 := by decide

theorem fontPaths_isSome_iff (h0 : 0 ∉ path) (hdst : dst.length = 100) :
    (fontPaths path dst).isSome = true ↔ path.length + 6 < 100 := by
  constructor
  · intro hsome
    by_contra hlong
    have hfirst : (strcpy dst path).bind (strcat · (bytes "16.FON")) = none :=
      (strcpy_strcat_spec h0 (fontSuffixes_spec (bytes "16.FON") (by decide)).1).2
        (by rw [hdst]; exact Nat.not_lt.mp hlong)
    simp only [fontPaths, fontSuffixes, List.foldlM_cons, hfirst] at hsome
    cases hsome
  · intro hroom
    -- every path leaves an array of the same size for the next one
    have hall : ∀ l : List (List UInt8), (∀ s ∈ l, 0 ∉ s ∧ s.length = 6) → ∀ dst : List UInt8,
        dst.length = 100 → (l.foldlM (fun dst suffix =>
          (strcpy dst path).bind (strcat · suffix)) dst).isSome = true := by
      intro l hl
      induction l with
      | nil => exact fun _ _ => rfl
      | cons s l ih =>
        intro dst hdst
        obtain ⟨hs, hlen⟩ := hl s (by simp)
        have hroom' : path.length + s.length < dst.length := by omega
        obtain ⟨dst', hdst', hsize⟩ := (strcpy_strcat_spec h0 hs).1 hroom'
        rw [List.foldlM_cons, hdst']
        exact ih (fun s' hs' => hl s' (by simp [hs'])) dst' (hsize.trans hdst)
    exact hall fontSuffixes fontSuffixes_spec dst hdst

end FontPath

/-! ## The indices of one turn -/

/-- The loop stays inside `content`: the array keeps its length and the NUL at its end, and all the
ranges used so far lie inside. -/
structure Inside (content : List UInt8) (used : List (ℤ × ℤ)) : Prop where
  length : content.length = 1000
  last : content[999]? = some 0
  used : ∀ i ∈ used, InContent i

section Turn

variable {st : ParseSt F} {content : List UInt8} {used : List (ℤ × ℤ)} {size p pn : ℕ}

theorem inContent_iff {lo hi : ℤ} : InContent (lo, hi) ↔ 0 ≤ lo ∧ hi ≤ 1000 := Iff.rfl

theorem strchr_lt {c : UInt8} {mem : List UInt8} {n : ℕ} (h : strchr c mem = some n) :
    n < mem.length := by
  obtain ⟨l, t, rfl, rfl, -, -⟩ := strchr_eq_some_iff.mp h
  rw [List.length_append, List.length_cons]
  omega

/-- The scan for a character ends at a NUL. -/
theorem strchrReads_le {mem : List UInt8} (c : UInt8) (h0 : 0 ∈ mem) :
    strchrReads c mem ≤ mem.length := by
  have hprefix := List.takeWhile_prefix (fun b => decide (b ≠ c ∧ b ≠ 0)) (l := mem)
  have hle := hprefix.length_le
  have hne : (mem.takeWhile fun b => decide (b ≠ c ∧ b ≠ 0)).length ≠ mem.length := by
    intro heq
    have hall := hprefix.eq_of_length heq
    have hnul := List.takeWhile_eq_self_iff.mp hall 0 h0
    simp at hnul
  unfold strchrReads
  omega

namespace Inside

theorem use (h : Inside content used) {i : ℤ × ℤ} (hi : InContent i) :
    Inside content (i :: used) :=
  ⟨h.length, h.last, List.forall_mem_cons.mpr ⟨hi, h.used⟩⟩

theorem setNul (h : Inside content used) (q : ℕ) : Inside (content.set q 0) used where
  length := by rw [List.length_set, h.length]
  last := by
    rw [List.getElem?_set, h.length]
    split
    · rename_i hq
      rw [if_pos (by omega)]
    · exact h.last
  used := h.used

/-- A scan from inside the array stays inside it. -/
theorem scan (h : Inside content used) (c : UInt8) (hp : p < 1000) :
    InContent ((p : ℤ), (p : ℤ) + strchrReads c (content.drop p)) := by
  have h0 : 0 ∈ content.drop p := by
    refine List.mem_of_getElem? (i := 999 - p) ?_
    rw [List.getElem?_drop, show p + (999 - p) = 999 by omega, h.last]
  have hle := strchrReads_le c h0
  rw [List.length_drop, h.length] at hle
  rw [inContent_iff]
  omega

/-- What a scan finds lies inside the array. -/
theorem found (h : Inside content used) {c : UInt8} {n : ℕ}
    (hn : strchr c (content.drop p) = some n) : p + n < 1000 := by
  have hlt := strchr_lt hn
  rw [List.length_drop, h.length] at hlt
  omega

end Inside

theorem endLine_used (st : ParseSt F) (pn : ℕ) :
    (endLine st pn).used = ((pn : ℤ) - 1, (pn : ℤ) + 1) :: st.used := by
  unfold endLine
  simp only
  split
  · rfl
  · split <;> rfl

/-- The end of a line is inside when it is not the first byte. -/
theorem Inside.endLine (h : Inside st.content st.used) (hpos : 0 < pn) (hpn : pn < 1000) :
    Inside (endLine st pn).content (endLine st pn).used := by
  rw [endLine_used, endLine_content]
  have hi : InContent ((pn : ℤ) - 1, (pn : ℤ) + 1) := by
    rw [inContent_iff]
    omega
  split
  · exact ((h.setNul pn).setNul (pn - 1)).use hi
  · exact (h.setNul pn).use hi

/-- The part of a turn behind the end of the line stays inside, and moves on or leaves the loop. -/
theorem Inside.parseEntry (lib : CNum F) (h : Inside st.content st.used) (hp : st.p < 1000)
    (hpn : pn < 1000) :
    Inside (parseEntry lib st pn).content (parseEntry lib st pn).used ∧
      ((parseEntry lib st pn).stopped = false → (parseEntry lib st pn).p = pn + 1) := by
  have hscan := h.use (h.scan colon hp)
  unfold Config.parseEntry
  cases hk : strchr colon (st.content.drop st.p) with
  | none =>
    simp only [hk]
    exact ⟨hscan, fun _ => trivial⟩
  | some k =>
    have hcolon : InContent (((st.p + k : ℕ) : ℤ), (pn : ℤ) + 1) := by
      rw [inContent_iff]
      omega
    have hend := (hscan.setNul (st.p + k)).use hcolon
    simp only [hk]
    split
    · exact ⟨hend, fun _ => rfl⟩
    · split
      · refine ⟨hend, fun hs => ?_⟩
        cases hs
      · exact ⟨hend, fun _ => rfl⟩

/-- **One turn stays inside `content`** unless it ends an empty line at the very first byte. -/
theorem Inside.parseLine (lib : CNum F) (h : Inside st.content st.used) (hp : st.p < 1000)
    (hfirst : st.p = 0 → st.content.head? ≠ some newline) :
    Inside (parseLine lib st).content (parseLine lib st).used ∧
      ((parseLine lib st).stopped = false → 0 < (parseLine lib st).p) := by
  have hscan := h.use (h.scan newline hp)
  unfold Config.parseLine
  cases hn : strchr newline (st.content.drop st.p) with
  | none =>
    simp only [hn]
    refine ⟨hscan, fun hs => ?_⟩
    cases hs
  | some n =>
    have hpn := h.found hn
    have hpos : 0 < st.p + n := by
      by_contra hzero
      obtain ⟨hp0, rfl⟩ : st.p = 0 ∧ n = 0 := by omega
      obtain ⟨l, t, hl, hlen, -, -⟩ := strchr_eq_some_iff.mp hn
      rw [hp0, List.drop_zero, List.length_eq_zero_iff.mp hlen] at hl
      exact hfirst hp0 (by rw [hl]; rfl)
    simp only [hn]
    split
    · exact ⟨hscan, fun _ => Nat.succ_pos _⟩
    · obtain ⟨-, hpe, -⟩ := endLine_frame { st with
        used := ((st.p : ℤ), (st.p : ℤ) + strchrReads newline (st.content.drop st.p)) :: st.used }
        (st.p + n)
      obtain ⟨hin, hmove⟩ := Inside.parseEntry lib (Inside.endLine hscan hpos hpn)
        (by rw [hpe]; exact hp) hpn
      exact ⟨hin, fun hs => by rw [hmove hs]; exact Nat.succ_pos _⟩

/-- What a turn has used stays used. -/
theorem used_subset_parseEntry (lib : CNum F) (st : ParseSt F) (pn : ℕ) :
    st.used ⊆ (parseEntry lib st pn).used := by
  intro i hi
  unfold parseEntry
  cases hk : strchr colon (st.content.drop st.p) with
  | none =>
    simp only [hk]
    exact List.mem_cons_of_mem _ hi
  | some k =>
    have hmem : ∀ j j' : ℤ × ℤ, i ∈ j :: j' :: st.used :=
      fun _ _ => List.mem_cons_of_mem _ (List.mem_cons_of_mem _ hi)
    simp only [hk]
    split
    · exact hmem _ _
    · split
      · exact hmem _ _
      · exact hmem _ _

theorem used_subset_parseLine (lib : CNum F) (st : ParseSt F) :
    st.used ⊆ (parseLine lib st).used := by
  intro i hi
  unfold parseLine
  simp only
  split
  · exact List.mem_cons_of_mem _ hi
  · split
    · exact List.mem_cons_of_mem _ hi
    · refine used_subset_parseEntry lib _ _ ?_
      rw [endLine_used]
      exact List.mem_cons_of_mem _ (List.mem_cons_of_mem _ hi)

/-- A turn on an empty line at the first byte looks in front of `content`. -/
theorem parseLine_used_empty (lib : CNum F) (hp : st.p = 0)
    (hfirst : st.content.head? = some newline) : (-1, 1) ∈ (parseLine lib st).used := by
  obtain ⟨t, ht⟩ : ∃ t, st.content = newline :: t := by
    cases hc : st.content with
    | nil => rw [hc] at hfirst; cases hfirst
    | cons b t =>
      rw [hc] at hfirst
      exact ⟨t, by rw [Option.some.inj hfirst]⟩
  have hchr : strchr newline (st.content.drop st.p) = some 0 := by
    rw [hp, ht]
    rfl
  have hnothash : st.content[st.p]? ≠ some hash := by
    rw [hp, ht, List.getElem?_cons_zero]
    exact fun h => absurd (Option.some.inj h) (by decide)
  unfold parseLine
  simp only [hchr, if_neg hnothash]
  refine used_subset_parseEntry lib _ _ ?_
  rw [endLine_used, hp]
  exact List.mem_cons_self

end Turn

/-! ## The indices of the loop -/

section Loop

variable {st : ParseSt F} {size : ℕ}

theorem parseLoop_succ (lib : CNum F) (size n : ℕ) (st : ParseSt F) :
    parseLoop lib size (n + 1) st = parseStep lib size (parseLoop lib size n st) :=
  Function.iterate_succ_apply' _ _ _

/-- The invariant of the indices: everything is inside, and at the first byte stands no newline. -/
theorem parseLoop_inside (lib : CNum F) (hsize : size ≤ 1000) (h : Inside st.content st.used)
    (hfirst : st.stopped = false → st.p = 0 → st.content.head? ≠ some newline) (n : ℕ) :
    Inside (parseLoop lib size n st).content (parseLoop lib size n st).used ∧
      ((parseLoop lib size n st).stopped = false → (parseLoop lib size n st).p = 0 →
        (parseLoop lib size n st).content.head? ≠ some newline) := by
  induction n with
  | zero => exact ⟨h, hfirst⟩
  | succ n ih =>
    rw [parseLoop_succ]
    generalize parseLoop lib size n st = st at ih
    obtain ⟨hin, hhead⟩ := ih
    unfold parseStep
    split
    · rename_i hrun
      obtain ⟨hin', hmove⟩ := hin.parseLine lib (by omega) (hhead hrun.1)
      refine ⟨hin', fun hs hp => ?_⟩
      have := hmove hs
      omega
    · exact ⟨hin, hhead⟩

theorem used_subset_parseLoop (lib : CNum F) (size n : ℕ) (st : ParseSt F) :
    st.used ⊆ (parseLoop lib size n st).used := by
  induction n with
  | zero => exact List.Subset.refl _
  | succ n ih =>
    rw [parseLoop_succ, parseStep]
    split
    · exact List.Subset.trans ih (used_subset_parseLine lib _)
    · exact ih

end Loop

/-! ## When a start is safe -/

/-- The entries that the first call assigns. -/
def startEntries (file : List UInt8) : List (Key × List UInt8) :=
  assigned (readEntries (List.replicate 1000 0) file)

/-- What the code takes for granted of a file that it reads. -/
structure StartupFits (lib : CNum F) (file : List UInt8) : Prop where
  size : 0 ≤ cfgSize file
  firstLine : (cfgRead file).head? ≠ some newline
  device : ∀ v, lastSet (startEntries file) .deviceType = some v →
    v = bytes "pcm" ∨ v = bytes "mic" ∨ v = bytes "wav"
  fontPath : (described lib (Opts.cleared lib) (startEntries file)).rejected lib = false →
    ∀ s, lastSet (startEntries file) (.str .fontPath) = some s → s.length + 6 < 100

/-- The names in the table of the dump. -/
theorem codeOf_devices_mem_iff (v : List UInt8) :
    0 ≤ codeOf devices v ∧ codeOf devices v < 3 ↔
      v = bytes "pcm" ∨ v = bytes "mic" ∨ v = bytes "wav" := by
  simp only [devices, codeOf_cons, codeOf_nil]
  split_ifs <;> simp_all [devicePcm, deviceMic, deviceWav, deviceMic2, deviceMic4, deviceCustom]

section Start

variable {before : UInt8} {file : List UInt8}

/-- A negative `size` comes with a file that is larger than `content`. -/
theorem cfgRead_of_neg (h : cfgSize file < 0) : 1000 < (cfgRead file).length := by
  rw [cfgRead, if_pos h]
  by_contra hle
  have hlt : file.length < 2 ^ 31 := by omega
  rw [cfgSize_of_lt hlt] at h
  omega

theorem length_cfgRead (h : 0 ≤ cfgSize file) : (cfgRead file).length = (cfgSize file).toNat := by
  have hint : cfgSize file ≤ file.length := by
    rw [cfgSize, BitVec.toInt_eq_toNat_cond, BitVec.toNat_ofNat]
    split <;> omega
  have hle : (cfgSize file).toNat ≤ file.length := by omega
  rw [cfgRead, if_neg (Int.not_lt.mpr h), List.length_take, Nat.min_eq_left hle]

/-- What the first call has in front of it when it enters the loop. -/
theorem inside_start (lib : CNum F) (before : UInt8) (h : 0 ≤ cfgSize file)
    (hsize : cfgSize file < 1000) :
    Inside (startParse lib (List.replicate 1000 0) before (cfgRead file)).content
      (startParse lib (List.replicate 1000 0) before (cfgRead file)).used := by
  have hlen := length_cfgRead h
  have hlt : (cfgRead file).length < 1000 := by omega
  simp only [startParse, List.drop_replicate]
  refine ⟨?_, ?_, ?_⟩
  · rw [List.length_append, List.length_replicate]
    omega
  · rw [List.getElem?_append_right (by omega), List.getElem?_replicate, if_pos (by omega)]
  · refine List.forall_mem_singleton.mpr ?_
    rw [inContent_iff]
    omega

theorem firstCall_of_lt (lib : CNum F) (before : UInt8) (hsize : cfgSize file < 1000) :
    firstCall lib before file =
      let size := (cfgSize file).toNat
      let st := parseLoop lib size size
        (startParse lib (List.replicate 1000 0) before (cfgRead file))
      ⟨if st.opts.rejected lib then -1 else 0, st.opts, st.content, st.before, st.used,
        some st.opts.deviceType⟩ :=
  parseOpts_of_lt lib _ before hsize

/-- The options after the first call say what the assigned entries describe. -/
theorem firstCall_shows (lib : CNum F) (before : UInt8) (hsize : cfgSize file < 1000) :
    Shows (firstCall lib before file).content (firstCall lib before file).opts
      (described lib (Opts.cleared lib) (startEntries file)) := by
  have h := parseOpts_shows lib (List.replicate 1000 0) before hsize
  rwa [applyEntries_eq_described_assigned] at h

theorem described_deviceType (lib : CNum F) (es : List (Key × List UInt8)) :
    (described lib (Opts.cleared lib) es).deviceType =
      ((lastSet es .deviceType).map (codeOf devices)).getD 0 := rfl

theorem described_str (lib : CNum F) (es : List (Key × List UInt8)) (k : StrOpt) :
    (described lib (Opts.cleared lib) es).str k = lastSet es (.str k) := Option.or_none

/-- A string option that is set points to the last value of its key. -/
theorem firstCall_str (lib : CNum F) (before : UInt8) (hsize : cfgSize file < 1000) {k : StrOpt}
    {q : ℕ} (hq : (firstCall lib before file).opts.str k = some q) :
    ∃ s, lastSet (startEntries file) (.str k) = some s ∧
      HoldsStr (firstCall lib before file).content q s := by
  have hrel := (firstCall_shows lib before hsize).str k
  rw [hq, described_str] at hrel
  generalize lastSet (startEntries file) (.str k) = v at hrel
  cases hrel with
  | some hs => exact ⟨_, rfl, hs⟩

/-- The dump looks up the device of the options. -/
theorem firstCall_dumped (lib : CNum F) (before : UInt8) (hsize : cfgSize file < 1000) :
    (firstCall lib before file).dumped = some (firstCall lib before file).opts.deviceType := by
  rw [firstCall_of_lt lib before hsize]

/-- The device that the dump looks up. -/
theorem dumped_inside_iff (lib : CNum F) (before : UInt8) (hsize : cfgSize file < 1000) :
    (∀ i, (firstCall lib before file).dumped = some i → 0 ≤ i ∧ i < 3) ↔
      ∀ v, lastSet (startEntries file) .deviceType = some v →
        v = bytes "pcm" ∨ v = bytes "mic" ∨ v = bytes "wav" := by
  have hdump : (firstCall lib before file).dumped =
      some (((lastSet (startEntries file) .deviceType).map (codeOf devices)).getD 0) := by
    rw [firstCall_dumped lib before hsize, (firstCall_shows lib before hsize).deviceType,
      described_deviceType]
  rw [hdump]
  cases lastSet (startEntries file) .deviceType with
  | none => simp
  | some v =>
    simp only [Option.map_some, Option.getD_some, Option.some.injEq, forall_eq',
      codeOf_devices_mem_iff]

/-- The first turn on an empty line reads in front of `content`. -/
theorem before_mem_used (lib : CNum F) (before : UInt8) (hsize : cfgSize file < 1000)
    (hnonneg : 0 ≤ cfgSize file) (hfirst : (cfgRead file).head? = some newline) :
    (-1, 1) ∈ (firstCall lib before file).used := by
  obtain ⟨n, hn⟩ : ∃ n, (cfgSize file).toNat = n + 1 := by
    refine Nat.exists_eq_add_one.mpr ?_
    rw [← length_cfgRead hnonneg]
    exact List.length_pos_iff.mpr fun h => by rw [h] at hfirst; cases hfirst
  have hturn : (-1, 1) ∈ (parseLine lib (startParse lib (List.replicate 1000 0) before
      (cfgRead file))).used := by
    refine parseLine_used_empty lib rfl ?_
    simp only [startParse, List.head?_append, hfirst, Option.some_or]
  rw [firstCall_of_lt lib before hsize]
  show _ ∈ (parseLoop lib (cfgSize file).toNat (cfgSize file).toNat _).used
  rw [hn, Nat.add_comm, parseLoop_add]
  refine used_subset_parseLoop lib _ _ _ ?_
  rw [show ∀ st : ParseSt F, parseLoop lib (1 + n) 1 st = parseStep lib (1 + n) st from
    fun _ => rfl, parseStep_of_running rfl (Nat.add_comm n 1 ▸ Nat.succ_pos n)]
  exact hturn

/-- A call that begins with a line keeps to `content`. -/
theorem firstCall_inside (lib : CNum F) (before : UInt8) (hsize : cfgSize file < 1000)
    (hnonneg : 0 ≤ cfgSize file) (hfirst : (cfgRead file).head? ≠ some newline) :
    Inside (firstCall lib before file).content (firstCall lib before file).used := by
  have hhead : (startParse lib (List.replicate 1000 0) before (cfgRead file)).content.head? ≠
      some newline := by
    simp only [startParse, List.head?_append]
    cases hr : (cfgRead file).head? with
    | none =>
      have hnil := List.head?_eq_none_iff.mp hr
      rw [hnil]
      decide
    | some b =>
      rw [hr] at hfirst
      exact hfirst
  have hle : (cfgSize file).toNat ≤ 1000 := by omega
  rw [firstCall_of_lt lib before hsize]
  exact (parseLoop_inside lib hle (inside_start lib before hnonneg hsize) (fun _ _ => hhead)
    (cfgSize file).toNat).1

/-- The first call stays inside `content` exactly when the file fits and does not begin with an
empty line. -/
theorem content_inside_iff (lib : CNum F) (before : UInt8) (hsize : cfgSize file < 1000) :
    (∀ i ∈ (firstCall lib before file).used ++ dumpReads (firstCall lib before file),
      InContent i) ↔ 0 ≤ cfgSize file ∧ (cfgRead file).head? ≠ some newline := by
  constructor
  · intro hin
    obtain ⟨hused, -⟩ := List.forall_mem_append.mp hin
    have hnonneg : 0 ≤ cfgSize file := by
      by_contra hneg
      rw [firstCall_of_lt lib before hsize] at hused
      have hread := hused _ (used_subset_parseLoop lib _ _ _ List.mem_cons_self)
      rw [inContent_iff] at hread
      have hlong : 1000 < (cfgRead file).length := cfgRead_of_neg (by omega)
      omega
    refine ⟨hnonneg, fun hfirst => ?_⟩
    have hout := hused _ (before_mem_used lib before hsize hnonneg hfirst)
    rw [inContent_iff] at hout
    omega
  · rintro ⟨hnonneg, hfirst⟩
    have hin := firstCall_inside lib before hsize hnonneg hfirst
    refine List.forall_mem_append.mpr ⟨hin.used, ?_⟩
    -- the dump prints strings that end inside the array
    intro i hi
    obtain ⟨k, -, hk⟩ := List.mem_filterMap.mp hi
    obtain ⟨q, hq, rfl⟩ := Option.map_eq_some_iff.mp hk
    obtain ⟨s, -, hs⟩ := firstCall_str lib before hsize hq
    have hfit := hs.2.length_le
    rw [List.length_append, List.length_drop, hin.length, List.length_singleton] at hfit
    rw [hs.cstr_drop, inContent_iff]
    omega

/-- **A start stays inside its buffers exactly when the file fits**: a file that is too large, by
its `size`, is not read. -/
theorem startupSafe_iff (lib : CNum F) (before : UInt8) (file : List UInt8) :
    StartupSafe lib before file ↔ (cfgSize file < 1000 → StartupFits lib file) := by
  by_cases hsize : cfgSize file < 1000
  · simp only [hsize, forall_const]
    have hret : (firstCall lib before file).ret = 0 ↔
        (described lib (Opts.cleared lib) (startEntries file)).rejected lib = false := by
      rw [firstCall, parseOpts_ret_eq_zero_iff, applyEntries_eq_described_assigned]
      exact and_iff_right hsize
    have hfont : ∀ {q : ℕ} {s dst : List UInt8}, dst.length = 100 →
        HoldsStr (firstCall lib before file).content q s →
        ((fontPaths (cstr ((firstCall lib before file).content.drop q)) dst).isSome = true ↔
          s.length + 6 < 100) := by
      intro q s dst hdst hs
      rw [hs.cstr_drop]
      exact fontPaths_isSome_iff hs.1 hdst
    constructor
    · intro h
      obtain ⟨hnonneg, hfirst⟩ := (content_inside_iff lib before hsize).mp h.content
      refine ⟨hnonneg, hfirst, (dumped_inside_iff lib before hsize).mp h.deviceTypeStr,
        fun hacc s hs => ?_⟩
      have hrel := (firstCall_shows lib before hsize).str .fontPath
      rw [described_str, hs] at hrel
      cases hq : (firstCall lib before file).opts.str .fontPath with
      | none =>
        rw [hq] at hrel
        cases hrel
      | some q =>
        obtain ⟨s', hs', hholds⟩ := firstCall_str lib before hsize hq
        obtain rfl := Option.some.inj (hs.symm.trans hs')
        have hdst : (List.replicate 100 (0 : UInt8)).length = 100 := List.length_replicate
        exact (hfont hdst hholds).mp (h.fontPath (hret.mpr hacc) q hq _ hdst)
    · intro h
      refine ⟨(content_inside_iff lib before hsize).mpr ⟨h.size, h.firstLine⟩,
        (dumped_inside_iff lib before hsize).mpr h.device, fun hacc q hq dst hdst => ?_⟩
      obtain ⟨s, hs, hholds⟩ := firstCall_str lib before hsize hq
      exact (hfont hdst hholds).mpr (h.fontPath (hret.mp hacc) s hs)
  · -- the file is too big, and nothing is read
    simp only [hsize, IsEmpty.forall_iff, iff_true]
    have hbig : firstCall lib before file =
        ⟨-1, Opts.cleared lib, List.replicate 1000 0, before, [], none⟩ := by
      simp only [firstCall, parseOpts, if_pos (show cfgSize file ≥ 1000 from Int.not_lt.mp hsize)]
    refine ⟨?_, ?_, ?_⟩ <;> rw [hbig]
    · exact fun i hi => absurd hi List.not_mem_nil
    · rintro i ⟨⟩
    · rintro ⟨⟩

/-- A complete configuration for the four microphones. -/
def mic4Text : List UInt8 :=
  bytes "device_type:mic4\ndevice_name:a\nmodel_name:b\nmodel_in_len:364\nsfst_name:c\n" ++
  bytes "sym_name:d\nphones_txt:e\nwords_txt:f\nfont_path:g\nbeam:16\nbg_prob:10\nscale:0.5\n"

/-- A complete configuration with a `font_path` of 94 characters. -/
def longFontText : List UInt8 :=
  bytes "device_name:a\nmodel_name:b\nmodel_in_len:364\nsfst_name:c\nsym_name:d\n" ++
  bytes "phones_txt:e\nwords_txt:f\nbeam:16\nbg_prob:10\nscale:0.5\nfont_path:" ++
  List.replicate 94 (UInt8.ofNat 47) ++ [newline]

theorem startup_unsafe_of_emptyFirst_or_mic4_or_longFont :
    ¬ StartupSafe CNum.decimal 0 [newline] ∧ ¬ StartupSafe CNum.decimal 0 mic4Text ∧
      ¬ StartupSafe CNum.decimal 0 longFontText := by
  refine ⟨fun h => ?_, fun h => ?_, fun h => ?_⟩
  · have hout := h.content (-1, 1) (by decide +kernel)
    exact absurd hout.1 (by decide)
  · have hdump : (firstCall CNum.decimal 0 mic4Text).dumped =
        some 4 := by decide +kernel
    exact absurd (h.deviceTypeStr 4 hdump).2 (by decide)
  · have hlong : (firstCall CNum.decimal 0 longFontText).ret = 0 ∧
        (firstCall CNum.decimal 0 longFontText).opts.str .fontPath = some 131 ∧
        (fontPaths (cstr ((firstCall CNum.decimal 0 longFontText).content.drop 131))
          (List.replicate 100 0)).isSome = false := by
      decide +kernel
    obtain ⟨hret, hpath, hnone⟩ := hlong
    rw [h.fontPath hret 131 hpath _ List.length_replicate] at hnone
    cases hnone

end Start

end MaixSpeech.Config
