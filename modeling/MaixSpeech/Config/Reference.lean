import MaixSpeech.Common.LastValue
import MaixSpeech.Config.Options
import Mathlib.Data.List.Nodup

/-!
# What a configuration file says

The reference reading of a file, on the text alone: its lines are the newline-terminated pieces, a
line that is not a comment and has a colon is an entry, and the entries are applied in order. The
names of the options are those of the members of `opts_t` in `opts.h`, the names of devices and
phones those of `usage_zh.md` and `ms_asr.h`. `Refine.lean` shows that the parser computes this;
`keyOf_eq_keyNamed` is where the two tables of names meet.
-/

namespace MaixSpeech.Config

open Common

variable {F S : Type*}

/-! ## Names and values -/

/-- The name of an option: that of its member of `opts_t`. -/
def Key.name : Key → String
  | .deviceType => "device_type"
  | .phoneType => "phone_type"
  | .str .deviceName => "device_name"
  | .str .modelName => "model_name"
  | .str .sfstName => "sfst_name"
  | .str .symName => "sym_name"
  | .str .phonesTxt => "phones_txt"
  | .str .wordsTxt => "words_txt"
  | .str .fontPath => "font_path"
  | .str .testpath => "testpath"
  | .str .testlm => "testlm"
  | .int .modelInLen => "model_in_len"
  | .int .stripL => "strip_l"
  | .int .stripR => "strip_r"
  | .int .agc => "agc"
  | .int .isMmap => "is_mmap"
  | .int .dbgMicraw => "dbg_micraw"
  | .int .dbgMic => "dbg_mic"
  | .int .dbgStrip => "dbg_strip"
  | .int .dbgLvcsr => "dbg_lvcsr"
  | .int .dbgtPp => "dbgt_pp"
  | .int .dbgtAm => "dbgt_am"
  | .int .dbgtKws => "dbgt_kws"
  | .int .dbgtWfst => "dbgt_wfst"
  | .int .doRaw => "do_raw"
  | .int .doDig => "do_dig"
  | .int .doKws => "do_kws"
  | .int .doLvcsr => "do_lvcsr"
  | .int .testpny => "testpny"
  | .int .testhan => "testhan"
  | .float .beam => "beam"
  | .float .bgProb => "bg_prob"
  | .float .scale => "scale"

/-- All options, in the order of `opts_t`. -/
def Key.all : List Key :=
  [.deviceType, .str .deviceName, .str .modelName, .int .modelInLen, .int .stripL, .int .stripR,
    .phoneType, .int .agc, .str .sfstName, .str .symName, .str .phonesTxt, .str .wordsTxt,
    .str .fontPath, .float .beam, .float .bgProb, .float .scale, .int .isMmap, .int .dbgMicraw,
    .int .dbgMic, .int .dbgStrip, .int .dbgLvcsr, .int .dbgtPp, .int .dbgtAm, .int .dbgtKws,
    .int .dbgtWfst, .int .doRaw, .int .doDig, .int .doKws, .int .doLvcsr, .str .testpath,
    .int .testpny, .int .testhan, .str .testlm]

/-- The option with a name. -/
def keyNamed (name : List UInt8) : Option Key := Key.all.find? fun k => bytes k.name = name

/-- The devices with their codes. -/
def devices : List (String × ℤ) :=
  [("pcm", devicePcm), ("mic", deviceMic), ("wav", deviceWav), ("mic2", deviceMic2),
    ("mic4", deviceMic4), ("custom", deviceCustom)]

/-- The kinds of models with their codes. -/
def phones : List (String × ℤ) :=
  [("phone", cnPhone), ("pny", cnPny), ("pnytone", cnPnytone), ("han", cnHan), ("sw1k", enSw1k),
    ("sw3k", enSw3k), ("sw5k", enSw5k)]

/-- The code of a value, and `-1` for one that is not supported. -/
def codeOf (table : List (String × ℤ)) (val : List UInt8) : ℤ :=
  ((table.find? fun e => bytes e.1 = val).map (·.2)).getD (-1)

/-! ## Lines and entries -/

/-- The newline-terminated lines of a text. -/
def fileLines (text : List UInt8) : List (List UInt8) := (text.splitOn newline).dropLast

/-- The lines that start among the first `size` bytes. -/
def startingBelow : ℕ → List (List UInt8) → List (List UInt8)
  | _, [] => []
  | size, l :: ls => if size = 0 then [] else l :: startingBelow (size - (l.length + 1)) ls

/-- The lines in a buffer filled with `size` bytes: those of the text before the first NUL that
start in the filled part. -/
def bufferLines (size : ℕ) (buf : List UInt8) : List (List UInt8) :=
  startingBelow size (fileLines (cstr buf))

/-- A line without the CR at its end. -/
def stripCr (line : List UInt8) : List UInt8 :=
  if line.getLast? = some cr then line.dropLast else line

/-- The text before the first colon of a line, and the text after it. -/
def splitColon (line : List UInt8) : List UInt8 × List UInt8 :=
  (line.takeWhile (· ≠ colon), (line.dropWhile (· ≠ colon)).tail)

/-- The recognised key a line sets, with the value. Comments, lines without a colon and unknown keys
set nothing. -/
def lineEntry (line : List UInt8) : Option (Key × List UInt8) :=
  if line.head? = some hash then none
  else if colon ∈ stripCr line then
    (keyNamed (splitColon (stripCr line)).1).map fun k => (k, (splitColon (stripCr line)).2)
  else none

/-- The entries of a list of lines. -/
def entries (lines : List (List UInt8)) : List (Key × List UInt8) := lines.filterMap lineEntry

/-! ## Applying the entries -/

/-- The entries whose value has no code. -/
def Unsupported : Key × List UInt8 → Prop
  | (.deviceType, val) => codeOf devices val < 0
  | (.phoneType, val) => codeOf phones val < 0
  | _ => False

instance : DecidablePred Unsupported
  | (.deviceType, val) => inferInstanceAs (Decidable (codeOf devices val < 0))
  | (.phoneType, val) => inferInstanceAs (Decidable (codeOf phones val < 0))
  | (.str _, _) => instDecidableFalse
  | (.int _, _) => instDecidableFalse
  | (.float _, _) => instDecidableFalse

/-- The options after the entries, with strings for the string options. An unsupported value is
assigned and ends the reading. -/
def applyEntries (lib : CNum F) (o : Opts F (List UInt8)) :
    List (Key × List UInt8) → Opts F (List UInt8)
  | [] => o
  | e :: es =>
    if Unsupported e then (setOpt lib e.1 e.2 e.2 o).1
    else applyEntries lib (setOpt lib e.1 e.2 e.2 o).1 es

/-- The entries that are assigned: those up to the first unsupported value, and it. -/
def assigned : List (Key × List UInt8) → List (Key × List UInt8)
  | [] => []
  | e :: es => if Unsupported e then [e] else e :: assigned es

/-- The options a list of entries describes, key by key: the last value of each key, and that of `o`
for a key that has none. -/
def described (lib : CNum F) (o : Opts F (List UInt8)) (es : List (Key × List UInt8)) :
    Opts F (List UInt8) where
  deviceType := ((lastSet es .deviceType).map (codeOf devices)).getD o.deviceType
  phoneType := ((lastSet es .phoneType).map (codeOf phones)).getD o.phoneType
  str k := (lastSet es (.str k)).or (o.str k)
  int k := ((lastSet es (.int k)).map lib.atoi).getD (o.int k)
  float k := ((lastSet es (.float k)).map lib.atof).getD (o.float k)

/-! ## Lines of a buffer -/

section Lines

variable {l t buf : List UInt8} {size : ℕ}

theorem fileLines_cons (h : newline ∉ l) (t : List UInt8) :
    fileLines (l ++ newline :: t) = l :: fileLines t := by
  rw [fileLines, List.splitOn_append_cons_self_of_not_mem h,
    List.dropLast_cons_of_ne_nil (List.splitOn_ne_nil newline t), fileLines]

theorem fileLines_of_notMem (h : newline ∉ l) : fileLines l = [] := by
  rw [fileLines, List.splitOn_eq_singleton h, List.dropLast_singleton]

@[simp] theorem startingBelow_zero (ls : List (List UInt8)) : startingBelow 0 ls = [] := by
  cases ls <;> simp [startingBelow]

/-- Induction over the lines of a text, the unterminated rest first. -/
theorem line_induction {motive : List UInt8 → Prop} (rest : ∀ l, newline ∉ l → motive l)
    (line : ∀ a b, newline ∉ a → motive b → motive (a ++ newline :: b)) (l : List UInt8) :
    motive l := by
  induction hn : l.length using Nat.strong_induction_on generalizing l with
  | _ len ih =>
    by_cases hl : newline ∈ l
    · obtain ⟨a, b, rfl, ha⟩ := List.eq_append_cons_of_mem hl
      simp only [List.length_append, List.length_cons] at hn
      exact line a b ha (ih b.length (by omega) b rfl)
    · exact rest l hl

theorem mem_of_mem_fileLines {line : List UInt8} (h : line ∈ fileLines l) {b : UInt8}
    (hb : b ∈ line) : b ∈ l := by
  induction l using line_induction with
  | rest l hl =>
    rw [fileLines_of_notMem hl] at h
    cases h
  | line a c ha ih =>
    rw [fileLines_cons ha] at h
    rcases List.mem_cons.mp h with rfl | h
    · exact List.mem_append_left _ hb
    · exact List.mem_append_right _ (List.mem_cons_of_mem _ (ih h))

/-- Appending to a text keeps its lines. -/
theorem fileLines_append (l t : List UInt8) : ∃ more, fileLines (l ++ t) = fileLines l ++ more := by
  induction l using line_induction with
  | rest l hl => exact ⟨_, by rw [fileLines_of_notMem hl, List.nil_append]⟩
  | line a b ha ih =>
    obtain ⟨more, hmore⟩ := ih
    refine ⟨more, ?_⟩
    rw [List.append_assoc, List.cons_append, fileLines_cons ha, fileLines_cons ha, hmore,
      List.cons_append]

/-- The lines of a text all start inside it. -/
theorem startingBelow_fileLines {n : ℕ} (h : l.length ≤ n) (more : List (List UInt8)) :
    ∃ m, startingBelow n (fileLines l ++ more) = fileLines l ++ startingBelow m more := by
  induction l using line_induction generalizing n with
  | rest l hl => exact ⟨n, by rw [fileLines_of_notMem hl, List.nil_append, List.nil_append]⟩
  | line a b ha ih =>
    simp only [List.length_append, List.length_cons] at h
    have hb : b.length ≤ n - (a.length + 1) := by omega
    obtain ⟨m, hm⟩ := ih hb
    refine ⟨m, ?_⟩
    rw [fileLines_cons ha, List.cons_append, startingBelow, if_neg (by omega), hm, List.cons_append]

/-- The lines of a file in front of its first NUL are lines of the buffer it fills. -/
theorem fileLines_subset_bufferLines (file rest : List UInt8) :
    fileLines (cstr file) ⊆ bufferLines file.length (file ++ rest) := by
  obtain ⟨t, ht⟩ : ∃ t, cstr (file ++ rest) = cstr file ++ t := by
    rw [cstr, List.takeWhile_append]
    split
    · rename_i hall
      exact ⟨_, by rw [cstr, (List.takeWhile_prefix _).eq_of_length hall]⟩
    · exact ⟨[], by rw [cstr, List.append_nil]⟩
  obtain ⟨more, hmore⟩ := fileLines_append (cstr file) t
  obtain ⟨m, hm⟩ := startingBelow_fileLines (length_cstr_le file) more
  rw [bufferLines, ht, hmore, hm]
  exact List.subset_append_left _ _

theorem bufferLines_cons (hnl : newline ∉ l) (h0 : 0 ∉ l) (hsize : 0 < size) (t : List UInt8) :
    bufferLines size (l ++ newline :: t) = l :: bufferLines (size - (l.length + 1)) t := by
  have hcstr : cstr (l ++ newline :: t) = l ++ newline :: cstr t := by
    rw [cstr_append h0, cstr, List.takeWhile_cons_of_pos (by decide), cstr]
  rw [bufferLines, hcstr, fileLines_cons hnl, startingBelow, if_neg (by omega), bufferLines]

theorem bufferLines_of_strchr (h : strchr newline buf = none) : bufferLines size buf = [] := by
  have hnl : newline ∉ cstr buf := (strchr_eq_none_iff (by decide)).mp h
  rw [bufferLines, fileLines_of_notMem hnl, startingBelow]

@[simp] theorem bufferLines_zero (buf : List UInt8) : bufferLines 0 buf = [] :=
  startingBelow_zero _

end Lines

/-! ## Entries of a line -/

section Entry

variable {k v line : List UInt8}

theorem splitColon_append (hk : colon ∉ k) (v : List UInt8) :
    splitColon (k ++ colon :: v) = (k, v) := by
  have hpos : ∀ a ∈ k, decide (a ≠ colon) = true := fun a ha => decide_eq_true fun h => hk (h ▸ ha)
  rw [splitColon, List.takeWhile_append_of_pos hpos, List.dropWhile_append_of_pos hpos]
  simp

theorem lineEntry_comment (h : line.head? = some hash) : lineEntry line = none := if_pos h

theorem lineEntry_no_colon (hc : colon ∉ stripCr line) : lineEntry line = none := by
  rw [lineEntry, if_neg hc, ite_self]

theorem lineEntry_colon (hh : line.head? ≠ some hash) (he : stripCr line = k ++ colon :: v)
    (hk : colon ∉ k) : lineEntry line = (keyNamed k).map fun key => (key, v) := by
  rw [lineEntry, if_neg hh, he, if_pos (by simp), splitColon_append hk]

/-- What is left of a line is a prefix of it, short of at most a CR. -/
theorem stripCr_eq (line : List UInt8) : line = stripCr line ∨ line = stripCr line ++ [cr] := by
  unfold stripCr
  split
  · rename_i h
    right
    exact (List.dropLast_append_getLast? cr h).symm
  · exact Or.inl rfl

end Entry

/-! ## The names and values that the parser knows -/

theorem Key.mem_all (k : Key) : k ∈ Key.all := by
  rcases k with _ | _ | o | o | o
  · decide
  · decide
  all_goals cases o <;> decide

/-- No two options have one name. -/
theorem Key.name_inj {k k' : Key} (h : bytes k.name = bytes k'.name) : k = k' := by
  have hnodup : (Key.all.map fun k => bytes k.name).Nodup := by decide +kernel
  exact List.inj_on_of_nodup_map hnodup k.mem_all k'.mem_all h

/-- A search for a name finds the option with the name, whatever the order of the options. -/
theorem find?_name {l : List Key} (hl : ∀ k, k ∈ l) {name : List UInt8} {k : Key} :
    (l.find? fun k => bytes k.name = name) = some k ↔ bytes k.name = name := by
  constructor
  · intro h
    simpa using List.find?_some h
  · rintro rfl
    have hsome : (l.find? fun k' => bytes k'.name = bytes k.name).isSome :=
      List.find?_isSome.mpr ⟨k, hl k, decide_eq_true rfl⟩
    obtain ⟨k', hk'⟩ := Option.isSome_iff_exists.mp hsome
    have hname : bytes k'.name = bytes k.name := by simpa using List.find?_some hk'
    rw [hk', Key.name_inj hname]

theorem keyNamed_eq_some_iff {name : List UInt8} {k : Key} :
    keyNamed name = some k ↔ bytes k.name = name := find?_name Key.mem_all

/-- The chain of comparisons finds the options by their names. -/
theorem keyOf_eq_keyNamed (name : List UInt8) : keyOf name = keyNamed name := by
  have htable : keyTable = (keyTable.map (·.2)).map fun k => (k.name, k) := by decide +kernel
  have hall : ∀ k, k ∈ keyTable.map (·.2) := by
    intro k
    rcases k with _ | _ | o | o | o
    · decide
    · decide
    all_goals cases o <;> decide
  have hkey : keyOf name = (keyTable.map (·.2)).find? fun k => bytes k.name = name := by
    rw [keyOf, htable, List.find?_map, Option.map_map, ← htable]
    exact Option.map_id'
  rw [hkey]
  exact Option.ext fun k => (find?_name hall).trans keyNamed_eq_some_iff.symm

theorem codeOf_cons (name : String) (c : ℤ) (table : List (String × ℤ)) (val : List UInt8) :
    codeOf ((name, c) :: table) val = if val = bytes name then c else codeOf table val := by
  by_cases h : val = bytes name
  · simp [codeOf, h]
  · simp [codeOf, h, Ne.symm h]

theorem codeOf_nil (val : List UInt8) : codeOf [] val = -1 := rfl

theorem getDeviceType_eq_codeOf (val : List UInt8) : getDeviceType val = codeOf devices val := by
  simp only [devices, codeOf_cons, codeOf_nil, getDeviceType]

theorem getPhoneType_eq_codeOf (val : List UInt8) : getPhoneType val = codeOf phones val := by
  simp only [phones, codeOf_cons, codeOf_nil, getPhoneType]

/-! ## The entries determine the options key by key -/

theorem described_append (lib : CNum F) (o : Opts F (List UInt8))
    (es fs : List (Key × List UInt8)) :
    described lib o (es ++ fs) = described lib (described lib o es) fs := by
  simp only [described, lastSet_append, getD_map_or, Option.or_assoc]

/-- One assignment is what a single entry describes. -/
theorem setOpt_eq_described (lib : CNum F) (o : Opts F (List UInt8)) (k : Key) (v : List UInt8) :
    (setOpt lib k v v o).1 = described lib o [(k, v)] := by
  cases k with
  | deviceType => simp [setOpt, described, lastSet_cons, getDeviceType_eq_codeOf]
  | phoneType => simp [setOpt, described, lastSet_cons, getPhoneType_eq_codeOf]
  | str k =>
    simp only [setOpt, described, lastSet_cons, lastSet_nil, Option.none_or, update_eq_ite,
      Key.str.injEq]
    congr 1
    funext j
    split <;> rfl
  | int k =>
    simp only [setOpt, described, lastSet_cons, lastSet_nil, Option.none_or, update_eq_ite,
      Key.int.injEq]
    congr 1
    funext j
    split <;> rfl
  | float k =>
    simp only [setOpt, described, lastSet_cons, lastSet_nil, Option.none_or, update_eq_ite,
      Key.float.injEq]
    congr 1
    funext j
    split <;> rfl

/-- Every key ends with the last value that is assigned to it. -/
theorem applyEntries_eq_described_assigned (lib : CNum F) (o : Opts F (List UInt8))
    (es : List (Key × List UInt8)) : applyEntries lib o es = described lib o (assigned es) := by
  induction es generalizing o with
  | nil => simp [applyEntries, assigned, described]
  | cons e es ih =>
    rw [applyEntries, assigned]
    split
    · rw [setOpt_eq_described]
    · rw [ih, setOpt_eq_described, ← described_append, List.singleton_append]

/-- Without unsupported values everything is assigned. -/
theorem assigned_eq_self {es : List (Key × List UInt8)} (h : ∀ e ∈ es, ¬ Unsupported e) :
    assigned es = es := by
  induction es with
  | nil => rfl
  | cons e es ih =>
    rw [assigned, if_neg (h e (by simp)), ih fun e' he' => h e' (by simp [he'])]

/-- Without unsupported values every key ends with its last value. -/
theorem applyEntries_eq_described (lib : CNum F) (o : Opts F (List UInt8))
    {es : List (Key × List UInt8)} (h : ∀ e ∈ es, ¬ Unsupported e) :
    applyEntries lib o es = described lib o es := by
  rw [applyEntries_eq_described_assigned, assigned_eq_self h]

end MaixSpeech.Config
