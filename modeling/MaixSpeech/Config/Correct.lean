import MaixSpeech.Config.Refine

/-!
# What `parse_opts` guarantees

Reference: `components/utils/src/opts.c`.

On a well-formed configuration the options say what the file says (`parseOpts_correct`). Acceptance
is sound (`parseOpts_sound_iff`) exactly when no unsupported `device_type` comes behind lines that
have set everything the final check asks for, and no unsupported value stands on a line that the
loop does not get to. In the first case the `break` leaves `-1` in `device_type`, and the check looks
at its upper bound only; in the second the lines in front of the missed one pass by themselves.
-/

namespace MaixSpeech.Config

open Common

variable {F : Type*} {lib : CNum F}

/-! ## The whole call -/

/-- The entries `parse_opts` has in front of it when it has read `file` into `content`. -/
def readEntries (content file : List UInt8) : List (Key × List UInt8) :=
  entries (bufferLines (cfgSize file).toNat
    (cfgRead file ++ content.drop (cfgRead file).length))

/-- A file below 2 GiB is read as it is. -/
theorem cfgSize_of_lt {file : List UInt8} (h : file.length < 2 ^ 31) :
    cfgSize file = file.length := by
  have hlow : -((2 ^ 32 : ℕ) : ℤ) ≤ (file.length : ℤ) * 2 := by omega
  have hhigh : (file.length : ℤ) * 2 < ((2 ^ 32 : ℕ) : ℤ) := by omega
  rw [cfgSize, BitVec.toInt_ofNat', Int.bmod_eq_of_le_mul_two hlow hhigh]

theorem cfgRead_of_lt {file : List UInt8} (h : file.length < 2 ^ 31) : cfgRead file = file := by
  rw [cfgRead, cfgSize_of_lt h, if_neg (by omega), Int.toNat_natCast, List.take_length]

theorem loopInv_start (lib : CNum F) (content : List UInt8) (before : UInt8) (file : List UInt8) :
    LoopInv (startParse lib content before file) [] (file ++ content.drop file.length)
      (Opts.cleared lib) where
  content := rfl
  shows := ⟨rfl, rfl, rfl, rfl, fun _ => .none⟩
  pos _ := ⟨rfl, by simp⟩

/-- A file of less than 1000 bytes, by its `size`, goes through the loop. -/
theorem parseOpts_of_lt (lib : CNum F) (content : List UInt8) (before : UInt8) {file : List UInt8}
    (hsize : cfgSize file < 1000) :
    parseOpts lib content before (some file) =
      let size := (cfgSize file).toNat
      let st := parseLoop lib size size (startParse lib content before (cfgRead file))
      ⟨if st.opts.rejected lib then -1 else 0, st.opts, st.content, st.before, st.used,
        some st.opts.deviceType⟩ := by
  have hlt : ¬ cfgSize file ≥ 1000 := Int.not_le.mpr hsize
  simp only [parseOpts, if_neg hlt]

/-- The options after a call say what its entries say. -/
theorem parseOpts_shows (lib : CNum F) (content : List UInt8) (before : UInt8)
    {file : List UInt8} (hsize : cfgSize file < 1000) :
    Shows (parseOpts lib content before (some file)).content
      (parseOpts lib content before (some file)).opts
      (applyEntries lib (Opts.cleared lib) (readEntries content file)) := by
  obtain ⟨-, pre, rest, h⟩ := parseLoop_refines
    (loopInv_start lib content before (cfgRead file)) rfl
    (Nat.le_add_left (cfgSize file).toNat 0)
  rw [parseOpts_of_lt lib content before hsize]
  show Shows (parseLoop lib _ _ _).content (parseLoop lib _ _ _).opts _
  rw [h.content]
  exact h.shows.of_prefix (List.prefix_append _ _)

/-- A text that fits lies in the cleared `content` as it is. -/
theorem readEntries_cleared {text : List UInt8} (hlen : text.length < 1000) (h0 : 0 ∉ text) :
    readEntries (List.replicate 1000 0) text = entries (fileLines text) := by
  have h31 : text.length < 2 ^ 31 := by omega
  have hzero : cstr ((List.replicate 1000 0).drop text.length) = [] := by
    rw [List.drop_replicate]
    cases 1000 - text.length <;> rfl
  obtain ⟨m, hm⟩ := startingBelow_fileLines (l := text) le_rfl []
  rw [List.append_nil] at hm
  rw [readEntries, cfgRead_of_lt h31, cfgSize_of_lt h31, Int.toNat_natCast, bufferLines,
    cstr_append h0, hzero, List.append_nil, hm, startingBelow,
    List.append_nil]

/-! ## Well-formed configurations -/

/-- The texts `parse_opts` is made for: newline-terminated lines, LF or CRLF, of any kind. -/
structure CfgText (text : List UInt8) : Prop where
  short : text.length < 1000
  noNul : 0 ∉ text
  noEmptyFirst : text.head? ≠ some newline
  terminated : text = [] ∨ text.getLast? = some newline
  supported : ∀ e ∈ entries (fileLines text), ¬ Unsupported e

/-- **The parser is correct on well-formed texts.** On the first call the options say, key by key,
what the last line with the key says, and the loop is over. A string handed out after `m` turns is
still there, unaltered, after any `n ≥ m`. -/
theorem parseOpts_correct (lib : CNum F) (before : UInt8) {text : List UInt8} (h : CfgText text) :
    let r := parseOpts lib (List.replicate 1000 0) before (some text)
    let loop := fun n => parseLoop lib text.length n
      (startParse lib (List.replicate 1000 0) before text)
    Shows r.content r.opts (described lib (Opts.cleared lib) (entries (fileLines text))) ∧
      (∀ n, text.length ≤ n → (loop n).content = r.content ∧ (loop n).opts = r.opts) ∧
      ∀ m n k q, m ≤ n → (loop m).opts.str k = some q →
        ∃ s, HoldsStr (loop m).content q s ∧ HoldsStr (loop n).content q s := by
  intro r loop
  have hstart := loopInv_start lib (List.replicate 1000 0) before text
  have h1000 := h.short
  have h31 : text.length < 2 ^ 31 := by omega
  have hsize : cfgSize text < 1000 := by
    rw [cfgSize_of_lt h31]
    omega
  have hr : r.content = (loop text.length).content ∧ r.opts = (loop text.length).opts := by
    simp only [r, parseOpts_of_lt lib _ before hsize, cfgRead_of_lt h31, cfgSize_of_lt h31,
      Int.toNat_natCast]
    exact ⟨rfl, rfl⟩
  refine ⟨?_, fun n hn => ?_, fun m n k q hmn hq => ?_⟩
  · have hshows := parseOpts_shows lib (List.replicate 1000 0) before hsize
    rwa [readEntries_cleared h.short h.noNul, applyEntries_eq_described lib _ h.supported] at hshows
  · -- a turn for every byte is enough for the loop to end
    obtain ⟨hover, -⟩ := parseLoop_refines hstart rfl (Nat.le_add_left text.length 0)
    have hn : loop n = loop text.length := by
      show parseLoop lib _ n _ = _
      rw [← Nat.add_sub_cancel' hn, parseLoop_add, parseLoop_of_stopped hover]
    rw [hn, hr.1, hr.2]
    exact ⟨rfl, rfl⟩
  · obtain ⟨pre, rest, a, hm⟩ := parseLoop_inv m hstart
    obtain ⟨s, hs⟩ : ∃ s, HoldsStr ([] ++ pre) q s := by
      have hk := hm.shows.str k
      rw [show (parseLoop lib text.length m _).opts.str k = some q from hq] at hk
      generalize a.str k = y at hk
      cases hk with
      | some hs => exact ⟨_, hs⟩
    obtain ⟨mid, rest', a', hn⟩ := parseLoop_inv (n - m) hm
    rw [← parseLoop_add, Nat.add_sub_cancel' hmn] at hn
    refine ⟨s, ?_, ?_⟩
    · rw [show (loop m).content = _ from hm.content]
      exact hs.append rest
    · rw [show (loop n).content = _ from hn.content, List.append_assoc]
      exact hs.append _

/-- A text with both kinds of line ends, a comment, blank lines, a line without a colon, an unknown
key and a key set twice. -/
def sampleText : List UInt8 :=
  bytes "# demo\r\nbeam:16.5\nmodel_in_len:2048\r\n\nfoo\ndevice_type:wav\n\r\nkey:1\nfont_path:/a:b\r\n"
    ++ bytes "model_in_len:364\n"

theorem cfgText_sampleText : CfgText sampleText where
  short := by decide
  noNul := by decide
  noEmptyFirst := by decide
  terminated := Or.inr (by decide)
  supported := by decide +kernel

theorem parseOpts_correct_sampleText :
    Shows (parseOpts CNum.decimal (List.replicate 1000 0) 0 (some sampleText)).content
      (parseOpts CNum.decimal (List.replicate 1000 0) 0 (some sampleText)).opts
      (described CNum.decimal (Opts.cleared CNum.decimal) (entries (fileLines sampleText))) :=
  (parseOpts_correct CNum.decimal 0 cfgText_sampleText).1

/-! ## Acceptance -/

/-- The string options that have to be set. -/
def requiredStr : List StrOpt :=
  [.deviceName, .modelName, .sfstName, .symName, .phonesTxt, .wordsTxt, .fontPath]

/-- Everything the final check asks for is set, `device_type` and `phone_type` apart. -/
structure Opts.Complete {S : Type*} (lib : CNum F) (o : Opts F S) : Prop where
  modelInLen : o.int .modelInLen ≠ 0
  str : ∀ k ∈ requiredStr, o.str k ≠ none
  float : ∀ k, lib.isZero (o.float k) = false

/-- The options a program can run with. -/
structure Opts.Sound {S : Type*} (lib : CNum F) (o : Opts F S) : Prop extends o.Complete lib where
  deviceType : o.deviceType = devicePcm ∨ o.deviceType = deviceMic ∨ o.deviceType = deviceWav
  phoneType : o.phoneType ∈ phoneTypes

/-- What the final check lets through. -/
theorem rejected_eq_false_iff {S : Type*} {o : Opts F S} :
    o.rejected lib = false ↔ o.deviceType ≤ deviceWav ∧ 0 ≤ o.phoneType ∧ o.Complete lib := by
  simp only [Opts.rejected, Bool.or_eq_false_iff, decide_eq_false_iff_not, gt_iff_lt,
    Int.not_lt, Option.isNone_eq_false_iff, Option.isSome_iff_ne_none, beq_eq_false_iff_ne]
  constructor
  · rintro ⟨⟨⟨⟨⟨⟨⟨⟨⟨⟨⟨⟨hd, h1⟩, h2⟩, hm⟩, hp⟩, h3⟩, h4⟩, h5⟩, h6⟩, h7⟩, f1⟩, f2⟩, f3⟩
    refine ⟨hd, hp, hm, ?_, ?_⟩
    · simp only [requiredStr, List.forall_mem_cons, List.not_mem_nil, IsEmpty.forall_iff,
        implies_true, and_true]
      exact ⟨h1, h2, h3, h4, h5, h6, h7⟩
    · intro k
      cases k with
      | beam => exact f1
      | bgProb => exact f2
      | scale => exact f3
  · rintro ⟨hd, hp, hm, hs, hf⟩
    simp only [requiredStr, List.forall_mem_cons, List.not_mem_nil, IsEmpty.forall_iff,
        implies_true, and_true] at hs
    obtain ⟨h1, h2, h3, h4, h5, h6, h7⟩ := hs
    exact ⟨⟨⟨⟨⟨⟨⟨⟨⟨⟨⟨⟨hd, h1⟩, h2⟩, hm⟩, hp⟩, h3⟩, h4⟩, h5⟩, h6⟩, h7⟩, hf _⟩, hf _⟩, hf _⟩

theorem Shows.rejected_eq {mem : List UInt8} {o : Opts F ℕ} {a : Opts F (List UInt8)}
    (h : Shows mem o a) : o.rejected lib = a.rejected lib := by
  have hstr : ∀ k, (o.str k).isNone = (a.str k).isNone := by
    intro k
    have hk := h.str k
    generalize o.str k = x, a.str k = y at hk ⊢
    cases hk <;> rfl
  simp only [Opts.rejected, hstr, h.deviceType, h.phoneType, h.int, h.float]

/-- The return value of a call, from the entries it reads. -/
theorem parseOpts_ret_eq_zero_iff {content : List UInt8} {before : UInt8} {file : List UInt8} :
    (parseOpts lib content before (some file)).ret = 0 ↔ cfgSize file < 1000 ∧
      (applyEntries lib (Opts.cleared lib) (readEntries content file)).rejected lib = false := by
  by_cases hlen : 1000 ≤ cfgSize file
  · simp only [parseOpts, if_pos (show cfgSize file ≥ 1000 from hlen), reduceCtorEq, false_iff,
      not_and]
    omega
  · have hsize : cfgSize file < 1000 := by omega
    rw [← (parseOpts_shows lib content before hsize).rejected_eq,
      parseOpts_of_lt lib content before hsize]
    simp only [hsize, true_and]
    split <;> simp_all

/-! ### Supported and unsupported values -/

section Described

variable {es pre post : List (Key × List UInt8)} {e : Key × List UInt8}

/-- Supported values leave both types in their ranges. -/
theorem described_supported (lib : CNum F) (h : ∀ e ∈ es, ¬ Unsupported e) :
    0 ≤ (described lib (Opts.cleared lib) es).deviceType ∧
      (described lib (Opts.cleared lib) es).phoneType ∈ phoneTypes := by
  simp only [described]
  constructor
  · cases hd : lastSet es .deviceType with
    | none => exact Int.le_refl 0
    | some v => exact Int.not_lt.mp (h _ (mem_of_lastSet hd))
  · cases hp : lastSet es .phoneType with
    | none => exact List.mem_of_elem_eq_true rfl
    | some v =>
      have hcode : 0 ≤ codeOf phones v := Int.not_lt.mp (h _ (mem_of_lastSet hp))
      rw [← getPhoneType_eq_codeOf] at hcode
      simpa [getPhoneType_eq_codeOf] using getPhoneType_mem hcode

/-- The first unsupported value is assigned last. -/
theorem applyEntries_append_unsupported (lib : CNum F) (o : Opts F (List UInt8))
    (h : ∀ e ∈ pre, ¬ Unsupported e) (he : Unsupported e) :
    applyEntries lib o (pre ++ e :: post) = (setOpt lib e.1 e.2 e.2 (described lib o pre)).1 := by
  induction pre generalizing o with
  | nil => rw [List.nil_append, applyEntries, if_pos he]; rfl
  | cons d pre ih =>
    have hd : described lib o (d :: pre) = described lib (setOpt lib d.1 d.2 d.2 o).1 pre := by
      rw [setOpt_eq_described, ← described_append, List.singleton_append]
    rw [List.cons_append, applyEntries, if_neg (h d (by simp)), ih _ fun e he => h e (by simp [he]),
      hd]

theorem exists_first_unsupported (h : ∃ e ∈ es, Unsupported e) :
    ∃ pre e post, es = pre ++ e :: post ∧ (∀ e ∈ pre, ¬ Unsupported e) ∧ Unsupported e := by
  obtain ⟨e, he, hun⟩ := h
  cases hf : es.find? (fun e => decide (Unsupported e)) with
  | none => exact absurd (List.find?_eq_none.mp hf e he) (by simpa using hun)
  | some d =>
    obtain ⟨hd, pre, post, hes, hpre⟩ := List.find?_eq_some_iff_append.mp hf
    exact ⟨pre, d, post, hes, fun e he => by simpa using hpre e he, of_decide_eq_true hd⟩

end Described

/-! ### Soundness of acceptance -/

/-- What the lines of a file say, all of them: the last one need not end with a newline, and a line
is a string up to its first NUL. -/
def cfgEntries (file : List UInt8) : List (Key × List UInt8) :=
  (file.splitOn newline).filterMap fun line => lineEntry (cstr line)

/-- The lines in front of the first NUL that end with a newline are among them. -/
theorem entries_subset_cfgEntries (file : List UInt8) :
    entries (fileLines (cstr file)) ⊆ cfgEntries file := by
  have hlines : ∀ l t : List UInt8, fileLines l ⊆ (l ++ t).splitOn newline := by
    intro l t
    induction l using line_induction with
    | rest l hl => rw [fileLines_of_notMem hl]; exact List.nil_subset _
    | line a b ha ih =>
      rw [fileLines_cons ha, List.append_assoc, List.cons_append,
        List.splitOn_append_cons_self_of_not_mem ha]
      exact List.cons_subset_cons _ ih
  have hfile : cstr file ++ file.dropWhile (· ≠ 0) = file := List.takeWhile_append_dropWhile
  intro e he
  obtain ⟨line, hline, hentry⟩ := List.mem_filterMap.mp he
  refine List.mem_filterMap.mpr ⟨line, hfile ▸ hlines _ (file.dropWhile (· ≠ 0)) hline, ?_⟩
  have hnul : 0 ∉ line := fun h0 => nul_notMem_cstr file (mem_of_mem_fileLines hline h0)
  have hcstr : cstr line = line := by
    have happend := cstr_append hnul []
    rwa [cstr_nil, List.append_nil] at happend
  rwa [hcstr]

/-- Acceptance is sound for `file`: what is accepted can be run with, and a file with an unsupported
`device_type` or `phone_type` on one of its lines is not accepted. -/
structure AcceptanceSound (lib : CNum F) (content : List UInt8) (before : UInt8)
    (file : List UInt8) : Prop where
  sound : (parseOpts lib content before (some file)).ret = 0 →
    (parseOpts lib content before (some file)).opts.Sound lib
  rejects : (∃ e ∈ cfgEntries file, Unsupported e) →
    (parseOpts lib content before (some file)).ret ≠ 0

/-- An unsupported `device_type` is the first unsupported value, and the entries in front of it set
everything the final check asks for. -/
def DeviceTypeLate (lib : CNum F) (es : List (Key × List UInt8)) : Prop :=
  ∃ pre val post, es = pre ++ (.deviceType, val) :: post ∧ (∀ e ∈ pre, ¬ Unsupported e) ∧
    codeOf devices val < 0 ∧ (described lib (Opts.cleared lib) pre).Complete lib

/-- A late unsupported `device_type` is accepted, and left in the options as a negative number. -/
theorem accepted_of_deviceTypeLate {es : List (Key × List UInt8)} (h : DeviceTypeLate lib es) :
    (applyEntries lib (Opts.cleared lib) es).rejected lib = false ∧
      (applyEntries lib (Opts.cleared lib) es).deviceType < 0 := by
  obtain ⟨pre, val, post, rfl, hpre, hval, hc⟩ := h
  have hun : Unsupported (Key.deviceType, val) := hval
  rw [applyEntries_append_unsupported lib _ hpre hun, rejected_eq_false_iff]
  have hphone := (described_supported lib hpre).2
  have hpos : ∀ t ∈ phoneTypes, 0 ≤ t := by decide
  have hneg : getDeviceType val < 0 := by rwa [getDeviceType_eq_codeOf]
  refine ⟨⟨?_, hpos _ hphone, ⟨hc.modelInLen, hc.str, hc.float⟩⟩, hneg⟩
  show getDeviceType val ≤ deviceWav
  have hwav : deviceWav = 2 := rfl
  omega

/-- Otherwise the entries are accepted only when all their values are supported. -/
theorem supported_of_accepted {es : List (Key × List UInt8)} (h : ¬ DeviceTypeLate lib es)
    (hacc : (applyEntries lib (Opts.cleared lib) es).rejected lib = false) :
    ∀ e ∈ es, ¬ Unsupported e := by
  by_contra hex
  obtain ⟨pre, e, post, rfl, hpre, he⟩ := exists_first_unsupported (by simpa using hex)
  rw [applyEntries_append_unsupported lib _ hpre he, rejected_eq_false_iff] at hacc
  obtain ⟨-, hphone, hc⟩ := hacc
  obtain ⟨k, val⟩ := e
  cases k with
  | deviceType => exact h ⟨pre, val, post, rfl, hpre, he, hc.modelInLen, hc.str, hc.float⟩
  | phoneType =>
    have hcode : 0 ≤ codeOf phones val := by rwa [← getPhoneType_eq_codeOf]
    exact absurd hcode (Int.not_le.mpr he)
  | str _ => exact he
  | int _ => exact he
  | float _ => exact he

/-- What is read of the file is supported and passes the final check, and one of its lines is not
supported: the loop has not got to it. -/
structure MissedUnsupported (lib : CNum F) (content file : List UInt8) : Prop where
  size : cfgSize file < 1000
  supported : ∀ e ∈ readEntries content file, ¬ Unsupported e
  passes : (described lib (Opts.cleared lib) (readEntries content file)).rejected lib = false
  missed : ∃ e ∈ cfgEntries file, Unsupported e

/-- Below 4 GiB it gets to the lines that end with a newline in front of the first NUL. -/
theorem MissedUnsupported.supported_line {content file : List UInt8}
    (h : MissedUnsupported lib content file) (hlen : file.length < 2 ^ 32) :
    ∀ e ∈ entries (fileLines (cstr file)), ¬ Unsupported e := by
  by_cases h31 : file.length < 2 ^ 31
  · -- all of the file is read
    intro e he
    refine h.supported e ?_
    rw [readEntries, cfgRead_of_lt h31, cfgSize_of_lt h31, Int.toNat_natCast]
    exact List.filterMap_subset _ (fileLines_subset_bufferLines file _) he
  · -- `size` is negative, the loop sees nothing and nothing passes the check
    have hsize : (cfgSize file).toNat = 0 := by
      rw [cfgSize, BitVec.toInt_eq_toNat_cond, BitVec.toNat_ofNat]
      split <;> omega
    have hnone : readEntries content file = [] := by
      rw [readEntries, hsize, bufferLines_zero, entries, List.filterMap_nil]
    have hc := (rejected_eq_false_iff.mp h.passes).2.2.modelInLen
    rw [hnone] at hc
    exact absurd rfl hc

/-- **Acceptance is sound exactly when no unsupported `device_type` is late** and no unsupported value
is missed. -/
theorem parseOpts_sound_iff (lib : CNum F) (content : List UInt8) (before : UInt8)
    (file : List UInt8) :
    AcceptanceSound lib content before file ↔
      ¬ (cfgSize file < 1000 ∧ DeviceTypeLate lib (readEntries content file)) ∧
        ¬ MissedUnsupported lib content file := by
  constructor
  · intro hsound
    constructor
    · rintro ⟨hsize, hlate⟩
      obtain ⟨hacc, hneg⟩ := accepted_of_deviceTypeLate hlate
      have hdev := (hsound.sound (parseOpts_ret_eq_zero_iff.mpr ⟨hsize, hacc⟩)).deviceType
      rw [(parseOpts_shows lib content before hsize).deviceType] at hdev
      simp only [devicePcm, deviceMic, deviceWav] at hdev
      omega
    · intro h
      have hacc := h.passes
      rw [← applyEntries_eq_described lib _ h.supported] at hacc
      exact hsound.rejects h.missed (parseOpts_ret_eq_zero_iff.mpr ⟨h.size, hacc⟩)
  · rintro ⟨hlate, hmissed⟩
    -- an accepted file is short, by its `size`, and what is read of it has supported values only
    have hacc : (parseOpts lib content before (some file)).ret = 0 → cfgSize file < 1000 ∧
        (described lib (Opts.cleared lib) (readEntries content file)).rejected lib = false ∧
        ∀ e ∈ readEntries content file, ¬ Unsupported e := by
      intro hret
      obtain ⟨hsize, hrej⟩ := parseOpts_ret_eq_zero_iff.mp hret
      have hsup := supported_of_accepted (fun hl => hlate ⟨hsize, hl⟩) hrej
      rw [applyEntries_eq_described lib _ hsup] at hrej
      exact ⟨hsize, hrej, hsup⟩
    constructor
    · intro hret
      obtain ⟨hsize, hrej, hsup⟩ := hacc hret
      have hshows := parseOpts_shows lib content before hsize
      rw [applyEntries_eq_described lib _ hsup] at hshows
      have hrange := described_supported lib hsup
      obtain ⟨hdev, -, -⟩ := rejected_eq_false_iff.mp hrej
      obtain ⟨-, -, hc⟩ := rejected_eq_false_iff.mp (hshows.rejected_eq.trans hrej)
      refine ⟨hc, ?_, ?_⟩
      · rw [hshows.deviceType]
        simp only [devicePcm, deviceMic, deviceWav] at hdev ⊢
        omega
      · rw [hshows.phoneType]
        exact hrange.2
    · intro hbad hret
      obtain ⟨hsize, hrej, hsup⟩ := hacc hret
      exact hmissed ⟨hsize, hsup, hrej, hbad⟩

/-- Everything is set, and then the last line asks for an unknown device. -/
def lateDeviceText : List UInt8 :=
  bytes "device_name:a\nmodel_name:b\nmodel_in_len:364\nsfst_name:c\nsym_name:d\nphones_txt:e\n" ++
  bytes "words_txt:f\nfont_path:g\nbeam:16\nbg_prob:10\nscale:0.5\ndevice_type:usb\n"

theorem parseOpts_accepts_lateDeviceText :
    ¬ AcceptanceSound CNum.decimal (List.replicate 1000 0) 0 lateDeviceText := by
  intro h
  have hret : (parseOpts CNum.decimal (List.replicate 1000 0) 0 (some lateDeviceText)).ret = 0 := by
    decide +kernel
  have hbad : ∃ e ∈ cfgEntries lateDeviceText, Unsupported e := by
    decide +kernel
  exact h.rejects hbad hret

/-- Everything is set, and then a last line without a newline asks for an unknown kind of model. -/
def lastLineText : List UInt8 :=
  bytes "device_name:a\nmodel_name:b\nmodel_in_len:364\nsfst_name:c\nsym_name:d\nphones_txt:e\n" ++
  bytes "words_txt:f\nfont_path:g\nbeam:16\nbg_prob:10\nscale:0.5\nphone_type:xyz"

theorem parseOpts_accepts_lastLineText :
    ¬ AcceptanceSound CNum.decimal (List.replicate 1000 0) 0 lastLineText := by
  intro h
  have hret : (parseOpts CNum.decimal (List.replicate 1000 0) 0 (some lastLineText)).ret = 0 := by
    decide +kernel
  have hbad : ∃ e ∈ cfgEntries lastLineText, Unsupported e := by
    decide +kernel
  exact h.rejects hbad hret

end MaixSpeech.Config
