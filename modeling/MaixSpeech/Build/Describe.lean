import MaixSpeech.Build.Info

/-!
# Reading `git describe`

Reference: `tools/kconfig/update_build_info.py`.

`git describe --long` prints the tag, the number of commits since then and the abbreviated hash, with
dashes between them, and `-dirty` behind. `append_time_info` tells these apart by the number of
pieces, and puts the number of commits behind the tag as one more component. So the tag must have no
dash, or the pieces are shifted, and a version must have three numbers, or the commits take the
place of the missing ones: `readsDescribe_iff` gives the exact condition.
-/

namespace MaixSpeech.Build

open Common

/-! ## The output of `git describe` -/

/-- The mark of a changed work tree. -/
def dirtySuffix (dirty : Bool) : Text := if dirty then '-' :: "dirty".toList else []

/-- What is printed `n` commits behind a tag. -/
def describeTag (tag : Text) (n : ℕ) (hash : Text) (dirty : Bool) : Text :=
  tag ++ ('-' :: (Nat.toDigits 10 n ++ '-' :: 'g' :: (hash ++ dirtySuffix dirty)) ++ ['\n'])

/-- What is printed when there is no tag. -/
def describeHash (hash : Text) (dirty : Bool) : Text := hash ++ dirtySuffix dirty ++ ['\n']

/-- An abbreviated hash. -/
def IsHash (hash : Text) : Prop :=
  hash ≠ [] ∧ ∀ c ∈ hash, c.isDigit = true ∨ 97 ≤ c.toNat ∧ c.toNat ≤ 102

/-- A `v` with one to three decimal numbers behind it. -/
structure VersionTag (tag : Text) (nums : List Text) : Prop where
  text : tag = 'v' :: ['.'].intercalate nums ∨ tag = 'V' :: ['.'].intercalate nums
  length : 1 ≤ nums.length ∧ nums.length ≤ 3
  decimal : ∀ s ∈ nums, s ≠ [] ∧ ∀ c ∈ s, c.isDigit = true

/-! ## What is written -/

/-- The values that `git_define` is formatted from. -/
structure GitInfo where
  versionMajor : ℤ
  versionMinor : ℤ
  versionMicro : ℤ
  versionDev : ℤ
  gitHash : Text
  dirty : Bool
deriving DecidableEq

/-- The values that are read off the output of `git describe`. -/
def gitInfo (describe : Option Text) : GitInfo :=
  let gitTag := gitTagOf (pySplit ['-'] ((describe.map pyStrip).getD []))
  let version := versionOf gitTag.gitTagName
  { versionMajor := version.getD 0 0
    versionMinor := version.getD 1 0
    versionMicro := version.getD 2 0
    versionDev := version.getD 3 0
    gitHash := gitTag.gitHash
    dirty := decide (gitTag.gitDirty = "dirty".toList) }

/-- `git_define` is these values in the format of the file. -/
theorem gitDefine_eq (ft : FileType) (describe : Option Text) :
    gitDefine ft describe = pyFormat (appendFormatGitStr ft (gitInfo describe).dirty)
      [pyStrInt (gitInfo describe).versionMajor, pyStrInt (gitInfo describe).versionMinor,
        pyStrInt (gitInfo describe).versionMicro, pyStrInt (gitInfo describe).versionDev,
        (gitInfo describe).gitHash, dirtyValue ft (gitInfo describe).dirty] := rfl

/-- Number `i` of a version, 0 if it is missing. -/
def versionNumber (nums : List Text) (i : ℕ) : ℤ :=
  (nums.map fun s => (Nat.ofDigitChars 10 s 0 : ℤ)).getD i 0

/-- The values are those of the tag, the commits, the hash and the state of the work tree. -/
structure ReadsTag (tag : Text) (n : ℕ) (hash : Text) (dirty : Bool) (info : GitInfo) : Prop where
  gitHash : info.gitHash = 'g' :: hash
  dirty : info.dirty = dirty
  version : ∀ nums, VersionTag tag nums →
    info.versionMajor = versionNumber nums 0 ∧ info.versionMinor = versionNumber nums 1 ∧
      info.versionMicro = versionNumber nums 2 ∧ info.versionDev = n

/-- The output of `git describe` is read back, with this tag and without a tag. -/
def ReadsDescribe (tag : Text) (n : ℕ) (hash : Text) (dirty : Bool) : Prop :=
  ReadsTag tag n hash dirty (gitInfo (some (describeTag tag n hash dirty))) ∧
    gitInfo (some (describeHash hash dirty)) = ⟨0, 0, 0, 0, hash, dirty⟩

/-- A tag that can be read back: without a dash and, if it is a version, with all three numbers or at
the tagged commit; or with the hash and the mark in the places where they are looked for. -/
def Readable (tag : Text) (n : ℕ) (hash : Text) (dirty : Bool) : Prop :=
  ('-' ∉ tag ∧ ∀ nums, VersionTag tag nums → nums.length = 3 ∨ n = 0) ∨
    ((tag.splitOn '-')[2]? = some ('g' :: hash) ∧
      ((tag.splitOn '-')[3]? = some "dirty".toList ↔ dirty = true))

/-! ## The pieces -/

section Pieces

variable {tag hash : Text} {n : ℕ} {dirty : Bool}

theorem isDigit_of_mem_toDigits {c : Char} (h : c ∈ Nat.toDigits 10 n) : c.isDigit = true :=
  Nat.isDigit_of_mem_toDigits (by decide) (by decide) h

theorem notMem_toDigits {c : Char} (hc : c.isDigit = false) : c ∉ Nat.toDigits 10 n := fun h =>
  absurd (hc.symm.trans (isDigit_of_mem_toDigits h)) Bool.false_ne_true

/-- The commits are not taken for a piece that begins with a letter. -/
theorem toDigits_ne_cons {c : Char} (hc : c.isDigit = false) (s : Text) :
    Nat.toDigits 10 n ≠ c :: s := fun h => notMem_toDigits hc (h ▸ List.mem_cons_self)

theorem isPySpace_of_mem_hash (hhash : IsHash hash) {c : Char} (h : c ∈ hash) :
    isPySpace c = false := by
  rcases hhash.2 c h with hdigit | ⟨h₁, h₂⟩
  · exact isPySpace_of_isDigit hdigit
  · simp only [isPySpace, Bool.or_eq_false_iff, Bool.and_eq_false_iff, decide_eq_false_iff_not]
    omega

theorem dash_notMem_hash (hhash : IsHash hash) : '-' ∉ hash := by
  intro h
  rcases hhash.2 _ h with hdigit | ⟨h₁, -⟩
  · exact absurd hdigit (by decide)
  · exact absurd h₁ (by decide)

theorem isPySpace_of_mem_dirtySuffix {c : Char} (h : c ∈ dirtySuffix dirty) :
    isPySpace c = false := by
  have hall : ("-dirty".toList.all fun c => isPySpace c = false) = true := by decide
  cases dirty with
  | false => exact absurd h List.not_mem_nil
  | true => simpa using List.all_eq_true.mp hall c h

theorem isPySpace_newline : ∀ c ∈ ['\n'], isPySpace c = true := by
  simp [isPySpace]

/-- The mark is one piece more. -/
theorem splitOn_append_dirtySuffix {s : Text} (hs : '-' ∉ s) (dirty : Bool) :
    (s ++ dirtySuffix dirty).splitOn '-' = s :: if dirty then ["dirty".toList] else [] := by
  cases dirty with
  | false =>
    rw [dirtySuffix, if_neg (by decide), List.append_nil]
    exact List.splitOn_eq_singleton hs
  | true =>
    rw [dirtySuffix, if_pos rfl, List.splitOn_append_cons_self_of_not_mem hs,
      List.splitOn_eq_singleton (by decide)]
    rfl

/-- Spaces in front of a text are in its first piece. -/
theorem splitOn_dropWhile {a : Text} {ps : List Text} (h : tag.splitOn '-' = a :: ps) :
    (tag.dropWhile isPySpace).splitOn '-' = a.dropWhile isPySpace :: ps := by
  induction tag generalizing a with
  | nil =>
    obtain ⟨rfl, rfl⟩ := List.cons.inj h
    rfl
  | cons c tag ih =>
    by_cases hc : isPySpace c = true
    · have hdash : c ≠ '-' := by
        rintro rfl
        exact absurd hc (by decide)
      rw [List.splitOn_cons_eq_if_modifyHead, if_neg (by simpa using hdash)] at h
      obtain ⟨b, qs, hbs⟩ := List.exists_cons_of_ne_nil (List.splitOn_ne_nil '-' tag)
      rw [hbs, List.modifyHead_cons] at h
      obtain ⟨rfl, rfl⟩ := List.cons.inj h
      rw [List.dropWhile_cons_of_pos hc, List.dropWhile_cons_of_pos hc, ih hbs]
    · have ha : a.dropWhile isPySpace = a := by
        rw [List.splitOn_cons_eq_if_modifyHead] at h
        split at h
        · obtain ⟨rfl, -⟩ := List.cons.inj h
          rfl
        · obtain ⟨b, qs, hbs⟩ := List.exists_cons_of_ne_nil (List.splitOn_ne_nil '-' tag)
          rw [hbs, List.modifyHead_cons] at h
          obtain ⟨rfl, -⟩ := List.cons.inj h
          exact List.dropWhile_cons_of_neg hc
      rw [List.dropWhile_cons_of_neg hc, h, ha]

/-- The pieces of the output: those of the tag, the commits, the hash and the mark. -/
theorem pieces_describeTag (hhash : IsHash hash) {a : Text} {ps : List Text}
    (htag : tag.splitOn '-' = a :: ps) (n : Nat) (dirty : Bool) :
    pySplit ['-'] (pyStrip (describeTag tag n hash dirty)) = a.dropWhile isPySpace ::
      (ps ++ [Nat.toDigits 10 n, 'g' :: hash] ++ if dirty then ["dirty".toList] else []) := by
  have hns : ∀ c ∈ '-' :: (Nat.toDigits 10 n ++ '-' :: 'g' :: (hash ++ dirtySuffix dirty)),
      isPySpace c = false := by
    intro c hc
    simp only [List.mem_cons, List.mem_append] at hc
    rcases hc with rfl | hc | rfl | rfl | hc | hc
    · decide
    · exact isPySpace_of_isDigit (isDigit_of_mem_toDigits hc)
    · decide
    · decide
    · exact isPySpace_of_mem_hash hhash hc
    · exact isPySpace_of_mem_dirtySuffix hc
  have hg : '-' ∉ 'g' :: hash := by
    rw [List.mem_cons, not_or]
    exact ⟨by decide, dash_notMem_hash hhash⟩
  have hmark := splitOn_append_dirtySuffix hg dirty
  rw [List.cons_append] at hmark
  rw [describeTag, pyStrip_append (List.cons_ne_nil _ _) hns isPySpace_newline, pySplit_singleton,
    List.splitOn_append_cons_self, splitOn_dropWhile htag,
    List.splitOn_append_cons_self_of_not_mem (notMem_toDigits rfl), hmark]
  simp

/-- Without a tag the pieces are the hash and the mark. -/
theorem gitInfo_describeHash (hhash : IsHash hash) (dirty : Bool) :
    gitInfo (some (describeHash hash dirty)) = ⟨0, 0, 0, 0, hash, dirty⟩ := by
  have hns : ∀ c ∈ hash ++ dirtySuffix dirty, isPySpace c = false := by
    intro c hc
    rcases List.mem_append.mp hc with hc | hc
    · exact isPySpace_of_mem_hash hhash hc
    · exact isPySpace_of_mem_dirtySuffix hc
  have hstrip : pyStrip (describeHash hash dirty) = hash ++ dirtySuffix dirty :=
    pyStrip_append (List.append_ne_nil_of_left_ne_nil hhash.1 _) hns isPySpace_newline []
  have hpieces := splitOn_append_dirtySuffix (dash_notMem_hash hhash) dirty
  simp only [gitInfo, Option.map_some, Option.getD_some, hstrip, pySplit_singleton, hpieces]
  cases dirty <;> rfl

end Pieces

/-! ## Tags without a dash -/

section Tag

variable {tag hash : Text} {n : ℕ} {dirty : Bool} {nums : List Text}

theorem VersionTag.dash_notMem (h : VersionTag tag nums) : '-' ∉ tag := by
  have hnums : '-' ∉ ['.'].intercalate nums := by
    intro hmem
    rcases mem_intercalate hmem with hdot | ⟨s, hs, hc⟩
    · exact absurd hdot (by decide)
    · exact absurd ((h.decimal s hs).2 _ hc) (by decide)
  rcases h.text with rfl | rfl
  · rw [List.mem_cons, not_or]
    exact ⟨by decide, hnums⟩
  · rw [List.mem_cons, not_or]
    exact ⟨by decide, hnums⟩

/-- The numbers of a version, with the commits put behind them. -/
theorem versionOf_describe (h : VersionTag tag nums) (n : ℕ) :
    versionOf (tag ++ ".".toList ++ Nat.toDigits 10 n) =
      (nums.map fun s => (Nat.ofDigitChars 10 s 0 : ℤ)) ++ [(n : ℤ)] := by
  have hne : nums ≠ [] := List.length_pos_iff.mp h.length.1
  have hdot : ∀ s ∈ nums, '.' ∉ s := fun s hs hmem =>
    absurd ((h.decimal s hs).2 _ hmem) (by decide)
  have hdot' : '.' ∉ Nat.toDigits 10 n := notMem_toDigits rfl
  have hsplit : pySplit ['.'] (['.'].intercalate nums ++ ".".toList ++ Nat.toDigits 10 n) =
      nums ++ [Nat.toDigits 10 n] := by
    have hjoin : ['.'].intercalate nums ++ ".".toList ++ Nat.toDigits 10 n =
        ['.'].intercalate nums ++ '.' :: Nat.toDigits 10 n := by
      rw [List.append_assoc]
      rfl
    rw [pySplit_singleton, hjoin, List.splitOn_append_cons_self, List.splitOn_intercalate _ hdot hne,
      List.splitOn_eq_singleton hdot']
  have hint : ∀ s ∈ nums, (pyInt s).getD 0 = (Nat.ofDigitChars 10 s 0 : ℤ) := fun s hs => by
    rw [pyInt_of_isDigit (h.decimal s hs).1 (h.decimal s hs).2, Option.getD_some]
  have hcommits : (pyInt (Nat.toDigits 10 n)).getD 0 = (n : ℤ) := by
    rw [pyInt_of_isDigit Nat.toDigits_ne_nil fun c hc => isDigit_of_mem_toDigits hc,
      Option.getD_some, Nat.ofDigitChars_ten_toDigits]
  have hmap : (nums ++ [Nat.toDigits 10 n]).map (fun v => (pyInt v).getD 0) =
      (nums.map fun s => (Nat.ofDigitChars 10 s 0 : ℤ)) ++ [(n : ℤ)] := by
    rw [List.map_append, List.map_congr_left hint, List.map_singleton, hcommits]
  rcases h.text with rfl | rfl
  · rw [List.cons_append, List.cons_append, versionOf, hsplit, hmap]
  · rw [List.cons_append, List.cons_append, versionOf, hsplit, hmap]

/-- The commits take their own place only behind three numbers; where they do not, they must be 0. -/
theorem version_iff (h : VersionTag tag nums) (n : ℕ) {version : List ℤ}
    (hversion : version = (nums.map fun s => (Nat.ofDigitChars 10 s 0 : ℤ)) ++ [(n : ℤ)]) :
    (version.getD 0 0 = versionNumber nums 0 ∧ version.getD 1 0 = versionNumber nums 1 ∧
      version.getD 2 0 = versionNumber nums 2 ∧ version.getD 3 0 = n) ↔ nums.length = 3 ∨ n = 0 := by
  obtain ⟨hpos, hle⟩ := h.length
  subst hversion
  unfold versionNumber
  match nums, hpos, hle with
  | [a], _, _ => simp [eq_comm]
  | [a, b], _, _ => simp [eq_comm]
  | [a, b, c], _, _ => simp

/-- A tag without a dash is one piece. -/
theorem gitTagOf_describeTag (hhash : IsHash hash) (htag : '-' ∉ tag) (n : Nat) (dirty : Bool) :
    gitTagOf (pySplit ['-'] (pyStrip (describeTag tag n hash dirty))) =
      ⟨tag.dropWhile isPySpace ++ ".".toList ++ Nat.toDigits 10 n, 'g' :: hash,
        if dirty then "dirty".toList else []⟩ := by
  have hne : 'g' :: hash ≠ "dirty".toList := fun h => absurd (List.cons.inj h).1 (by decide)
  rw [pieces_describeTag hhash (List.splitOn_eq_singleton htag)]
  cases dirty with
  | false =>
    simp only [List.nil_append, Bool.false_eq_true, if_false, List.append_nil, gitTagOf, if_neg hne]
  | true => rfl

theorem readsTag_iff_of_notMem (hhash : IsHash hash) (htag : '-' ∉ tag) :
    ReadsTag tag n hash dirty (gitInfo (some (describeTag tag n hash dirty))) ↔
      ∀ nums, VersionTag tag nums → nums.length = 3 ∨ n = 0 := by
  have hgit := gitTagOf_describeTag hhash htag n dirty
  have hdirty : decide ((if dirty then "dirty".toList else []) = "dirty".toList) = dirty := by
    cases dirty <;> decide
  have hversion : ∀ nums, VersionTag tag nums →
      versionOf (tag.dropWhile isPySpace ++ ".".toList ++ Nat.toDigits 10 n) =
        (nums.map fun s => (Nat.ofDigitChars 10 s 0 : ℤ)) ++ [(n : ℤ)] := by
    intro nums hnums
    have hspace : tag.dropWhile isPySpace = tag := by
      rcases hnums.text with rfl | rfl
      · exact List.dropWhile_cons_of_neg (by decide)
      · exact List.dropWhile_cons_of_neg (by decide)
    rw [hspace]
    exact versionOf_describe hnums n
  have hinfo : gitInfo (some (describeTag tag n hash dirty)) =
      let version := versionOf (tag.dropWhile isPySpace ++ ".".toList ++ Nat.toDigits 10 n)
      ⟨version.getD 0 0, version.getD 1 0, version.getD 2 0, version.getD 3 0, 'g' :: hash, dirty⟩ := by
    simp only [gitInfo, Option.map_some, Option.getD_some, hgit, hdirty]
  rw [hinfo]
  constructor
  · intro h nums hnums
    exact (version_iff hnums n (hversion nums hnums)).mp (h.version nums hnums)
  · intro h
    exact ⟨rfl, rfl, fun nums hnums => (version_iff hnums n (hversion nums hnums)).mpr (h nums hnums)⟩

/-! ## Tags with dashes -/

theorem exists_pieces_of_mem (htag : '-' ∈ tag) :
    ∃ a b more, tag.splitOn '-' = a :: b :: more := by
  obtain ⟨s, t, rfl, hs⟩ := List.eq_append_cons_of_mem htag
  obtain ⟨b, more, ht⟩ := List.exists_cons_of_ne_nil (List.splitOn_ne_nil '-' t)
  exact ⟨s, b, more, by rw [List.splitOn_append_cons_self_of_not_mem hs, ht]⟩

/-- The third and the fourth piece are read, whatever stands there. -/
theorem readsTag_iff_of_pieces (htag : '-' ∈ tag) {a b c d : Text} {rest : List Text}
    (hpieces : pySplit ['-'] (pyStrip (describeTag tag n hash dirty)) = a :: b :: c :: d :: rest) :
    ReadsTag tag n hash dirty (gitInfo (some (describeTag tag n hash dirty))) ↔
      c = 'g' :: hash ∧ (d = "dirty".toList ↔ dirty = true) := by
  have hgit : gitTagOf (pySplit ['-'] (pyStrip (describeTag tag n hash dirty))) =
      ⟨a ++ ".".toList ++ b, c, d⟩ := by
    rw [hpieces]
    rfl
  have hhash : (gitInfo (some (describeTag tag n hash dirty))).gitHash = c := by
    simp only [gitInfo, Option.map_some, Option.getD_some, hgit]
  have hdirty : (gitInfo (some (describeTag tag n hash dirty))).dirty =
      decide (d = "dirty".toList) := by
    simp only [gitInfo, Option.map_some, Option.getD_some, hgit]
  constructor
  · intro h
    refine ⟨hhash.symm.trans h.gitHash, ?_⟩
    rw [← h.dirty, hdirty, decide_eq_true_iff]
  · rintro ⟨hc, hd⟩
    refine ⟨hhash.trans hc, ?_, fun nums hnums => absurd htag hnums.dash_notMem⟩
    rw [hdirty, Bool.eq_iff_iff, decide_eq_true_iff]
    exact hd

/-- With a dash in the tag its third piece is taken for the hash, and its fourth for the mark; what
is missing there is the commits and the hash. -/
theorem readsTag_iff_of_mem (hhash : IsHash hash) (htag : '-' ∈ tag) :
    ReadsTag tag n hash dirty (gitInfo (some (describeTag tag n hash dirty))) ↔
      (tag.splitOn '-')[2]? = some ('g' :: hash) ∧
        ((tag.splitOn '-')[3]? = some "dirty".toList ↔ dirty = true) := by
  obtain ⟨a, b, more, hsplit⟩ := exists_pieces_of_mem htag
  have hpieces := pieces_describeTag hhash hsplit n dirty
  have hcommits : Nat.toDigits 10 n ≠ 'g' :: hash := toDigits_ne_cons rfl hash
  have hmark : Nat.toDigits 10 n ≠ "dirty".toList := toDigits_ne_cons rfl _
  rw [hsplit]
  match more, hpieces with
  | [], hpieces =>
    rw [readsTag_iff_of_pieces htag hpieces]
    exact ⟨fun h => absurd h.1 hcommits, fun h => absurd h.1 (by simp)⟩
  | [c], hpieces =>
    rw [readsTag_iff_of_pieces htag hpieces, eq_false hmark]
    simp
  | c :: d :: more, hpieces =>
    rw [readsTag_iff_of_pieces htag hpieces]
    simp

/-- **What `git describe` prints is read back exactly for these tags.** For every tag, number of
commits, hash and state of the work tree, the commit, the state and the version that are written are
those that were printed, with the tag and without a tag, if and only if the tag has no dash and,
being a version, has three numbers or is at the commit, or has hash and mark where they are looked
for. -/
theorem readsDescribe_iff (tag : Text) (n : ℕ) (hash : Text) (dirty : Bool) (hhash : IsHash hash) :
    ReadsDescribe tag n hash dirty ↔ Readable tag n hash dirty := by
  have huntagged := gitInfo_describeHash hhash dirty
  unfold ReadsDescribe Readable
  rw [and_iff_left huntagged]
  by_cases htag : '-' ∈ tag
  · rw [readsTag_iff_of_mem hhash htag]
    exact ⟨Or.inr, fun h => h.resolve_left fun hleft => hleft.1 htag⟩
  · have hthird : (tag.splitOn '-')[2]? = none := by
      rw [List.splitOn_eq_singleton htag]
      rfl
    rw [readsTag_iff_of_notMem hhash htag, hthird]
    constructor
    · intro h
      exact .inl ⟨htag, h⟩
    · rintro (h | h)
      · exact h.2
      · cases h.1

theorem isHash_abc : IsHash "abc1234".toList := by
  have hall : ("abc1234".toList.all fun c =>
      c.isDigit || (97 ≤ c.toNat && c.toNat ≤ 102)) = true := by decide
  refine ⟨by decide, fun c hc => ?_⟩
  simpa using List.all_eq_true.mp hall c hc

theorem readsDescribe_iff_v123 :
    ReadsDescribe "v1.2.3".toList 4 "abc1234".toList true ↔
      Readable "v1.2.3".toList 4 "abc1234".toList true :=
  readsDescribe_iff _ _ _ _ isHash_abc

/-- With the tag `v1.0-rc1` the commits are taken for the hash, and with `v1.2` for the third
number. -/
theorem not_readsDescribe_rc :
    ¬ ReadsDescribe "v1.0-rc1".toList 3 "abc1234".toList false ∧
      ¬ ReadsDescribe "v1.2".toList 5 "abc1234".toList false := by
  constructor
  · intro h
    have hhash := h.1.gitHash
    revert hhash
    decide +kernel
  · intro h
    have hnums : VersionTag "v1.2".toList ["1".toList, "2".toList] :=
      ⟨.inl (by decide +kernel), by decide, by simp⟩
    have hmicro := (h.1.version _ hnums).2.2.1
    revert hmicro
    decide +kernel

end Tag

end MaixSpeech.Build
