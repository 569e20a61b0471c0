import MaixSpeech.Common.Marker

/-!
# The info that `update_build_info.py` generates

Reference: `tools/kconfig/update_build_info.py`.

The formats of the three file types, the version that the output of `git describe` is taken apart
into, and the texts `append_time_info` makes of a clock and a git state.
-/

namespace MaixSpeech.Build

open Common

/-! ## Formats -/

/-- The keys of `INFO_FORMAT_STR`. -/
inductive FileType where
  | header | cmake | makefile
deriving DecidableEq, Repr

/-- `str_define_start_header`, `_cmake` and `_makefile`. -/
def strDefineStart : FileType → Text
  | .header => "\n//compile append define start\n".toList
  | .cmake => "\n# compile append define start\n".toList
  | .makefile => "\n# compile append define start\n".toList

/-- `str_define_end_header`, `_cmake` and `_makefile`. -/
def strDefineEnd : FileType → Text
  | .header => "\n//compile append define end\n".toList
  | .cmake => "\n# compile append define end\n".toList
  | .makefile => "\n# compile append define end\n".toList

/-- `time_str_header`, `_cmake` and `_makefile`. -/
def timeStr : FileType → Text
  | .header => textLines ["",
      "#define BUILD_TIME_YEAR   {}",
      "#define BUILD_TIME_MONTH  {}",
      "#define BUILD_TIME_DAY    {}",
      "#define BUILD_TIME_HOUR   {}",
      "#define BUILD_TIME_MINUTE {}",
      "#define BUILD_TIME_SECOND {}",
      "#define BUILD_TIME_WEEK_OF_DAY {}",
      "#define BUILD_TIME_YEAR_OF_DAY {}"]
  | .cmake => textLines ["",
      "set(BUILD_TIME_YEAR   \"{}\")",
      "set(BUILD_TIME_MONTH  \"{}\")",
      "set(BUILD_TIME_DAY    \"{}\")",
      "set(BUILD_TIME_HOUR   \"{}\")",
      "set(BUILD_TIME_MINUTE \"{}\")",
      "set(BUILD_TIME_SECOND \"{}\")",
      "set(BUILD_TIME_WEEK_OF_DAY \"{}\")",
      "set(BUILD_TIME_YEAR_OF_DAY \"{}\")"]
  | .makefile => textLines ["",
      "BUILD_TIME_YEAR   ={}",
      "BUILD_TIME_MONTH  ={}",
      "BUILD_TIME_DAY    ={}",
      "BUILD_TIME_HOUR   ={}",
      "BUILD_TIME_MINUTE ={}",
      "BUILD_TIME_SECOND ={}",
      "BUILD_TIME_WEEK_OF_DAY ={}",
      "BUILD_TIME_YEAR_OF_DAY ={}"]

/-- `git_str_header`, `_cmake` and `_makefile`. -/
def gitStr : FileType → Text
  | .header => textLines ["",
      "#define BUILD_VERSION_MAJOR   {}",
      "#define BUILD_VERSION_MINOR   {}",
      "#define BUILD_VERSION_MICRO   {}",
      "#define BUILD_VERSION_DEV     {}",
      "#define BUILD_GIT_COMMIT_ID   \"{}\"",
      "#define BUILD_GIT_IS_DIRTY    {}"]
  | .cmake => textLines ["",
      "set(BUILD_VERSION_MAJOR   \"{}\")",
      "set(BUILD_VERSION_MINOR   \"{}\")",
      "set(BUILD_VERSION_MICRO   \"{}\")",
      "set(BUILD_VERSION_DEV     \"{}\")",
      "set(BUILD_GIT_COMMIT_ID   \"{}\")",
      "set(BUILD_GIT_IS_DIRTY    \"{}\")"]
  | .makefile => textLines ["",
      "BUILD_VERSION_MAJOR  ={}",
      "BUILD_VERSION_MINOR  ={}",
      "BUILD_VERSION_MICRO  ={}",
      "BUILD_VERSION_DEV    ={}",
      "BUILD_GIT_COMMIT_ID  ={}",
      "BUILD_GIT_IS_DIRTY   ={}"]

/-! ## The clock -/

/-- The fields of `time.localtime(time.time())` that are used. -/
structure Clock where
  tmYear : ℤ
  tmMon : ℤ
  tmMday : ℤ
  tmHour : ℤ
  tmMin : ℤ
  tmSec : ℤ
  tmWday : ℤ
  tmYday : ℤ

/-- `time_define`. -/
def timeDefine (ft : FileType) (now : Clock) : Text :=
  pyFormat (timeStr ft) <| [now.tmYear, now.tmMon, now.tmMday, now.tmHour, now.tmMin, now.tmSec,
    now.tmWday, now.tmYday].map pyStrInt

/-! ## The git state -/

/-- What the output of `git describe` says. -/
structure GitTag where
  gitTagName : Text
  gitHash : Text
  gitDirty : Text
deriving DecidableEq

/-- The pieces of the description between its dashes. -/
def gitTagOf : List Text → GitTag
  | [] => ⟨[], [], []⟩
  | [hash] => ⟨[], hash, []⟩
  | [a, b] => if b = "dirty".toList then ⟨[], a, b⟩ else ⟨a, b, []⟩
  | [a, b, c] =>
    if c = "dirty".toList then ⟨a, b, c⟩ else ⟨a ++ ".".toList ++ b, c, []⟩
  | a :: b :: c :: d :: _ => ⟨a ++ ".".toList ++ b, c, d⟩

/-- The numbers of a tag that begins with a `v`: a piece that is no number is 0. -/
def versionOf (gitTagName : Text) : List ℤ :=
  match gitTagName with
  | 'v' :: name => (pySplit ['.'] name).map fun v => (pyInt v).getD 0
  | 'V' :: name => (pySplit ['.'] name).map fun v => (pyInt v).getD 0
  | _ => []

/-- `dirty_value`. -/
def dirtyValue (ft : FileType) (dirty : Bool) : Text :=
  match ft with
  | .header => pyStrInt (if dirty then 1 else 0)
  | .cmake => if dirty then "y".toList else []
  | .makefile => if dirty then "y".toList else " is not set".toList

/-- `append_format_git_str`: in a makefile a clean state is a comment. -/
def appendFormatGitStr (ft : FileType) (dirty : Bool) : Text :=
  match ft with
  | .makefile =>
    if dirty then gitStr .makefile
    else pyReplace "BUILD_GIT_IS_DIRTY".toList "# BUILD_GIT_IS_DIRTY".toList (gitStr .makefile)
  | ft => gitStr ft

/-- `git_define`, for the output of `git describe`, or `none` when the command fails. -/
def gitDefine (ft : FileType) (describe : Option Text) : Text :=
  let gitTag := gitTagOf (pySplit ['-'] ((describe.map pyStrip).getD []))
  let version := versionOf gitTag.gitTagName
  let dirty := decide (gitTag.gitDirty = "dirty".toList)
  pyFormat (appendFormatGitStr ft dirty)
    [pyStrInt (version.getD 0 0), pyStrInt (version.getD 1 0), pyStrInt (version.getD 2 0),
      pyStrInt (version.getD 3 0), gitTag.gitHash, dirtyValue ft dirty]

example : gitTagOf (pySplit ['-'] "v0.3.2-39-gbeae86483-dirty".toList) =
      ⟨"v0.3.2.39".toList, "gbeae86483".toList, "dirty".toList⟩ ∧
    versionOf "v0.3.2.39".toList = [0, 3, 2, 39] := by
  decide +kernel

/-! ## The letter that tells info from a marker -/

theorem mem_timeDefine (ft : FileType) (now : Clock) : 'B' ∈ timeDefine ft now := by
  refine mem_pyFormat (by decide) (by decide) ?_ _
  cases ft <;> decide +kernel

theorem mem_appendFormatGitStr (ft : FileType) (dirty : Bool) :
    'B' ∈ appendFormatGitStr ft dirty := by
  cases ft <;> cases dirty <;> decide +kernel

theorem mem_gitDefine (ft : FileType) (describe : Option Text) : 'B' ∈ gitDefine ft describe :=
  mem_pyFormat (by decide) (by decide) (mem_appendFormatGitStr ft _) _

theorem notMem_strDefineEnd (ft : FileType) : 'B' ∉ strDefineEnd ft := by
  cases ft <;> decide +kernel

theorem notMem_strDefineStart (ft : FileType) : 'B' ∉ strDefineStart ft := by
  cases ft <;> decide +kernel

/-! ## The lines of an info -/

/-- What stands in front of the value in each line of a format, and what stands behind it. -/
def formatFields (format : Text) : List (Text × Text) :=
  (format.splitOn '\n').tail.dropLast.map fun l =>
    (l.takeWhile (· ≠ '{'), (l.dropWhile (· ≠ '{')).drop 2)

/-- Every line of a template takes one value. -/
theorem pyFormat_fields {fields : List (Text × Text)} {values : List Text}
    (hlen : values.length = fields.length) (hopen : ∀ f ∈ fields, '{' ∉ f.1 ∧ '{' ∉ f.2) :
    pyFormat (fields.flatMap fun f => f.1 ++ '{' :: '}' :: (f.2 ++ ['\n'])) values =
      (List.zipWith (fun f v => f.1 ++ (v ++ f.2)) fields values).flatMap (· ++ ['\n']) := by
  induction fields generalizing values with
  | nil =>
    obtain rfl := List.length_eq_zero_iff.mp hlen
    rfl
  | cons f fields ih =>
    obtain ⟨v, values, rfl⟩ := List.exists_cons_of_length_eq_add_one hlen
    have hf := hopen f List.mem_cons_self
    have hbehind : '{' ∉ f.2 ++ ['\n'] := by simp [hf.2]
    have hrest := ih (Nat.succ.inj hlen) fun g hg => hopen g (List.mem_cons_of_mem f hg)
    rw [List.flatMap_cons, List.append_assoc, pyFormat_append hf.1, List.cons_append,
      List.cons_append, pyFormat, pyFormat_append hbehind, hrest]
    simp

/-- Behind a newline the format has so many lines, with a value in each and the letter in front of
it. -/
def LineFormat (format : Text) (n : ℕ) : Prop :=
  (format = '\n' :: (formatFields format).flatMap fun f => f.1 ++ '{' :: '}' :: (f.2 ++ ['\n'])) ∧
    (formatFields format).length = n ∧
    ∀ f ∈ formatFields format, '{' ∉ f.1 ∧ '{' ∉ f.2 ∧ '\n' ∉ f.1 ∧ '\n' ∉ f.2 ∧ 'B' ∈ f.1

instance (format : Text) (n : ℕ) : Decidable (LineFormat format n) :=
  inferInstanceAs (Decidable (_ ∧ _))

theorem lineFormat_timeStr (ft : FileType) : LineFormat (timeStr ft) 8 := by
  cases ft <;> decide +kernel

theorem lineFormat_gitStr (ft : FileType) (dirty : Bool) :
    LineFormat (appendFormatGitStr ft dirty) 6 := by
  cases ft <;> cases dirty <;> decide +kernel

/-- The last line of an info has the letter. -/
theorem exists_last_line {format : Text} {n : ℕ} (h : LineFormat format (n + 1))
    (values : List Text) (hlen : values.length = n) {v : Text} (hv : '\n' ∉ v) :
    ∃ u l, pyFormat format (values ++ [v]) = u ++ mark '\n' l ∧ '\n' ∉ l ∧ 'B' ∈ l := by
  obtain ⟨hformat, hfields, hspec⟩ := h
  rw [hformat, ← List.singleton_append, pyFormat_append (by decide),
    pyFormat_fields (by rw [hfields, List.length_append, hlen, List.length_singleton])
      fun f hf => ⟨(hspec f hf).1, (hspec f hf).2.1⟩]
  obtain ⟨fs, f, hsplit⟩ := (List.eq_nil_or_concat' (formatFields format)).resolve_left (by
    rintro hnil
    simp [hnil] at hfields)
  obtain ⟨-, -, hbefore, hbehind, hB⟩ := hspec f (by simp [hsplit])
  have hfs : fs.length = values.length := by
    rw [hsplit, List.length_append, List.length_singleton] at hfields
    omega
  -- what stands in front of the last line ends with a newline
  have hconcat : ∀ X : List Text, ∃ u, '\n' :: X.flatMap (· ++ ['\n']) = u ++ ['\n'] := by
    intro X
    rcases List.eq_nil_or_concat' X with rfl | ⟨X, l, rfl⟩
    · exact ⟨[], rfl⟩
    · exact ⟨'\n' :: X.flatMap (· ++ ['\n']) ++ l, by simp⟩
  obtain ⟨u, hu⟩ := hconcat (List.zipWith (fun f v => f.1 ++ (v ++ f.2)) fs values)
  refine ⟨u, f.1 ++ (v ++ f.2), ?_, by simp [hbefore, hbehind, hv], by simp [hB]⟩
  rw [hsplit, List.zipWith_append hfs, List.flatMap_append, List.singleton_append,
    ← List.cons_append, hu]
  simp [mark]

end MaixSpeech.Build
