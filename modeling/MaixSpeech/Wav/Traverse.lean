import MaixSpeech.Common.CString

/-!
# `trave_dir`

Reference: `components/utils/src/benchmark.c`.

`benchmark` first collects the wav files below a directory: `trave_dir` reads the entries of a
directory, `.` and `..` among them, builds each full path in the 128 bytes of `full_path`, enters
directories down to a depth, and copies the paths of wav files into the rows of `file_name`. The
table is modelled as the bytes of all its rows, so a path that is too long for its row lies in the
next one as well. `none` stands for a write behind the end of `full_path` or of the table.

`traveLoop_eq_foldlM` lists the entries in the order in which they are read and turns the recursion
into a fold over that list.
-/

namespace MaixSpeech.Wav

open Common

/-! ## The directory tree -/

/-- The name of a directory entry. -/
@[ext] structure Name where
  bytes : List UInt8
  ne_nil : bytes ≠ []
  nul : 0 ∉ bytes
  slash : 47 ∉ bytes
deriving DecidableEq

/-- A name that starts with a dot. -/
def Name.hidden (name : Name) : Bool := name.bytes.head? == some 46

/-- The entries for a directory itself and for the one above it. -/
inductive Dots where
  | self
  | parent
deriving DecidableEq

/-- `.` and `..`. -/
def Dots.name : Dots → Name
  | .self => ⟨bytes ".", by decide, by decide, by decide⟩
  | .parent => ⟨bytes "..", by decide, by decide, by decide⟩

@[simp] theorem Dots.hidden_name (entry : Dots) : entry.name.hidden = true := by
  cases entry <;> rfl

/-- What `readdir` returns of a directory, in this order; `.` and `..` stand anywhere in it. A `file`
is what `stat` does not report as a directory, regular or not; a `dir` has its own entries, and
`opens` if `opendir` succeeds on it. -/
inductive Listing where
  | nil
  | dots (entry : Dots) (rest : Listing)
  | file (name : Name) (regular : Bool) (rest : Listing)
  | dir (name : Name) (opens : Bool) (entries : Listing) (rest : Listing)

/-- The names in a directory. -/
def Listing.names : Listing → List Name
  | .nil => []
  | .dots entry rest => entry.name :: rest.names
  | .file name _ rest => name :: rest.names
  | .dir name _ _ rest => name :: rest.names

/-- Which of `.` and `..` it has. -/
def Listing.dotted : Listing → List Dots
  | .nil => []
  | .dots entry rest => entry :: rest.dotted
  | .file _ _ rest => rest.dotted
  | .dir _ _ _ rest => rest.dotted

/-- No directory has two entries of one name. -/
def Listing.Distinct : Listing → Prop
  | .nil => True
  | .dots entry rest => entry.name ∉ rest.names ∧ rest.Distinct
  | .file name _ rest => name ∉ rest.names ∧ rest.Distinct
  | .dir name _ entries rest => name ∉ rest.names ∧ entries.Distinct ∧ rest.Distinct

/-- Both `.` and `..` are among the entries. -/
def Listing.HasDots (l : Listing) : Prop := .self ∈ l.dotted ∧ .parent ∈ l.dotted

instance (l : Listing) : Decidable l.HasDots := inferInstanceAs (Decidable (_ ∧ _))

/-- The directories among the entries and below have `.` and `..`. -/
def Listing.Dotted : Listing → Prop
  | .nil => True
  | .dots _ rest => rest.Dotted
  | .file _ _ rest => rest.Dotted
  | .dir _ _ entries rest => entries.HasDots ∧ entries.Dotted ∧ rest.Dotted

instance Listing.decidableDistinct : DecidablePred Listing.Distinct
  | .nil => .isTrue trivial
  | .dots entry rest =>
    have := decidableDistinct rest
    inferInstanceAs (Decidable (entry.name ∉ rest.names ∧ rest.Distinct))
  | .file name _ rest =>
    have := decidableDistinct rest
    inferInstanceAs (Decidable (name ∉ rest.names ∧ rest.Distinct))
  | .dir name _ entries rest =>
    have := decidableDistinct entries
    have := decidableDistinct rest
    inferInstanceAs (Decidable (name ∉ rest.names ∧ entries.Distinct ∧ rest.Distinct))

instance Listing.decidableDotted : DecidablePred Listing.Dotted
  | .nil => .isTrue trivial
  | .dots _ rest => decidableDotted rest
  | .file _ _ rest => decidableDotted rest
  | .dir _ _ entries rest =>
    have := decidableDotted entries
    have := decidableDotted rest
    inferInstanceAs (Decidable (entries.HasDots ∧ entries.Dotted ∧ rest.Dotted))

/-- A directory. -/
structure Dir where
  opens : Bool
  entries : Listing
  distinct : entries.Distinct
  dots : entries.HasDots
  dotted : entries.Dotted

/-! ## The traversal -/

abbrev maxWavCnt : ℕ := 10000

/-- `file_name` and `file_cnt`. `inRows` is not part of the program: it says that no copy so far has
left its row. -/
structure Files where
  fileName : List UInt8
  fileCnt : ℕ
  inRows : Bool

/-- The string `file_name[i]`. -/
def Files.row (files : Files) (i : ℕ) : List UInt8 := cstr (files.fileName.drop (64 * i))

/-- `strcpy(file_name[file_cnt++], s)`. -/
def Files.push (files : Files) (s : List UInt8) : Option Files :=
  (strcpy (files.fileName.drop (64 * files.fileCnt)) s).map fun rows =>
    { fileName := files.fileName.take (64 * files.fileCnt) ++ rows
      fileCnt := files.fileCnt + 1
      inRows := files.inRows && decide (s.length < 64) }

/-- `full_path` behind its `strcpy` and its `strcat`. -/
def fullPath (path : List UInt8) (name : Name) : Option (List UInt8) :=
  (strcpy (List.replicate 128 0) path).bind fun full => strcat full name.bytes

/-- The branch for files. -/
def saveFile (full : List UInt8) (files : Files) : Option Files :=
  let fnameLen := (cstr full).length
  if fnameLen < 5 then some files
  else if cstr (full.drop (fnameLen - 4)) = bytes ".wav" then files.push (cstr full)
  else some files

/-- An entry that is not entered. -/
def passEntry (path : List UInt8) (name : Name) (files : Files) : Option Files :=
  (fullPath path name).bind fun full => if name.hidden then some files else saveFile full files

/-- The `while` loop of `trave_dir` with its recursive calls. The path of every entry is built, also
that of `.` and `..`, before the name is looked at. -/
def traveLoop : Listing → List UInt8 → ℕ → Files → Option Files
  | .nil, _, _, files => some files
  | .dots entry rest, path, depth, files =>
    if maxWavCnt ≤ files.fileCnt then some files
    else (passEntry path entry.name files).bind (traveLoop rest path depth)
  | .file name _ rest, path, depth, files =>
    if maxWavCnt ≤ files.fileCnt then some files
    else (passEntry path name files).bind (traveLoop rest path depth)
  | .dir name opens entries rest, path, depth, files =>
    if maxWavCnt ≤ files.fileCnt then some files
    else if name.hidden = false ∧ depth ≤ 3 then
      ((fullPath path name).bind fun full => strcat full (bytes "/")).bind fun full =>
        (if opens then traveLoop entries (cstr full) (depth + 1) files else some files).bind
          (traveLoop rest path depth)
    else (passEntry path name files).bind (traveLoop rest path depth)

/-- `trave_dir`: its result, and what it leaves. -/
def traveDir (dir : Dir) (path : List UInt8) (depth : ℕ) (files : Files) : Option (ℤ × Files) :=
  if dir.opens then (traveLoop dir.entries path depth files).map fun files => (0, files)
  else some (-1, files)

/-! ## The order of the entries -/

/-- An entry the loop reads: its full path, whether its name is hidden, whether it is a regular file,
and whether it is a directory to be entered. -/
structure Visit where
  full : List UInt8
  hidden : Bool
  regular : Bool
  enter : Bool
deriving DecidableEq

/-- The entries in the order in which they are read, if the table does not get full. -/
def visits : Listing → List UInt8 → ℕ → List Visit
  | .nil, _, _ => []
  | .dots entry rest, path, depth =>
    ⟨path ++ entry.name.bytes, true, false, false⟩ :: visits rest path depth
  | .file name regular rest, path, depth =>
    ⟨path ++ name.bytes, name.hidden, regular, false⟩ :: visits rest path depth
  | .dir name opens entries rest, path, depth =>
    if name.hidden = false ∧ depth ≤ 3 then
      ⟨path ++ name.bytes, false, false, true⟩ ::
        ((if opens then visits entries (path ++ name.bytes ++ bytes "/") (depth + 1) else []) ++
          visits rest path depth)
    else ⟨path ++ name.bytes, name.hidden, false, false⟩ :: visits rest path depth

/-- The full path of the entry has room in `full_path`, with its slash if it is entered. -/
def Visit.Fits (v : Visit) : Prop := v.full.length + (if v.enter then 1 else 0) < 128

instance (v : Visit) : Decidable v.Fits := inferInstanceAs (Decidable (_ < _))

/-- The entry gets a row of the table. -/
def Visit.recorded (v : Visit) : Bool :=
  !v.hidden && !v.enter && decide (5 ≤ v.full.length) &&
    decide (v.full.drop (v.full.length - 4) = bytes ".wav")

/-- One turn of the loop. -/
def visitStep (files : Files) (v : Visit) : Option Files :=
  if maxWavCnt ≤ files.fileCnt then some files
  else if v.Fits then if v.recorded then files.push v.full else some files
  else none

theorem visitStep_of_full {files : Files} (h : maxWavCnt ≤ files.fileCnt) (v : Visit) :
    visitStep files v = some files := if_pos h

theorem foldlM_visitStep_of_full {files : Files} (h : maxWavCnt ≤ files.fileCnt) (vs : List Visit) :
    vs.foldlM visitStep files = some files := by
  induction vs with
  | nil => rfl
  | cons v vs ih =>
    rw [List.foldlM_cons, visitStep_of_full h]
    exact ih

section Build

variable {path : List UInt8} {name : Name} {files : Files}

theorem fits_pass {s : List UInt8} {hidden regular : Bool} :
    Visit.Fits ⟨s, hidden, regular, false⟩ ↔ s.length < 128 := Iff.rfl

theorem nul_notMem_slash {s : List UInt8} (h : 0 ∉ s) : 0 ∉ s ++ bytes "/" := by
  rw [List.mem_append, not_or]
  exact ⟨h, by decide⟩

theorem nul_notMem_full (h : 0 ∉ path) (name : Name) : 0 ∉ path ++ name.bytes :=
  fun h0 => (List.mem_append.mp h0).elim h name.nul

/-- A path that has room is built. -/
theorem fullPath_of_lt (h : 0 ∉ path) (hlt : (path ++ name.bytes).length < 128) :
    ∃ rest, fullPath path name = some (path ++ name.bytes ++ 0 :: rest) ∧
      (path ++ name.bytes ++ 0 :: rest).length = 128 := by
  have hpath : path.length < (List.replicate 128 (0 : UInt8)).length := by
    rw [List.length_replicate]
    exact lt_of_le_of_lt (by simp) hlt
  have hcpy := strcpy_eq_some hpath
  obtain ⟨hcstr, hlen⟩ := strcpy_spec hcpy h
  rw [List.length_replicate] at hlen
  have hcat := strcpy_eq_some (hlt.trans_eq hlen.symm)
  have hnul := nul_notMem_full h name
  obtain ⟨-, hlen'⟩ := strcpy_spec hcat hnul
  exact ⟨_, by rw [fullPath, hcpy, Option.bind_some, strcat, hcstr, hcat], hlen'.trans hlen⟩

/-- One that has none leaves `full_path`. -/
theorem fullPath_of_le (h : 0 ∉ path) (hge : 128 ≤ (path ++ name.bytes).length) :
    fullPath path name = none := by
  rw [fullPath]
  by_cases hpath : path.length < (List.replicate 128 (0 : UInt8)).length
  · obtain ⟨hcstr, hlen⟩ := strcpy_spec (strcpy_eq_some hpath) h
    rw [List.length_replicate] at hlen
    rw [strcpy_eq_some hpath, Option.bind_some, strcat, hcstr]
    exact strcpy_eq_none (hlen.trans_le hge)
  · rw [strcpy_eq_none (Nat.le_of_not_lt hpath), Option.bind_none]

theorem saveFile_eq {s rest : List UInt8} (hs : 0 ∉ s) :
    saveFile (s ++ 0 :: rest) files =
      if (Visit.recorded ⟨s, false, true, false⟩) then files.push s else some files := by
  have hdrop : cstr ((s ++ 0 :: rest).drop (s.length - 4)) = s.drop (s.length - 4) := by
    rw [List.drop_append_of_le_length (Nat.sub_le _ _)]
    exact cstr_append_nul (fun h => hs (List.mem_of_mem_drop h)) rest
  simp only [saveFile, cstr_append_nul hs, hdrop]
  by_cases hlen : s.length < 5
  · have hrecorded : Visit.recorded ⟨s, false, true, false⟩ = false := by
      simp only [Visit.recorded, decide_eq_false (Nat.not_le.mpr hlen), Bool.and_false, Bool.false_and]
    rw [if_pos hlen, hrecorded]
    rfl
  · rw [if_neg hlen]
    by_cases hwav : s.drop (s.length - 4) = bytes ".wav"
    · rw [if_pos hwav, if_pos]
      simp [Visit.recorded, hwav, Nat.le_of_not_lt hlen]
    · rw [if_neg hwav, if_neg]
      simp [Visit.recorded, hwav]

/-- An entry that is not entered takes one turn. -/
theorem passEntry_eq (h : 0 ∉ path) (name : Name) (regular : Bool)
    (hfree : ¬ maxWavCnt ≤ files.fileCnt) :
    passEntry path name files = visitStep files ⟨path ++ name.bytes, name.hidden, regular, false⟩ := by
  have hnul := nul_notMem_full h name
  rw [visitStep, if_neg hfree, passEntry]
  by_cases hfits : (path ++ name.bytes).length < 128
  · obtain ⟨rest, hfull, -⟩ := fullPath_of_lt h hfits
    rw [hfull, Option.bind_some, if_pos (fits_pass.mpr hfits), saveFile_eq hnul]
    cases hhidden : name.hidden
    · rfl
    · simp [Visit.recorded]
  · rw [fullPath_of_le h (Nat.le_of_not_lt hfits), Option.bind_none,
      if_neg (mt fits_pass.mp hfits)]

theorem visitStep_enter (s : List UInt8) (hfree : ¬ maxWavCnt ≤ files.fileCnt) :
    visitStep files ⟨s, false, false, true⟩ = if s.length + 1 < 128 then some files else none := by
  rw [visitStep, if_neg hfree]
  rfl

/-- Entering takes one turn, and what is entered is the full path with a slash. -/
theorem enter_eq (h : 0 ∉ path) (name : Name) (hfree : ¬ maxWavCnt ≤ files.fileCnt)
    (f : List UInt8 → Option Files) :
    (((fullPath path name).bind fun full => strcat full (bytes "/")).bind fun full => f (cstr full)) =
      (visitStep files ⟨path ++ name.bytes, false, false, true⟩).bind fun _ =>
        f (path ++ name.bytes ++ bytes "/") := by
  have hnul := nul_notMem_full h name
  rw [visitStep_enter _ hfree]
  by_cases hlt : (path ++ name.bytes).length < 128
  · obtain ⟨rest, hfull, hlen⟩ := fullPath_of_lt h hlt
    rw [hfull, Option.bind_some, strcat, cstr_append_nul hnul]
    by_cases hfits : (path ++ name.bytes).length + 1 < 128
    · have hcat : strcpy (path ++ name.bytes ++ 0 :: rest) (path ++ name.bytes ++ bytes "/") =
          some _ := strcpy_eq_some (by rw [hlen, List.length_append]; exact hfits)
      rw [if_pos hfits, hcat, Option.bind_some, cstr_append_nul (nul_notMem_slash hnul),
        Option.bind_some]
    · rw [if_neg hfits, Option.bind_none, strcpy_eq_none, Option.bind_none]
      rw [hlen, List.length_append]
      exact Nat.le_of_not_lt hfits
  · have hover : ¬ (path ++ name.bytes).length + 1 < 128 := by omega
    rw [fullPath_of_le h (Nat.le_of_not_lt hlt), if_neg hover]
    rfl

end Build

/-- **The traversal is a fold** over the entries in the order in which they are read. -/
theorem traveLoop_eq_foldlM (l : Listing) {path : List UInt8} (h : 0 ∉ path) (depth : ℕ)
    (files : Files) : traveLoop l path depth files = (visits l path depth).foldlM visitStep files := by
  induction l generalizing path depth files with
  | nil => rfl
  | dots entry rest ih =>
    rw [traveLoop, visits]
    split
    · rename_i hfull
      rw [foldlM_visitStep_of_full hfull]
    · rename_i hfree
      rw [List.foldlM_cons, passEntry_eq h entry.name false hfree, entry.hidden_name]
      congr 1
      funext files
      exact ih h depth files
  | file name regular rest ih =>
    rw [traveLoop, visits]
    split
    · rename_i hfull
      rw [foldlM_visitStep_of_full hfull]
    · rename_i hfree
      rw [List.foldlM_cons, passEntry_eq h name regular hfree]
      congr 1
      funext files
      exact ih h depth files
  | dir name opens entries rest ihEntries ihRest =>
    rw [traveLoop, visits]
    split
    · rename_i hfull
      rw [foldlM_visitStep_of_full hfull]
    rename_i hfree
    split
    · have hsub : (if opens then
            traveLoop entries (path ++ name.bytes ++ bytes "/") (depth + 1) files else some files) =
          (if opens then visits entries (path ++ name.bytes ++ bytes "/") (depth + 1)
            else []).foldlM visitStep files := by
        cases opens
        · rfl
        · exact ihEntries (nul_notMem_slash (nul_notMem_full h name)) (depth + 1) files
      rw [List.foldlM_cons, enter_eq h name hfree fun full =>
        (if opens then traveLoop entries full (depth + 1) files else some files).bind
          (traveLoop rest path depth), visitStep_enter _ hfree, hsub]
      split
      · rw [Option.bind_some]
        change _ = List.foldlM visitStep files (_ ++ _)
        rw [List.foldlM_append]
        change Option.bind _ _ = Option.bind _ _
        congr 1
        funext files
        exact ihRest h depth files
      · rfl
    · rw [List.foldlM_cons, passEntry_eq h name false hfree]
      congr 1
      funext files
      exact ihRest h depth files

end MaixSpeech.Wav
