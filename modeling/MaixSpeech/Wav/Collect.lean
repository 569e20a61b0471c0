import MaixSpeech.Wav.Traverse

/-!
# Which files are collected

Reference: `components/utils/src/benchmark.c`.

`wanted` lists the wav files at most three levels below a directory. `collected_iff` says when the
rows of `file_name` are that list: every path that is built has room, those of `.` and `..` as well,
every row has room for its path, nothing but regular files gets a row, and no directory with wanted
files is left out. What counts are the entries that are read before the table is full (`live`).
-/

namespace MaixSpeech.Wav

open Common

/-! ## Rows -/

section Rows

variable {files files' : Files} {s t : List UInt8} {R : List (List UInt8)}

/-- The first rows of the table hold these strings, and each one ends in its row. -/
structure Rows (files : Files) (R : List (List UInt8)) : Prop where
  cnt : files.fileCnt = R.length
  size : files.fileName.length = maxWavCnt * 64
  holds : ∀ i (hi : i < R.length), R[i].length < 64 ∧ HoldsStr files.fileName (64 * i) R[i]

theorem Rows.row (h : Rows files R) {i : ℕ} (hi : i < R.length) : files.row i = R[i] :=
  (h.holds i hi).2.cstr_drop

/-- Memory cut off behind a string still holds it. -/
theorem holdsStr_take {mem : List UInt8} {p q : ℕ} (h : HoldsStr mem p s)
    (hq : p + s.length + 1 ≤ q) : HoldsStr (mem.take q) p s := by
  refine ⟨h.1, ?_⟩
  rw [List.drop_take, List.prefix_take_iff]
  refine ⟨h.2, ?_⟩
  rw [List.length_append, List.length_singleton]
  omega

/-- A string that has room in its row becomes the next one. -/
theorem Rows.push (h : Rows files R) (hfree : R.length < maxWavCnt) (h0 : 0 ∉ s)
    (hs : s.length < 64) :
    ∃ files', files.push s = some files' ∧ files'.inRows = files.inRows ∧ Rows files' (R ++ [s]) := by
  have hq : (files.fileName.take (64 * files.fileCnt)).length = 64 * files.fileCnt := by
    rw [List.length_take, h.size, h.cnt]
    omega
  have hroom : s.length < (files.fileName.drop (64 * files.fileCnt)).length := by
    rw [List.length_drop, h.size, h.cnt]
    omega
  have hcpy := strcpy_eq_some hroom
  obtain ⟨-, hlen⟩ := strcpy_spec hcpy h0
  refine ⟨_, by rw [Files.push, hcpy, Option.map_some], by simp [hs], ?_, ?_, ?_⟩
  · rw [List.length_append, List.length_singleton, h.cnt]
  · rw [List.length_append, hlen, ← List.length_append, List.take_append_drop, h.size]
  · intro i hi
    rw [List.length_append, List.length_singleton] at hi
    by_cases hiR : i < R.length
    · rw [List.getElem_append_left hiR]
      obtain ⟨hlt, hold⟩ := h.holds i hiR
      exact ⟨hlt, (holdsStr_take hold (by rw [h.cnt]; omega)).append _⟩
    · obtain rfl : i = R.length := by omega
      rw [List.getElem_concat_length rfl]
      have hnew := holdsStr_append (files.fileName.take (64 * files.fileCnt)) h0
        ((files.fileName.drop (64 * files.fileCnt)).drop (s.length + 1))
      rw [hq, h.cnt] at hnew
      rw [h.cnt]
      exact ⟨hs, hnew⟩

/-- Only a string that has room in its row keeps `inRows`. -/
theorem push_inRows (h : files.push s = some files') (hin : files'.inRows = true) :
    files.inRows = true ∧ s.length < 64 := by
  obtain ⟨rows, -, rfl⟩ := Option.map_eq_some_iff.mp h
  simpa using hin

/-- A path too long for its row reads as its first 64 bytes and the path in the row behind it. -/
theorem row_of_long (hsize : 64 * files.fileCnt ≤ files.fileName.length) (h0 : 0 ∉ s) (h0t : 0 ∉ t)
    (hlong : 64 ≤ s.length) {files'' : Files} (hs : files.push s = some files')
    (ht : files'.push t = some files'') : files''.row files.fileCnt = s.take 64 ++ t := by
  obtain ⟨rows, hcpy, rfl⟩ := Option.map_eq_some_iff.mp hs
  obtain ⟨rows', hcpy', rfl⟩ := Option.map_eq_some_iff.mp ht
  obtain ⟨more, rfl⟩ := strcpy_append hcpy
  obtain ⟨more', rfl⟩ := strcpy_append hcpy'
  have hq : (files.fileName.take (64 * files.fileCnt)).length = 64 * files.fileCnt := by
    rw [List.length_take, min_eq_left hsize]
  have hcut : (files.fileName.take (64 * files.fileCnt) ++ (s ++ 0 :: more)).take
      (64 * (files.fileCnt + 1)) = files.fileName.take (64 * files.fileCnt) ++ s.take 64 := by
    have hrow : 64 * (files.fileCnt + 1) - 64 * files.fileCnt = 64 := by omega
    rw [List.take_append, List.take_of_length_le (by omega), hq, hrow,
      List.take_append_of_le_length hlong]
  have h0' : 0 ∉ s.take 64 ++ t := fun h =>
    (List.mem_append.mp h).elim (fun h => h0 (List.mem_of_mem_take h)) h0t
  simp only [Files.row]
  rw [hcut, List.append_assoc, List.drop_left' hq, ← List.append_assoc, cstr_append_nul h0']

end Rows

/-! ## The wanted files -/

/-- A wav file: its name is visible and ends in `.wav`, and its path has at least five characters. -/
def Wanted (path : List UInt8) (name : Name) : Prop :=
  name.hidden = false ∧ bytes ".wav" <:+ name.bytes ∧ 5 ≤ (path ++ name.bytes).length

instance (path : List UInt8) (name : Name) : Decidable (Wanted path name) :=
  inferInstanceAs (Decidable (_ ∧ _ ∧ _))

/-- The full paths of the regular wav files at most three levels below the top, for a directory that
is `level` levels below it. -/
def wanted : Listing → List UInt8 → ℕ → List (List UInt8)
  | .nil, _, _ => []
  | .dots _ rest, path, level => wanted rest path level
  | .file name regular rest, path, level =>
    (if regular = true ∧ Wanted path name then [path ++ name.bytes] else []) ++ wanted rest path level
  | .dir name _ entries rest, path, level =>
    (if level < 3 then wanted entries (path ++ name.bytes ++ bytes "/") (level + 1) else []) ++
      wanted rest path level

/-- Hidden directories and those that do not open have no wanted files in them. -/
def Complete : Listing → List UInt8 → ℕ → Prop
  | .nil, _, _ => True
  | .dots _ rest, path, level => Complete rest path level
  | .file _ _ rest, path, level => Complete rest path level
  | .dir name opens entries rest, path, level =>
    (level < 3 →
      if name.hidden = false ∧ opens = true then
        Complete entries (path ++ name.bytes ++ bytes "/") (level + 1)
      else wanted entries (path ++ name.bytes ++ bytes "/") (level + 1) = []) ∧
      Complete rest path level

instance decidableComplete : (l : Listing) → (path : List UInt8) → (level : ℕ) →
    Decidable (Complete l path level)
  | .nil, _, _ => .isTrue trivial
  | .dots _ rest, path, level => decidableComplete rest path level
  | .file _ _ rest, path, level => decidableComplete rest path level
  | .dir name opens entries rest, path, level =>
    have := decidableComplete entries (path ++ name.bytes ++ bytes "/") (level + 1)
    have := decidableComplete rest path level
    inferInstanceAs (Decidable ((level < 3 → if name.hidden = false ∧ opens = true then
      Complete entries (path ++ name.bytes ++ bytes "/") (level + 1)
      else wanted entries (path ++ name.bytes ++ bytes "/") (level + 1) = []) ∧
      Complete rest path level))

/-! ### Paths -/

section Paths

variable {l rest : Listing} {path s : List UInt8} {name name' : Name} {depth level : ℕ} {v : Visit}

/-- `s` is the full path of the entry `name` or of something below it. -/
def Under (path : List UInt8) (name : Name) (s : List UInt8) : Prop :=
  ∃ t, s = path ++ name.bytes ++ t ∧ (t = [] ∨ t.head? = some 47)

theorem under_self (path : List UInt8) (name : Name) : Under path name (path ++ name.bytes) :=
  ⟨[], (List.append_nil _).symm, .inl rfl⟩

theorem Under.of_sub (h : Under (path ++ name.bytes ++ bytes "/") name' s) : Under path name s := by
  obtain ⟨t, rfl, -⟩ := h
  exact ⟨bytes "/" ++ name'.bytes ++ t, by simp only [List.append_assoc], .inr rfl⟩

/-- What lies below an entry is not the entry itself. -/
theorem Under.ne_of_sub (h : Under (path ++ name.bytes ++ bytes "/") name' s) :
    s ≠ path ++ name.bytes := by
  obtain ⟨t, rfl, -⟩ := h
  intro heq
  have hlen := congrArg List.length heq
  simp only [List.length_append] at hlen
  have hslash : (bytes "/").length = 1 := rfl
  omega

/-- A path is below one entry only. -/
theorem Under.unique (h : Under path name s) (h' : Under path name' s) : name = name' := by
  have hstop : ∀ {n : Name} {t : List UInt8}, t = [] ∨ t.head? = some 47 →
      (n.bytes ++ t).takeWhile (· ≠ 47) = n.bytes := by
    intro n t ht
    have hname : ∀ a ∈ n.bytes, decide (a ≠ 47) = true := by
      intro a ha
      exact decide_eq_true fun h => n.slash (h ▸ ha)
    rw [List.takeWhile_append_of_pos hname]
    cases t with
    | nil => simp
    | cons b t =>
      obtain rfl : b = 47 := by simpa using ht
      simp
  obtain ⟨t, rfl, ht⟩ := h
  obtain ⟨t', heq, ht'⟩ := h'
  rw [List.append_assoc, List.append_assoc, List.append_cancel_left_eq] at heq
  apply Name.ext
  rw [← hstop ht, heq, hstop ht']

/-- What is read of a directory entry: the entry, what lies below it, or what follows. -/
theorem mem_visits_dir {opens : Bool} {entries : Listing}
    (h : v ∈ visits (.dir name opens entries rest) path depth) :
    v.full = path ++ name.bytes ∨
      ((name.hidden = false ∧ opens = true) ∧
        v ∈ visits entries (path ++ name.bytes ++ bytes "/") (depth + 1)) ∨
      v ∈ visits rest path depth := by
  rw [visits] at h
  split at h
  · rename_i hin
    rcases List.mem_cons.mp h with rfl | h
    · exact .inl rfl
    rcases List.mem_append.mp h with h | h
    · split at h
      · rename_i hopens
        exact .inr (.inl ⟨⟨hin.1, hopens⟩, h⟩)
      · exact absurd h List.not_mem_nil
    · exact .inr (.inr h)
  · rcases List.mem_cons.mp h with rfl | h
    · exact .inl rfl
    · exact .inr (.inr h)

theorem mem_wanted_file {regular : Bool} (h : s ∈ wanted (.file name regular rest) path level) :
    (s = path ++ name.bytes ∧ regular = true) ∨ s ∈ wanted rest path level := by
  refine (List.mem_append.mp h).imp_left fun h => ?_
  split at h
  · rename_i hw
    exact ⟨List.mem_singleton.mp h, hw.1⟩
  · exact absurd h List.not_mem_nil

theorem mem_wanted_dir {opens : Bool} {entries : Listing} :
    s ∈ wanted (.dir name opens entries rest) path level ↔
      (level < 3 ∧ s ∈ wanted entries (path ++ name.bytes ++ bytes "/") (level + 1)) ∨
        s ∈ wanted rest path level := by
  rw [wanted, List.mem_append]
  split
  · rename_i hlevel
    rw [and_iff_right hlevel]
  · rename_i hlevel
    exact or_congr_left ⟨fun h => absurd h List.not_mem_nil, fun h => absurd h.1 hlevel⟩

theorem exists_under_of_mem_visits (h : v ∈ visits l path depth) :
    ∃ name ∈ l.names, Under path name v.full := by
  induction l generalizing path depth with
  | nil => exact absurd h List.not_mem_nil
  | dots entry rest ih =>
    rcases List.mem_cons.mp h with rfl | h
    · exact ⟨entry.name, List.mem_cons_self, under_self path entry.name⟩
    · obtain ⟨n, hn, hu⟩ := ih h
      exact ⟨n, List.mem_cons_of_mem _ hn, hu⟩
  | file name regular rest ih =>
    rcases List.mem_cons.mp h with rfl | h
    · exact ⟨name, List.mem_cons_self, under_self path name⟩
    · obtain ⟨n, hn, hu⟩ := ih h
      exact ⟨n, List.mem_cons_of_mem _ hn, hu⟩
  | dir name opens entries rest ihEntries ihRest =>
    rcases mem_visits_dir h with hself | ⟨-, h⟩ | h
    · exact ⟨name, List.mem_cons_self, hself ▸ under_self path name⟩
    · obtain ⟨n, -, hu⟩ := ihEntries h
      exact ⟨name, List.mem_cons_self, hu.of_sub⟩
    · obtain ⟨n, hn, hu⟩ := ihRest h
      exact ⟨n, List.mem_cons_of_mem _ hn, hu⟩

theorem exists_under_of_mem_wanted (h : s ∈ wanted l path level) :
    ∃ name ∈ l.names, Under path name s := by
  induction l generalizing path level with
  | nil => exact absurd h List.not_mem_nil
  | dots entry rest ih =>
    obtain ⟨n, hn, hu⟩ := ih h
    exact ⟨n, List.mem_cons_of_mem _ hn, hu⟩
  | file name regular rest ih =>
    rcases mem_wanted_file h with ⟨rfl, -⟩ | h
    · exact ⟨name, List.mem_cons_self, under_self path name⟩
    · obtain ⟨n, hn, hu⟩ := ih h
      exact ⟨n, List.mem_cons_of_mem _ hn, hu⟩
  | dir name opens entries rest ihEntries ihRest =>
    rcases mem_wanted_dir.mp h with ⟨-, h⟩ | h
    · obtain ⟨n, -, hu⟩ := ihEntries h
      exact ⟨name, List.mem_cons_self, hu.of_sub⟩
    · obtain ⟨n, hn, hu⟩ := ihRest h
      exact ⟨n, List.mem_cons_of_mem _ hn, hu⟩

/-- Nothing that the rest of a directory contributes lies below a name it does not have. -/
theorem notMem_visits (hname : name ∉ rest.names) (hu : Under path name v.full) :
    v ∉ visits rest path depth := by
  intro h
  obtain ⟨n, hn, hu'⟩ := exists_under_of_mem_visits h
  exact hname (hu.unique hu' ▸ hn)

theorem notMem_wanted (hname : name ∉ rest.names) (hu : Under path name s) :
    s ∉ wanted rest path level := by
  intro h
  obtain ⟨n, hn, hu'⟩ := exists_under_of_mem_wanted h
  exact hname (hu.unique hu' ▸ hn)

/-- The test on the end of the full path is one on the end of the name. -/
theorem suffix_path_iff (hslash : path.getLast? = some 47) (name : Name) :
    bytes ".wav" <:+ path ++ name.bytes ↔ bytes ".wav" <:+ name.bytes := by
  refine ⟨fun h => ?_, fun h => h.trans (List.suffix_append _ _)⟩
  obtain ⟨p, rfl⟩ := List.getLast?_eq_some_iff.mp hslash
  have hname : 47 :: name.bytes <:+ p ++ [47] ++ name.bytes := ⟨p, by simp⟩
  rcases List.suffix_or_suffix_of_suffix h hname with hin | hin
  · rcases List.suffix_cons_iff.mp hin with heq | hin
    · exact absurd (List.cons.inj heq).1 (by decide)
    · exact hin
  · exact absurd (hin.subset List.mem_cons_self) (by decide)

/-- A visible entry that is not entered gets a row if its name is one of a wav file. -/
theorem recorded_iff (hslash : path.getLast? = some 47) (name : Name) (regular : Bool) :
    Visit.recorded ⟨path ++ name.bytes, name.hidden, regular, false⟩ = true ↔ Wanted path name := by
  have hend : (path ++ name.bytes).drop ((path ++ name.bytes).length - 4) = bytes ".wav" ↔
      bytes ".wav" <:+ name.bytes := by
    rw [← suffix_path_iff hslash, List.suffix_iff_eq_drop, eq_comm]
    rfl
  simp only [Visit.recorded, Wanted, ← hend, Bool.and_eq_true, Bool.not_eq_true', decide_eq_true_eq,
    and_true, Bool.not_false]
  tauto

end Paths

/-! ## The entries that are read -/

/-- The entries that are read with `n` rows free. -/
def live : ℕ → List Visit → List Visit
  | _, [] => []
  | 0, _ :: _ => []
  | n + 1, v :: vs => v :: live (if v.recorded then n else n + 1) vs

/-- The paths that get a row. -/
def recordedPaths (vs : List Visit) : List (List UInt8) := (vs.filter Visit.recorded).map Visit.full

/-- The entry's path has room in `full_path`, and in its row if it gets one. -/
def Visit.Good (v : Visit) : Prop := v.Fits ∧ (v.recorded = true → v.full.length < 64)

section Run

variable {files files' : Files} {R : List (List UInt8)} {v : Visit} {vs : List Visit} {n : ℕ}

@[simp] theorem live_zero (vs : List Visit) : live 0 vs = [] := by cases vs <;> rfl

theorem recordedPaths_cons (v : Visit) (vs : List Visit) :
    recordedPaths (v :: vs) = (if v.recorded then [v.full] else []) ++ recordedPaths vs := by
  cases h : v.recorded <;> simp [recordedPaths, h]

/-- **Step, forwards**: an entry with room is read, and gets its row. -/
theorem Rows.visitStep (h : Rows files R) (hfree : R.length < maxWavCnt) (h0 : 0 ∉ v.full)
    (hv : v.Good) :
    ∃ files', Wav.visitStep files v = some files' ∧ files'.inRows = files.inRows ∧
      Rows files' (R ++ if v.recorded then [v.full] else []) := by
  rw [Wav.visitStep, if_neg (by rw [h.cnt]; omega), if_pos hv.1]
  cases hrec : v.recorded with
  | false => exact ⟨files, rfl, rfl, by simpa using h⟩
  | true => simpa using h.push hfree h0 (hv.2 hrec)

/-- **Step, backwards**: what is read without leaving a row had room. -/
theorem good_of_visitStep (hfree : files.fileCnt < maxWavCnt)
    (h : visitStep files v = some files') (hin : files'.inRows = true) :
    v.Good ∧ files.inRows = true := by
  rw [visitStep, if_neg (Nat.not_le.mpr hfree)] at h
  split at h
  · rename_i hfits
    cases hrec : v.recorded with
    | false =>
      rw [hrec] at h
      obtain rfl := Option.some.inj h
      exact ⟨⟨hfits, fun h => by rw [hrec] at h; cases h⟩, hin⟩
    | true =>
      rw [hrec] at h
      obtain ⟨hin', hlt⟩ := push_inRows h hin
      exact ⟨⟨hfits, fun _ => hlt⟩, hin'⟩
  · cases h

theorem inRows_of_foldlM (h : vs.foldlM visitStep files = some files') (hin : files'.inRows = true) :
    files.inRows = true := by
  induction vs generalizing files with
  | nil =>
    obtain rfl := Option.some.inj h
    exact hin
  | cons v vs ih =>
    rw [List.foldlM_cons] at h
    obtain ⟨files₁, h₁, h₂⟩ := Option.bind_eq_some_iff.mp h
    have hin₁ := ih h₂
    by_cases hfull : maxWavCnt ≤ files.fileCnt
    · rw [visitStep_of_full hfull] at h₁
      obtain rfl := Option.some.inj h₁
      exact hin₁
    · exact (good_of_visitStep (Nat.lt_of_not_le hfull) h₁ hin₁).2

/-- **Run, forwards**: if all that is read has room, the paths that get a row stand in the table. -/
theorem Rows.run (h : Rows files R) (hn : R.length + n = maxWavCnt) (h0 : ∀ v ∈ vs, 0 ∉ v.full)
    (hgood : ∀ v ∈ live n vs, v.Good) :
    ∃ files', vs.foldlM Wav.visitStep files = some files' ∧ files'.inRows = files.inRows ∧
      Rows files' (R ++ recordedPaths (live n vs)) := by
  induction vs generalizing files R n with
  | nil => exact ⟨files, rfl, rfl, by simpa [live, recordedPaths] using h⟩
  | cons v vs ih =>
    cases n with
    | zero =>
      refine ⟨files, foldlM_visitStep_of_full (by rw [h.cnt]; omega) _, rfl, ?_⟩
      simpa [recordedPaths] using h
    | succ n =>
      obtain ⟨files₁, hstep, hin₁, hrows₁⟩ :=
        h.visitStep (by omega) (h0 v (by simp)) (hgood v (by simp [live]))
      have hn₁ : (R ++ if v.recorded then [v.full] else []).length +
          (if v.recorded then n else n + 1) = maxWavCnt := by
        split <;> simp <;> omega
      obtain ⟨files', hrun, hin', hrows'⟩ := ih hrows₁ hn₁ (fun w hw => h0 w (by simp [hw]))
        fun w hw => hgood w (by simp [live, hw])
      refine ⟨files', ?_, hin'.trans hin₁, ?_⟩
      · rw [List.foldlM_cons, hstep]
        exact hrun
      · rwa [live, recordedPaths_cons, ← List.append_assoc]

/-- **Run, backwards**: if no copy leaves its row, all that is read had room. -/
theorem Rows.good_of_run (h : Rows files R) (hn : R.length + n = maxWavCnt)
    (h0 : ∀ v ∈ vs, 0 ∉ v.full) (hrun : vs.foldlM Wav.visitStep files = some files')
    (hin : files'.inRows = true) : ∀ v ∈ live n vs, v.Good := by
  induction vs generalizing files R n with
  | nil => exact fun v hv => absurd hv List.not_mem_nil
  | cons v vs ih =>
    cases n with
    | zero => exact fun w hw => absurd hw (by simp)
    | succ n =>
      rw [List.foldlM_cons] at hrun
      obtain ⟨files₁, h₁, h₂⟩ := Option.bind_eq_some_iff.mp hrun
      have hv := (good_of_visitStep (by rw [h.cnt]; omega) h₁ (inRows_of_foldlM h₂ hin)).1
      obtain ⟨files₂, hstep, -, hrows₁⟩ := h.visitStep (by omega) (h0 v (by simp)) hv
      obtain rfl := Option.some.inj (h₁.symm.trans hstep)
      have hn₁ : (R ++ if v.recorded then [v.full] else []).length +
          (if v.recorded then n else n + 1) = maxWavCnt := by
        split <;> simp <;> omega
      rintro w hw
      rcases List.mem_cons.mp hw with rfl | hw
      · exact hv
      · exact ih hrows₁ hn₁ (fun w hw => h0 w (by simp [hw])) h₂ w hw

end Run

/-! ## What is left out -/

section Complete

variable {l : Listing} {path : List UInt8} {level : ℕ}

/-- If all wanted files are read, no directory that is left out has any. -/
theorem complete_of_subset (hd : l.Distinct)
    (h : ∀ s ∈ wanted l path level, ∃ v ∈ visits l path (level + 1), v.full = s) :
    Complete l path level := by
  induction l generalizing path level with
  | nil => trivial
  | dots entry rest ih =>
    refine ih hd.2 fun s hs => ?_
    obtain ⟨v, hv, rfl⟩ := h s hs
    rcases List.mem_cons.mp hv with rfl | hv
    · exact absurd hs (notMem_wanted hd.1 (under_self path entry.name))
    · exact ⟨v, hv, rfl⟩
  | file name regular rest ih =>
    refine ih hd.2 fun s hs => ?_
    obtain ⟨v, hv, rfl⟩ := h s (List.mem_append_right _ hs)
    rcases List.mem_cons.mp hv with rfl | hv
    · exact absurd hs (notMem_wanted hd.1 (under_self path name))
    · exact ⟨v, hv, rfl⟩
  | dir name opens entries rest ihEntries ihRest =>
    obtain ⟨hname, hentries, hrest⟩ := hd
    -- a wanted file below the entry is read below the entry
    have hbelow : level < 3 → ∀ s ∈ wanted entries (path ++ name.bytes ++ bytes "/") (level + 1),
        (name.hidden = false ∧ opens = true) ∧
          ∃ v ∈ visits entries (path ++ name.bytes ++ bytes "/") (level + 2), v.full = s := by
      intro hlevel s hs
      obtain ⟨v, hv, rfl⟩ := h s (mem_wanted_dir.mpr (.inl ⟨hlevel, hs⟩))
      obtain ⟨n, -, hu⟩ := exists_under_of_mem_wanted hs
      rcases mem_visits_dir hv with hself | ⟨hin, hv⟩ | hv
      · exact absurd hself hu.ne_of_sub
      · exact ⟨hin, v, hv, rfl⟩
      · exact absurd hv (notMem_visits hname hu.of_sub)
    constructor
    · intro hlevel
      split
      · exact ihEntries hentries fun s hs => (hbelow hlevel s hs).2
      · rename_i hout
        exact List.eq_nil_iff_forall_not_mem.mpr fun s hs => hout (hbelow hlevel s hs).1
    · refine ihRest hrest fun s hs => ?_
      obtain ⟨v, hv, rfl⟩ := h s (List.mem_append_right _ hs)
      have hnot : ¬ Under path name v.full := fun hu => notMem_wanted hname hu hs
      rcases mem_visits_dir hv with hself | ⟨-, hv⟩ | hv
      · exact absurd (hself ▸ under_self path name) hnot
      · obtain ⟨n, -, hu⟩ := exists_under_of_mem_visits hv
        exact absurd hu.of_sub hnot
      · exact ⟨v, hv, rfl⟩

/-- A path that is wanted belongs to a regular file. -/
theorem regular_of_mem_wanted (hd : l.Distinct) {v : Visit} (hv : v ∈ visits l path (level + 1))
    (hw : v.full ∈ wanted l path level) : v.regular = true := by
  induction l generalizing path level with
  | nil => exact absurd hv List.not_mem_nil
  | dots entry rest ih =>
    rcases List.mem_cons.mp hv with rfl | hv
    · have hnot : path ++ entry.name.bytes ∉ wanted rest path level :=
        notMem_wanted hd.1 (under_self path entry.name)
      exact absurd hw hnot
    · exact ih hd.2 hv hw
  | file name regular rest ih =>
    rcases List.mem_cons.mp hv with rfl | hv
    · rcases mem_wanted_file hw with ⟨-, hregular⟩ | hw
      · exact hregular
      · exact absurd hw (notMem_wanted hd.1 (under_self path name))
    · rcases mem_wanted_file hw with ⟨hself, -⟩ | hw
      · exact absurd hv (notMem_visits hd.1 (hself ▸ under_self path name))
      · exact ih hd.2 hv hw
  | dir name opens entries rest ihEntries ihRest =>
    obtain ⟨hname, hentries, hrest⟩ := hd
    rcases mem_wanted_dir.mp hw with ⟨-, hw⟩ | hw
    · obtain ⟨n, -, hu⟩ := exists_under_of_mem_wanted hw
      rcases mem_visits_dir hv with hself | ⟨-, hv⟩ | hv
      · exact absurd hself hu.ne_of_sub
      · exact ihEntries hentries hv hw
      · exact absurd hv (notMem_visits hname hu.of_sub)
    · have hnot : ¬ Under path name v.full := fun hu => notMem_wanted hname hu hw
      rcases mem_visits_dir hv with hself | ⟨-, hv⟩ | hv
      · exact absurd (hself ▸ under_self path name) hnot
      · obtain ⟨n, -, hu⟩ := exists_under_of_mem_visits hv
        exact absurd hu.of_sub hnot
      · exact ihRest hrest hv hw

/-- The regular files that get a row. -/
def recordedFiles (vs : List Visit) : List (List UInt8) :=
  (vs.filter fun v => v.recorded && v.regular).map Visit.full

theorem recordedFiles_cons (v : Visit) (vs : List Visit) :
    recordedFiles (v :: vs) =
      (if v.recorded = true ∧ v.regular = true then [v.full] else []) ++ recordedFiles vs := by
  cases h : v.recorded <;> cases h' : v.regular <;> simp [recordedFiles, h, h']

theorem recordedFiles_append (vs ws : List Visit) :
    recordedFiles (vs ++ ws) = recordedFiles vs ++ recordedFiles ws := by
  simp [recordedFiles]

/-- If no directory that is left out has a wanted file, the wanted files are the regular ones that
get a row. -/
theorem wanted_eq (hslash : path.getLast? = some 47) (h : Complete l path level) :
    wanted l path level = recordedFiles (visits l path (level + 1)) := by
  induction l generalizing path level with
  | nil => rfl
  | dots entry rest ih =>
    rw [wanted, visits, recordedFiles_cons, ih hslash h, if_neg (by simp [Visit.recorded]),
      List.nil_append]
  | file name regular rest ih =>
    rw [wanted, visits, recordedFiles_cons, ih hslash h]
    simp only [recorded_iff hslash, and_comm]
  | dir name opens entries rest ihEntries ihRest =>
    obtain ⟨hsub, hrest⟩ := h
    have hslash' : (path ++ name.bytes ++ bytes "/").getLast? = some 47 := List.getLast?_append_cons ..
    rw [wanted, visits, ihRest hslash hrest]
    split
    · rename_i hlevel
      have hsub := hsub hlevel
      split at hsub
      · rename_i hin
        rw [if_pos ⟨hin.1, by omega⟩, recordedFiles_cons, if_neg (by simp), List.nil_append,
          recordedFiles_append, if_pos hin.2, ihEntries hslash' hsub]
      · rename_i hout
        rw [hsub]
        split
        · rename_i hin
          rw [recordedFiles_cons, if_neg (by simp), if_neg (fun hopens => hout ⟨hin.1, hopens⟩)]
          rfl
        · rw [recordedFiles_cons, if_neg (by simp)]
    · rename_i hlevel
      rw [if_neg (by omega), recordedFiles_cons, if_neg (by simp)]

end Complete

/-! ## The collection -/

section Collect

variable {root : Dir} {path : List UInt8}

/-- The entries below a directory in the order in which they are read. -/
def Dir.visits (root : Dir) (path : List UInt8) : List Visit :=
  if root.opens then Wav.visits root.entries path 1 else []

/-- The paths of the wanted files below a directory. -/
def Dir.wanted (root : Dir) (path : List UInt8) : List (List UInt8) := Wav.wanted root.entries path 0

/-- No wanted file is in a directory that is left out. -/
def Dir.Complete (root : Dir) (path : List UInt8) : Prop :=
  if root.opens then Wav.Complete root.entries path 0 else root.wanted path = []

instance (root : Dir) (path : List UInt8) : Decidable (root.Complete path) :=
  inferInstanceAs (Decidable
    (if root.opens then Wav.Complete root.entries path 0 else root.wanted path = []))

/-- Whatever the table held before, `trave_dir` fills its first rows with the wanted paths in their
order, and leaves neither `full_path` nor a row. -/
def KeptExactly (root : Dir) (path : List UInt8) : Prop :=
  ∀ table : List UInt8, table.length = maxWavCnt * 64 →
    ∃ res files, traveDir root path 1 ⟨table, 0, true⟩ = some (res, files) ∧
      files.inRows = true ∧ files.fileCnt = (root.wanted path).length ∧
      ∀ i (hi : i < (root.wanted path).length), files.row i = (root.wanted path)[i]

/-- Of the entries that are read before the table is full, every path has room in `full_path`, also
where the entry is `.` or `..`; every one that gets a row has room there and is a regular file; and no
wanted file is left out. -/
structure Collectable (root : Dir) (path : List UInt8) : Prop where
  fits : ∀ v ∈ live maxWavCnt (root.visits path), v.Fits
  rows : ∀ v ∈ live maxWavCnt (root.visits path), v.recorded = true → v.full.length < 64
  regular : ∀ v ∈ live maxWavCnt (root.visits path), v.recorded = true → v.regular = true
  complete : root.Complete path

theorem nul_notMem_visits {l : Listing} {depth : ℕ} (h : 0 ∉ path) :
    ∀ v ∈ Wav.visits l path depth, 0 ∉ v.full := by
  intro v hv
  induction l generalizing path depth with
  | nil => exact absurd hv List.not_mem_nil
  | dots entry rest ih =>
    rcases List.mem_cons.mp hv with rfl | hv
    · exact nul_notMem_full h entry.name
    · exact ih h hv
  | file name regular rest ih =>
    rcases List.mem_cons.mp hv with rfl | hv
    · exact nul_notMem_full h name
    · exact ih h hv
  | dir name opens entries rest ihEntries ihRest =>
    rcases mem_visits_dir hv with hself | ⟨-, hv⟩ | hv
    · exact hself ▸ nul_notMem_full h name
    · exact ihEntries (nul_notMem_slash (nul_notMem_full h name)) hv
    · exact ihRest h hv

theorem traveDir_eq (root : Dir) (h : 0 ∉ path) (files : Files) :
    (traveDir root path 1 files).map Prod.snd = (root.visits path).foldlM visitStep files := by
  rw [traveDir, Dir.visits]
  split
  · rw [Option.map_map, traveLoop_eq_foldlM _ h]
    exact Option.map_id'
  · rfl

theorem live_sublist (n : ℕ) (vs : List Visit) : (live n vs).Sublist vs := by
  induction vs generalizing n with
  | nil => exact List.Sublist.refl _
  | cons v vs ih =>
    cases n with
    | zero => exact List.nil_sublist _
    | succ n => exact (ih _).cons_cons v

/-- Where only regular files get a row, and there are enough rows, all of them get one. -/
theorem recordedPaths_live {n : ℕ} {vs : List Visit}
    (hregular : ∀ v ∈ live n vs, v.recorded = true → v.regular = true)
    (hlen : (recordedFiles vs).length ≤ n) : recordedPaths (live n vs) = recordedFiles vs := by
  induction vs generalizing n with
  | nil => rfl
  | cons v vs ih =>
    cases n with
    | zero =>
      rw [live_zero, List.eq_nil_of_length_eq_zero (Nat.le_zero.mp hlen)]
      rfl
    | succ n =>
      have hv : v.recorded = true → v.regular = true := hregular v List.mem_cons_self
      simp only [recordedFiles_cons, and_iff_left_of_imp hv] at hlen ⊢
      rw [live, recordedPaths_cons]
      congr 1
      refine ih (fun w hw => hregular w (List.mem_cons_of_mem _ hw)) ?_
      rw [List.length_append] at hlen
      split at hlen
      · rename_i hrec
        rw [if_pos hrec]
        rw [List.length_singleton] at hlen
        omega
      · rename_i hrec
        rw [if_neg hrec]
        rwa [List.length_nil, Nat.zero_add] at hlen

theorem nul_notMem_dir_visits (root : Dir) (h0 : 0 ∉ path) : ∀ v ∈ root.visits path, 0 ∉ v.full := by
  intro v hv
  rw [Dir.visits] at hv
  split at hv
  · exact nul_notMem_visits h0 v hv
  · exact absurd hv List.not_mem_nil

/-- An empty table has no rows. -/
theorem rows_nil {table : List UInt8} (hsize : table.length = maxWavCnt * 64) :
    Rows ⟨table, 0, true⟩ [] :=
  ⟨rfl, hsize, fun i hi => absurd hi (Nat.not_lt_zero i)⟩

theorem collectable_of_collected (h0 : 0 ∉ path) (h : KeptExactly root path) :
    Collectable root path := by
  have hsize : (List.replicate (maxWavCnt * 64) (0 : UInt8)).length = maxWavCnt * 64 :=
    List.length_replicate
  obtain ⟨res, files, hdir, hin, hcnt, hrow⟩ := h _ hsize
  have hnul := nul_notMem_dir_visits root h0
  have hrows := rows_nil hsize
  have hrun := traveDir_eq root h0 ⟨List.replicate (maxWavCnt * 64) 0, 0, true⟩
  rw [hdir, Option.map_some] at hrun
  have hgood := hrows.good_of_run (Nat.zero_add _) hnul hrun.symm hin
  obtain ⟨files', hrun', -, hrows'⟩ := hrows.run (Nat.zero_add _) hnul hgood
  obtain rfl := Option.some.inj (hrun.trans hrun')
  rw [List.nil_append] at hrows'
  have heq : recordedPaths (live maxWavCnt (root.visits path)) = root.wanted path := by
    refine List.ext_getElem (hrows'.cnt.symm.trans hcnt) fun i hi hi' => ?_
    exact (hrows'.row hi).symm.trans (hrow i hi')
  refine ⟨fun v hv => (hgood v hv).1, fun v hv => (hgood v hv).2, ?_, ?_⟩
  · intro v hv hrec
    have hmem : v.full ∈ root.wanted path := by
      rw [← heq]
      exact List.mem_map_of_mem (List.mem_filter.mpr ⟨hv, hrec⟩)
    have hvisit := (live_sublist _ _).subset hv
    rw [Dir.visits] at hvisit
    split at hvisit
    · exact regular_of_mem_wanted root.distinct hvisit hmem
    · exact absurd hvisit List.not_mem_nil
  · rw [Dir.Complete]
    rw [Dir.visits] at heq
    split
    · rename_i hopens
      rw [if_pos hopens] at heq
      refine complete_of_subset root.distinct fun s hs => ?_
      rw [← Dir.wanted, ← heq] at hs
      obtain ⟨v, hv, hfull⟩ := List.mem_map.mp hs
      exact ⟨v, (live_sublist _ _).subset (List.mem_filter.mp hv).1, hfull⟩
    · rename_i hopens
      rw [if_neg hopens] at heq
      exact heq.symm

theorem recordedFiles_visits (hslash : path.getLast? = some 47) (h : root.Complete path) :
    recordedFiles (root.visits path) = root.wanted path := by
  rw [Dir.Complete] at h
  rw [Dir.visits]
  split at h
  · rename_i hopens
    rw [if_pos hopens]
    exact (wanted_eq hslash h).symm
  · rename_i hopens
    rw [if_neg hopens, h]
    rfl

/-- **The collection**: the table is what is wanted exactly if everything that is read has room, only
regular files get a row, and no wanted file is left out. -/
theorem collected_iff (h0 : 0 ∉ path) (hslash : path.getLast? = some 47)
    (hmax : (root.wanted path).length ≤ maxWavCnt) : KeptExactly root path ↔ Collectable root path := by
  refine ⟨collectable_of_collected h0, ?_⟩
  rintro ⟨hfits, hlong, hregular, hcomplete⟩ table hsize
  obtain ⟨files, hrun, hin, hrows⟩ := (rows_nil hsize).run (Nat.zero_add _)
    (nul_notMem_dir_visits root h0) fun v hv => ⟨hfits v hv, hlong v hv⟩
  have heq : recordedPaths (live maxWavCnt (root.visits path)) = root.wanted path := by
    have hfiles := recordedFiles_visits hslash hcomplete
    rw [← hfiles] at hmax ⊢
    exact recordedPaths_live hregular hmax
  rw [List.nil_append, heq] at hrows
  rw [← traveDir_eq root h0] at hrun
  obtain ⟨⟨res, files'⟩, hdir, rfl⟩ := Option.map_eq_some_iff.mp hrun
  exact ⟨res, files', hdir, hin, hrows.cnt, fun i hi => hrows.row hi⟩

/-- A name of letters and dots. -/
def plainName (s : String) (h : bytes s ≠ [] ∧ 0 ∉ bytes s ∧ 47 ∉ bytes s) : Name :=
  ⟨bytes s, h.1, h.2.1, h.2.2⟩

/-- `.` and `..` in front of the other entries. -/
def Listing.behindDots (l : Listing) : Listing := .dots .self (.dots .parent l)

/-- `a/b/c/` with one entry more, the directory `d.wav`. -/
def deepDir : Dir where
  opens := true
  entries := .behindDots <| .dir (plainName "a" (by decide)) true
    (.behindDots <| .dir (plainName "b" (by decide)) true
      (.behindDots <| .dir (plainName "c" (by decide)) true
        (.behindDots <| .dir (plainName "d.wav" (by decide)) true (.behindDots .nil) .nil) .nil)
      .nil) .nil
  distinct := by decide
  dots := by decide
  dotted := by decide

/-- A file whose path has 64 characters below `w/`. -/
def longName : Dir where
  opens := true
  entries := .behindDots <|
    .file (plainName "abcdefghijklmnopqrstuvwxyzabcdefghijklmnopqrstuvwxyzabcdef.wav"
      (by decide)) true .nil
  distinct := by decide
  dots := by decide
  dotted := by decide

/-- A directory with nothing in it. -/
def emptyDir : Dir where
  opens := true
  entries := .behindDots .nil
  distinct := by decide
  dots := by decide
  dotted := by decide

/-- The directory `w/a/b/c/d.wav` gets a row, the path of 64 characters leaves its row, and behind a
path of 126 bytes there is no room for `..`. -/
theorem not_collected_deepDir_longName_emptyDir :
    ¬ KeptExactly deepDir (bytes "w/") ∧ ¬ KeptExactly longName (bytes "w/") ∧
      ¬ KeptExactly emptyDir (List.replicate 125 120 ++ bytes "/") := by
  refine ⟨?_, ?_, ?_⟩
  · intro h
    have hregular := (collectable_of_collected (by decide) h).regular
      ⟨bytes "w/a/b/c/d.wav", false, false, false⟩ (by decide) (by decide)
    cases hregular
  · intro h
    have hlong := (collectable_of_collected (by decide) h).rows
      ⟨bytes "w/abcdefghijklmnopqrstuvwxyzabcdefghijklmnopqrstuvwxyzabcdef.wav", false, true, false⟩
      (by decide) (by decide)
    exact absurd hlong (by decide)
  · intro h
    have hfits := (collectable_of_collected (nul_notMem_slash (by simp)) h).fits
      ⟨List.replicate 125 120 ++ bytes "/" ++ bytes "..", true, false, false⟩ (by decide +kernel)
    exact absurd hfits (by decide +kernel)

/-- Two wav files and a directory `sub.wav` with a third one, a text, a hidden directory and a
directory three levels down; `.` and `..` stand between other entries. -/
def recordings : Dir where
  opens := true
  entries := .file (plainName "b.wav" (by decide)) true <| .dots .parent <|
    .dir (plainName "sub.wav" (by decide)) true
      (.dots .self <| .file (plainName "a.wav" (by decide)) true <| .dots .parent <|
        .file (plainName "a.txt" (by decide)) true <|
        .dir (plainName "x" (by decide)) true
          (.behindDots <| .dir (plainName "y" (by decide)) true
            (.behindDots <| .file (plainName "d.wav" (by decide)) true .nil) .nil) .nil) <|
    .file (plainName ".a.wav" (by decide)) true <|
    .dir (plainName ".git" (by decide)) true
      (.behindDots <| .file (plainName "HEAD" (by decide)) true .nil) <|
    .dots .self <| .file (plainName "c.wav" (by decide)) true .nil
  distinct := by decide
  dots := by decide
  dotted := by decide

theorem collected_recordings :
    KeptExactly recordings (bytes "w/") ∧
      recordings.wanted (bytes "w/") =
        [bytes "w/b.wav", bytes "w/sub.wav/a.wav", bytes "w/sub.wav/x/y/d.wav", bytes "w/c.wav"] := by
  refine ⟨(collected_iff (by decide) (by decide) (by decide)).mpr ⟨?_, ?_, ?_, ?_⟩, by decide⟩
  · decide
  · decide
  · decide
  · decide

/-- The wanted paths are distinct. -/
theorem wanted_nodup {l : Listing} {level : ℕ} (hd : l.Distinct) : (wanted l path level).Nodup := by
  induction l generalizing path level with
  | nil => exact List.nodup_nil
  | dots entry rest ih => exact ih hd.2
  | file name regular rest ih =>
    rw [wanted]
    split
    · exact List.nodup_cons.mpr ⟨notMem_wanted hd.1 (under_self path name), ih hd.2⟩
    · exact ih hd.2
  | dir name opens entries rest ihEntries ihRest =>
    obtain ⟨hname, hentries, hrest⟩ := hd
    rw [wanted]
    split
    · refine List.nodup_append.mpr ⟨ihEntries hentries, ihRest hrest, ?_⟩
      rintro s hs _ hs' rfl
      obtain ⟨n, -, hu⟩ := exists_under_of_mem_wanted hs
      exact notMem_wanted hname hu.of_sub hs'
    · exact ihRest hrest

end Collect

end MaixSpeech.Wav
