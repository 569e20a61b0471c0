import MaixSpeech.Common.CMake.Roundtrip
import Mathlib.Data.List.Nodup

/-!
# The CMake file that `genconfig.py` generates

Reference: `tools/kconfig/genconfig.py`.

`_cmake_contents` prints the value of every symbol between quotes, as it is. CMake reads the file
back to these values exactly when each of them is plain (`decodes_iff`): a value with a quote, a
backslash or a reference in it becomes another value, or an error, or takes the lines behind it
with it.
-/

namespace MaixSpeech.Build

open Common Common.CMake

/-! ## Symbols -/

/-- `orig_type`. -/
inductive SymbolType where
  | unknown | bool | tristate | string | int | hex
deriving DecidableEq

/-- What a symbol of `kconfiglib` is asked for. -/
structure Symbol where
  name : Text
  origType : SymbolType
  strValue : Text
  writeToConf : Bool

/-- `[A-Za-z0-9_$/.-]`. -/
def isSymbolChar (c : Char) : Bool :=
  c.isAlphanum || c = '_' || c = '$' || c = '/' || c = '.' || c = '-'

/-- The symbols `kconfiglib` supplies, with their values on one line. -/
structure Kconfig where
  uniqueDefinedSyms : List Symbol
  names : ∀ sym ∈ uniqueDefinedSyms, ∀ c ∈ sym.name, isSymbolChar c = true
  unique : (uniqueDefinedSyms.map (·.name)).Nodup
  oneLine : ∀ sym ∈ uniqueDefinedSyms, '\n' ∉ sym.strValue

/-- `config_prefix`, when the environment does not set `CONFIG_`. -/
def configPrefix : Text := "CONFIG_".toList

/-- The name of a symbol's variable. -/
def Symbol.configVar (sym : Symbol) : Text := configPrefix ++ sym.name

/-! ## The script -/

/-- The text for the value of a symbol: `n` is the empty one. -/
def cmakeVal (sym : Symbol) : Text :=
  if (sym.origType = .bool ∨ sym.origType = .tristate) ∧ sym.strValue = ['n'] then []
  else sym.strValue

/-- One turn of the loop of `_cmake_contents`, on `chunks` and `config_vars`. -/
def cmakeStep (st : List Text × List Text) (sym : Symbol) : List Text × List Text :=
  if !sym.writeToConf then st
  else
    (st.1 ++ [pyFormat "set({}{} \"{}\")\n".toList [configPrefix, sym.name, cmakeVal sym]],
      st.2 ++ [configPrefix ++ sym.name])

/-- `_cmake_contents`. -/
def cmakeContents (kconfig : Kconfig) (header : Text) : Text :=
  let st := kconfig.uniqueDefinedSyms.foldl cmakeStep ([header], [])
  (st.1 ++ [pyFormat "set(CONFIGS_LIST {})\n".toList [[';'].intercalate st.2]]).flatten

/-- `cmake_conf_header`. -/
def cmakeConfHeader : Text := textLines
  ["# Generated by c_cpp_project_framework(https://github.com/Neutree/c_cpp_project_framework)",
    "### DO NOT edit this file!! ###",
    ""]

/-- The file behind `write_cmake`, which does not touch one that is up to date. -/
def writeCmake (kconfig : Kconfig) (file : Option Text) : Option Text :=
  let content := cmakeContents kconfig cmakeConfHeader
  if file = some content then file else some content

/-! ## What the file is for -/

/-- The name of the variable that lists the others. -/
def configsList : Text := "CONFIGS_LIST".toList

/-- The symbols with a line in the file. -/
def Kconfig.written (kconfig : Kconfig) : List Symbol :=
  kconfig.uniqueDefinedSyms.filter (·.writeToConf)

/-- CMake reads the file back: in whatever scope it is included, every variable of a symbol has the
symbol's value, `CONFIGS_LIST` lists these variables, and others stay as they are. -/
def Decodes (kconfig : Kconfig) : Prop :=
  ∀ file outer vars, ∃ vars', (writeCmake kconfig file).bind (readFile outer vars) = some vars' ∧
    (∀ sym ∈ kconfig.written, vars' sym.configVar = some (cmakeVal sym)) ∧
    ((vars' configsList).map listElements).getD [] = kconfig.written.map (·.configVar) ∧
    ∀ w, w ≠ configsList → w ∉ kconfig.written.map (·.configVar) → vars' w = vars w

variable (kconfig : Kconfig)

/-! ## The lines of the file -/

/-- The variables of the file and their values. -/
def Kconfig.vals : List (Text × Text) :=
  kconfig.written.map fun sym => (sym.configVar, cmakeVal sym)

/-- The last line of the file. -/
def Kconfig.listLine : Text × Text :=
  (configsList, [';'].intercalate (kconfig.written.map (·.configVar)))

theorem Kconfig.map_vals : kconfig.vals.map (·.1) = kconfig.written.map (·.configVar) := by
  simp [Kconfig.vals]

theorem pyFormat_set (sym : Symbol) :
    pyFormat "set({}{} \"{}\")\n".toList [configPrefix, sym.name, cmakeVal sym] =
      quotedLine sym.configVar (cmakeVal sym) := by
  have hformat : ∀ a b c : Text, pyFormat "set({}{} \"{}\")\n".toList [a, b, c] =
      's' :: 'e' :: 't' :: '(' :: (a ++ (b ++ ' ' :: '"' :: (c ++ ['"', ')', '\n']))) :=
    fun _ _ _ => rfl
  rw [hformat, quotedLine, setLine, Symbol.configVar]
  simp

theorem pyFormat_list (body : Text) :
    pyFormat "set(CONFIGS_LIST {})\n".toList [body] = setLine configsList body := by
  rfl

theorem foldl_cmakeStep (syms : List Symbol) (chunks configVars : List Text) :
    syms.foldl cmakeStep (chunks, configVars) =
      (chunks ++ (syms.filter (·.writeToConf)).map fun sym =>
          quotedLine sym.configVar (cmakeVal sym),
        configVars ++ (syms.filter (·.writeToConf)).map (·.configVar)) := by
  induction syms generalizing chunks configVars with
  | nil => simp
  | cons sym syms ih =>
    cases hwrite : sym.writeToConf with
    | false => simp [cmakeStep, hwrite, ih]
    | true =>
      have hstep : cmakeStep (chunks, configVars) sym =
          (chunks ++ [quotedLine sym.configVar (cmakeVal sym)], configVars ++ [sym.configVar]) := by
        rw [cmakeStep, pyFormat_set, hwrite]
        rfl
      rw [List.foldl_cons, hstep, ih]
      simp [hwrite]

theorem linesText_vals : linesText (quotedLines kconfig.vals) =
    (kconfig.written.map fun sym => quotedLine sym.configVar (cmakeVal sym)).flatten := by
  simp only [linesText, quotedLines, Kconfig.vals, List.flatMap_def, List.map_map]
  rfl

/-- The file is its header and one line for each symbol, then the list. -/
theorem cmakeContents_eq (header : Text) : cmakeContents kconfig header =
    header ++ linesText (quotedLines kconfig.vals ++ [kconfig.listLine]) := by
  have hlist : linesText [kconfig.listLine] = setLine kconfig.listLine.1 kconfig.listLine.2 :=
    List.append_nil _
  rw [cmakeContents, foldl_cmakeStep, pyFormat_list, List.nil_append]
  rw [linesText, List.flatMap_append, ← linesText, ← linesText, linesText_vals, hlist]
  simp [Kconfig.written, Kconfig.listLine]

theorem writeCmake_eq (file : Option Text) :
    writeCmake kconfig file = some (cmakeContents kconfig cmakeConfHeader) := by
  rw [writeCmake]
  split
  · assumption
  · rfl

/-- The header is two comments and an empty line. -/
theorem cmakeConfHeader_eq : ∃ p q : Text, '\n' ∉ p ∧ '\n' ∉ q ∧
    cmakeConfHeader = '#' :: (p ++ '\n' :: '#' :: (q ++ ['\n', '\n'])) := by
  obtain ⟨p, hp, hpnl⟩ : ∃ p : Text, String.toList
      "# Generated by c_cpp_project_framework(https://github.com/Neutree/c_cpp_project_framework)" =
        '#' :: p ∧ '\n' ∉ p := ⟨_, rfl, by decide +kernel⟩
  obtain ⟨q, hq, hqnl⟩ : ∃ q : Text, "### DO NOT edit this file!! ###".toList = '#' :: q ∧
      '\n' ∉ q := ⟨_, rfl, by decide +kernel⟩
  refine ⟨p, q, hpnl, hqnl, ?_⟩
  rw [cmakeConfHeader, textLines, List.flatMap_cons, List.flatMap_cons, List.flatMap_cons,
    List.flatMap_nil, hp, hq]
  simp

theorem five_le_length_header : 5 ≤ cmakeConfHeader.length := by
  obtain ⟨p, q, -, -, hheader⟩ := cmakeConfHeader_eq
  rw [hheader]
  simp only [List.length_cons, List.length_append, List.length_nil]
  omega

/-- CMake skips the header. -/
theorem readLines_header (outer : Outer) (n : ℕ) (vars : Vars) (t : Text) :
    readLines outer (n + 5) vars (cmakeConfHeader ++ t) = readLines outer n vars t := by
  obtain ⟨p, q, hp, hq, hheader⟩ := cmakeConfHeader_eq
  have hlines : cmakeConfHeader ++ t = '#' :: (p ++ '\n' :: '#' :: (q ++ '\n' :: '\n' :: t)) := by
    rw [hheader]
    simp
  rw [hlines, readLines_comment outer (n + 3) vars hp, readLines_comment outer (n + 1) vars hq]
  rfl

/-! ## Names -/

theorem isWordChar_of_isSymbolChar {c : Char} (hc : isSymbolChar c = true) :
    isWordChar c = true := by
  simp only [isSymbolChar, isWordChar, isNameChar, Bool.or_eq_true, decide_eq_true_eq] at hc ⊢
  tauto

theorem isWord_configsList : IsWord configsList :=
  ⟨by decide, List.all_eq_true.mp (by decide)⟩

theorem Kconfig.isWord_configVar {sym : Symbol} (hsym : sym ∈ kconfig.written) :
    IsWord sym.configVar := by
  refine ⟨List.append_ne_nil_of_left_ne_nil (by decide) _, fun c hc => ?_⟩
  rcases List.mem_append.mp hc with hc | hc
  · exact List.all_eq_true.mp (by decide : configPrefix.all isWordChar = true) c hc
  · exact isWordChar_of_isSymbolChar (kconfig.names sym (List.mem_of_mem_filter hsym) c hc)

/-- The name of a symbol's variable is none of the words with another meaning. -/
theorem Symbol.configVar_ne (sym : Symbol) : sym.configVar ≠ configsList ∧
    sym.configVar ≠ "PARENT_SCOPE".toList ∧ sym.configVar ≠ "CACHE".toList := by
  have hprefix : configPrefix <+: sym.configVar := List.prefix_append _ _
  refine ⟨fun h => ?_, fun h => ?_, fun h => ?_⟩ <;>
  · rw [h] at hprefix
    exact absurd hprefix (by decide)

theorem Kconfig.nodup_configVar : (kconfig.written.map (·.configVar)).Nodup := by
  have hnames : (kconfig.written.map (·.name)).Nodup :=
    kconfig.unique.sublist (List.filter_sublist.map _)
  rw [show (fun sym : Symbol => sym.configVar) = (configPrefix ++ ·) ∘ (·.name) from rfl,
    ← List.map_map]
  exact List.Nodup.map (List.append_right_injective configPrefix) hnames

theorem Kconfig.vals_spec {l : Text × Text} (hl : l ∈ kconfig.vals) :
    IsWord l.1 ∧ '\n' ∉ l.2 := by
  obtain ⟨sym, hsym, rfl⟩ := List.mem_map.mp hl
  refine ⟨kconfig.isWord_configVar hsym, ?_⟩
  simp only [cmakeVal]
  split
  · exact List.not_mem_nil
  · exact kconfig.oneLine sym (List.mem_of_mem_filter hsym)

theorem Kconfig.isWord_of_mem {w : Text} (hw : w ∈ kconfig.written.map (·.configVar)) :
    IsWord w := by
  obtain ⟨sym, hsym, rfl⟩ := List.mem_map.mp hw
  exact kconfig.isWord_configVar hsym

theorem Kconfig.ne_of_mem {w : Text} (hw : w ∈ kconfig.written.map (·.configVar)) :
    w ≠ configsList ∧ w ≠ "PARENT_SCOPE".toList ∧ w ≠ "CACHE".toList := by
  obtain ⟨sym, -, rfl⟩ := List.mem_map.mp hw
  exact sym.configVar_ne

/-! ## Reading the file -/

/-- The variables behind a file whose values are plain. -/
theorem readFile_of_plain (h : ∀ sym ∈ kconfig.written, PlainValue (cmakeVal sym)) (outer : Outer)
    (vars : Vars) : readFile outer vars (cmakeContents kconfig cmakeConfHeader) =
      some (Function.update (setAll vars kconfig.vals) configsList
        (if kconfig.written.map (·.configVar) = [] then none else some kconfig.listLine.2)) := by
  have hvals : ∀ l ∈ kconfig.vals, IsWord l.1 ∧ PlainValue l.2 := by
    intro l hl
    refine ⟨(kconfig.vals_spec hl).1, ?_⟩
    obtain ⟨sym, hsym, rfl⟩ := List.mem_map.mp hl
    exact h sym hsym
  have hlines : linesText (quotedLines kconfig.vals ++ [kconfig.listLine]) =
      linesText (quotedLines kconfig.vals) ++ setLine kconfig.listLine.1 kconfig.listLine.2 := by
    rw [linesText, List.flatMap_append]
    exact congrArg _ (List.append_nil _)
  -- a command for each line, and some fuel more
  obtain ⟨n, hn⟩ : ∃ n, (cmakeConfHeader ++ linesText (quotedLines kconfig.vals ++
      [kconfig.listLine])).length = n + 1 + kconfig.vals.length + 5 := by
    have hheader := five_le_length_header
    have hlen := length_le_linesText (quotedLines kconfig.vals ++ [kconfig.listLine])
    rw [List.length_append, quotedLines, List.length_map, List.length_singleton] at hlen
    refine ⟨cmakeConfHeader.length - 5 + ((linesText (quotedLines kconfig.vals ++
      [kconfig.listLine])).length - (kconfig.vals.length + 1)), ?_⟩
    rw [List.length_append]
    rw [quotedLines]
    omega
  have hlist := readCommand_list outer (setAll vars kconfig.vals) isWord_configsList
    (fun w hw => kconfig.isWord_of_mem hw) (fun hw => (kconfig.ne_of_mem hw).2.1 rfl)
    (fun hw => (kconfig.ne_of_mem hw).2.2 rfl) []
  rw [List.append_nil] at hlist
  rw [cmakeContents_eq, readFile, hn, readLines_header, hlines, readLines_plain outer vars hvals]
  rw [← List.append_nil (setLine _ _), readLines_setLine, List.append_nil, Kconfig.listLine, hlist]
  cases n <;> rfl

theorem decodes_of_plain (h : ∀ sym ∈ kconfig.written, PlainValue (cmakeVal sym)) :
    Decodes kconfig := by
  intro file outer vars
  refine ⟨_, by rw [writeCmake_eq]; exact readFile_of_plain kconfig h outer vars, ?_, ?_, ?_⟩
  · intro sym hsym
    have hmem : (sym.configVar, cmakeVal sym) ∈ kconfig.vals := List.mem_map_of_mem hsym
    have hnodup : (kconfig.vals.map (·.1)).Nodup := kconfig.map_vals ▸ kconfig.nodup_configVar
    rw [Function.update_of_ne sym.configVar_ne.1]
    exact setAll_of_mem hnodup hmem vars
  · rw [Function.update_self]
    split
    · rename_i hnil
      rw [hnil]
      rfl
    · exact listElements_intercalate fun w hw => kconfig.isWord_of_mem hw
  · intro w hlist hw
    rw [Function.update_of_ne hlist]
    exact setAll_of_notMem (kconfig.map_vals ▸ hw) vars

/-- Where nothing else is set, only plain values come back. -/
theorem plain_of_decodes (h : Decodes kconfig) :
    ∀ sym ∈ kconfig.written, PlainValue (cmakeVal sym) := by
  obtain ⟨vars', hread, hset, hlist, -⟩ := h none ⟨fun _ => [], fun _ => []⟩ fun _ => none
  rw [writeCmake_eq, Option.bind_some, cmakeContents_eq, readFile] at hread
  obtain ⟨n, hn⟩ : ∃ n, (cmakeConfHeader ++ linesText (quotedLines kconfig.vals ++
      [kconfig.listLine])).length = n + 5 := by
    refine ⟨_, (Nat.sub_add_cancel (five_le_length_header.trans ?_)).symm⟩
    rw [List.length_append]
    exact Nat.le_add_right _ _
  rw [hn, readLines_header] at hread
  intro sym hsym
  have hsetLast : vars' configsList ≠ none := by
    intro hnone
    rw [hnone] at hlist
    exact List.ne_nil_of_mem (List.mem_map_of_mem hsym) hlist.symm
  have hlast : IsWord kconfig.listLine.1 ∧ '\n' ∉ kconfig.listLine.2 := by
    refine ⟨isWord_configsList, fun hnl => ?_⟩
    rcases mem_intercalate hnl with heq | ⟨w, hw, hc⟩
    · exact absurd heq (by decide)
    · exact absurd ((kconfig.isWord_of_mem hw).chars _ hc) (by decide)
  have hnodup : (kconfig.vals.map (·.1) ++ [kconfig.listLine.1]).Nodup := by
    rw [kconfig.map_vals, List.nodup_append]
    refine ⟨kconfig.nodup_configVar, List.nodup_singleton _, fun w hw v hv => ?_⟩
    rw [List.mem_singleton.mp hv]
    exact (kconfig.ne_of_mem hw).1
  have hharmless : Harmless ⟨fun _ => [], fun _ => []⟩ fun _ => none := by
    intro k w
    cases k <;> exact ⟨rfl, List.not_mem_nil⟩
  have hplain := plain_of_readLines hharmless (fun l hl => kconfig.vals_spec hl) hlast hnodup
    (fun _ _ => rfl) hread
    (fun l hl => by
      obtain ⟨sym', hsym', rfl⟩ := List.mem_map.mp hl
      exact hset sym' hsym')
    hsetLast
  exact hplain _ (List.mem_map_of_mem hsym)

/-- **CMake reads the file back exactly when every value in it is plain.** -/
theorem decodes_iff : Decodes kconfig ↔ ∀ sym ∈ kconfig.written, PlainValue (cmakeVal sym) :=
  ⟨plain_of_decodes kconfig, decodes_of_plain kconfig⟩

/-- The symbol of the toolchain's path, with this value. -/
def toolchainPath (val : Text) (hval : '\n' ∉ val) : Kconfig where
  uniqueDefinedSyms := [⟨"TOOLCHAIN_PATH".toList, .string, val, true⟩]
  names := by
    rintro sym hsym c hc
    rw [List.mem_singleton.mp hsym] at hc
    exact List.all_eq_true.mp (by decide : "TOOLCHAIN_PATH".toList.all isSymbolChar = true) c hc
  unique := List.nodup_singleton _
  oneLine := by simpa using hval

/-- A backslash, a quote or a reference in the path does not come back. -/
theorem not_decodes_backslash_or_quote_or_reference :
    ¬ Decodes (toolchainPath "C:\\tools".toList (by decide)) ∧
      ¬ Decodes (toolchainPath "a\"b".toList (by decide)) ∧
      ¬ Decodes (toolchainPath "$\x7bHOME\x7d/gcc".toList (by decide)) := by
  refine ⟨fun h => ?_, fun h => ?_, fun h => ?_⟩ <;>
  exact absurd (plain_of_decodes _ h _ List.mem_cons_self) (by decide +kernel)

end MaixSpeech.Build
