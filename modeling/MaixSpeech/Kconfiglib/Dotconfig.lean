import MaixSpeech.Common.PyLines
import MaixSpeech.Kconfiglib.Values

/-!
# The `.config` file

Reference: `tools/kconfig/Kconfiglib/kconfiglib.py`.

`write_config` walks the menu tree and writes a line for each symbol that has one; `load_config` reads
such lines as assignments. The writer asks for values through the caches, the loader sets them with
`set_value` and, when it replaces the configuration, unsets what no line has set.
-/

namespace MaixSpeech.Kconfiglib

open Common Common.Memo Build

variable {S C : Type}

/-! ## Strings -/

/-- `escape`. -/
def escape (s : Text) : Text := pyReplace ['"'] ['\\', '"'] (pyReplace ['\\'] ['\\', '\\'] s)

/-- `unescape`. -/
def unescape : Text → Text
  | '\\' :: c :: s => if c = '\n' then '\\' :: unescape (c :: s) else c :: unescape s
  | c :: s => c :: unescape s
  | [] => []

/-- The group of `_conf_string_match`, behind the opening quote. -/
def confStringBody : Text → Option Text
  | '"' :: _ => some []
  | '\\' :: c :: s => if c = '\n' then none else (confStringBody s).map fun g => '\\' :: c :: g
  | ['\\'] => none
  | c :: s => (confStringBody s).map (c :: ·)
  | [] => none

/-- `_conf_string_match`. -/
def confStringMatch : Text → Option Text
  | '"' :: s => confStringBody s
  | _ => none

/-- One character of an escaped string. -/
def escapeChar (c : Char) : Text :=
  if c = '\\' then ['\\', '\\'] else if c = '"' then ['\\', '"'] else [c]

theorem escape_eq (s : Text) : escape s = s.flatMap escapeChar := by
  rw [escape, pyReplace_singleton, pyReplace_singleton, List.flatMap_assoc]
  congr 1
  funext c
  unfold escapeChar
  by_cases h : c = '\\'
  · simp [h]
  · by_cases hq : c = '"' <;> simp [h, hq]

theorem unescape_escape (s : Text) : unescape (escape s) = s := by
  rw [escape_eq]
  induction s with
  | nil => rfl
  | cons c s ih =>
    rw [List.flatMap_cons, escapeChar]
    split
    · next h =>
      subst h
      change (if '\\' = '\n' then _ else '\\' :: unescape (s.flatMap escapeChar)) = _
      rw [if_neg (by decide), ih]
    · split
      · next h =>
        subst h
        change (if '"' = '\n' then _ else '"' :: unescape (s.flatMap escapeChar)) = _
        rw [if_neg (by decide), ih]
      · next h _ =>
        rw [List.singleton_append, unescape, ih]
        rintro c' s' rfl
        exact absurd rfl h

/-- The quotes around an escaped string are found again. -/
theorem confStringMatch_escape (s t : Text) :
    confStringMatch ('"' :: (escape s ++ '"' :: t)) = some (escape s) := by
  rw [escape_eq, confStringMatch]
  induction s with
  | nil => rfl
  | cons c s ih =>
    rw [List.flatMap_cons, List.append_assoc, escapeChar]
    split
    · change (if '\\' = '\n' then none
        else (confStringBody (s.flatMap escapeChar ++ '"' :: t)).map _) = _
      rw [if_neg (by decide), ih]
      rfl
    · split
      · change (if '"' = '\n' then none
          else (confStringBody (s.flatMap escapeChar ++ '"' :: t)).map _) = _
        rw [if_neg (by decide), ih]
        rfl
      · next h hq =>
        rw [List.singleton_append, confStringBody, ih]
        · rfl
        · exact hq
        · rintro c' s' rfl
          exact absurd rfl h
        · rintro rfl
          exact absurd rfl h

/-! ## Writing -/

theorem configPrefix_eq : configPrefix = ['C', 'O', 'N', 'F', 'I', 'G', '_'] := by
  decide

/-- The item of a menu node. -/
inductive MenuItem (S C : Type) where
  | sym (s : S)
  | choice (c : C)
  | menu
  | comment

/-- A node of the menu tree; the expressions are `dep` and `visibility`. -/
inductive MenuNode (S C : Type) where
  | mk (item : MenuItem S C) (prompt : Text) (dep visibility : Expr S C)
    (list : List (MenuNode S C))

/-- The walk of `_config_contents` comes to a node, or leaves one that has children. -/
inductive Visit (S C : Type) where
  | enter (item : MenuItem S C) (prompt : Text) (dep visibility : Expr S C)
  | leave (item : MenuItem S C) (prompt : Text) (dep visibility : Expr S C)

mutual

/-- The walk through a node. -/
def MenuNode.walk : MenuNode S C → List (Visit S C)
  | .mk item prompt dep visibility list =>
    .enter item prompt dep visibility :: (walkList list ++
      if list.isEmpty then [] else [.leave item prompt dep visibility])

/-- The walk through the children of a node. -/
def walkList : List (MenuNode S C) → List (Visit S C)
  | [] => []
  | node :: nodes => node.walk ++ walkList nodes

end

/-- `Symbol.config_string` of a symbol that gets written. -/
def configString (d : SymbolDef S C) (val : Text) : Text :=
  if isBoolTristate d.origType then
    if val ≠ ['n'] then pyFormat "{}{}={}\n".toList [configPrefix, d.name, val]
    else pyFormat "# {}{} is not set\n".toList [configPrefix, d.name]
  else if d.origType = .int ∨ d.origType = .hex then
    pyFormat "{}{}={}\n".toList [configPrefix, d.name, val]
  else pyFormat "{}{}=\"{}\"\n".toList [configPrefix, d.name, escape val]

section Write

variable {T : Tables S C}

/-- `Symbol.config_string`. -/
def symConfigString (s : S) : Attr T Text := do
  let v ← strAndWrite s
  pure (if v.2 then configString (T.sym s) v.1 else [])

/-- Does a menu or comment show? -/
def showsPrompt (item : MenuItem S C) (dep visibility : Expr S C) : Attr T Bool := do
  let d ← exprValue dep
  if d = .n then pure false
  else
    match item with
    | .menu => do
      let v ← exprValue visibility
      pure (decide (v ≠ .n))
    | .comment => pure true
    | _ => pure false

/-- The loop of `_config_contents`, with the symbols it has visited and `after_end_comment`. -/
def contentsLoop [DecidableEq S] : List (Visit S C) → List S → Bool → Attr T Text
  | [], _, _ => pure []
  | .leave .menu prompt dep visibility :: visits, visited, afterEnd =>
    showsPrompt .menu dep visibility >>= fun shows =>
      if shows then
        contentsLoop visits visited true >>= fun rest =>
          pure (pyFormat "# end of {}\n".toList [prompt] ++ rest)
      else contentsLoop visits visited afterEnd
  | .leave _ _ _ _ :: visits, visited, afterEnd => contentsLoop visits visited afterEnd
  | .enter (.sym s) _ _ _ :: visits, visited, afterEnd =>
    if s ∈ visited then contentsLoop visits visited afterEnd
    else
      symConfigString s >>= fun conf =>
        if conf = [] then contentsLoop visits (s :: visited) afterEnd
        else
          contentsLoop visits (s :: visited) false >>= fun rest =>
            pure ((if afterEnd then ['\n'] else []) ++ conf ++ rest)
  | .enter item prompt dep visibility :: visits, visited, afterEnd =>
    showsPrompt item dep visibility >>= fun shows =>
      if shows then
        contentsLoop visits visited false >>= fun rest =>
          pure (pyFormat "\n#\n# {}\n#\n".toList [prompt] ++ rest)
      else contentsLoop visits visited afterEnd

/-- `_config_contents`, for the children of the top node. -/
def configContents [DecidableEq S] (header : Text) (top : List (MenuNode S C)) : Attr T Text :=
  contentsLoop (walkList top) [] false >>= fun body => pure (header ++ body)

end Write

/-! ## Reading -/

/-- `_set_match`: the name and the value of an assignment. -/
def setMatch (line : Text) : Option (Text × Text) :=
  if configPrefix <+: line then
    let rest := line.drop configPrefix.length
    match rest.takeWhile (· ≠ '='), rest.dropWhile (· ≠ '=') with
    | c :: name, '=' :: val => some (c :: name, val.takeWhile (· ≠ '\n'))
    | _, _ => none
  else none

/-- `_unset_match`: the name. -/
def unsetMatch (line : Text) : Option Text :=
  let start := "# ".toList ++ configPrefix
  if start <+: line then
    let rest := line.drop start.length
    match rest.takeWhile (· ≠ ' ') with
    | c :: name =>
      if " is not set".toList <+: rest.dropWhile (· ≠ ' ') then some (c :: name) else none
    | [] => none
  else none

/-- `get_sym`, for symbols with a definition. -/
def Tables.lookup (T : Tables S C) (name : Text) : Option S :=
  T.uniqueDefinedSyms.find? fun s => (T.sym s).name = name

/-- The first letters of the values that a bool or tristate symbol takes. -/
def takesLetter (type : SymbolType) (c : Char) : Bool :=
  c = 'y' || c = 'n' || (type = .tristate && c = 'm')

/-- What an assignment to `s` in the file does. -/
def assignCalls (T : Tables S C) (s : S) (val : Text) : List (Call S C) :=
  if isBoolTristate (T.sym s).origType then
    match val with
    | c :: _ =>
      if takesLetter (T.sym s).origType c then
        -- The mode of a choice is inferred from the values of its symbols.
        match (T.sym s).choice with
        | some ch =>
          if c ≠ 'n' then [.setChoice ch (.str [c]), .setValue s (.str [c])]
          else [.setValue s (.str [c])]
        | none => [.setValue s (.str [c])]
      else []
    | [] => []
  else if (T.sym s).origType = .string then
    match confStringMatch val with
    | some g => [.setValue s (.str (unescape g))]
    | none => []
  else [.setValue s (.str val)]

/-- What a line of the file does. -/
def lineCalls (T : Tables S C) (line : Text) : List (Call S C) :=
  match setMatch line with
  | some (name, val) =>
    match T.lookup name with
    | some s => assignCalls T s val
    | none => []
  | none =>
    match (unsetMatch line).bind T.lookup with
    | some s => if isBoolTristate (T.sym s).origType then [.setValue s (.str ['n'])] else []
    | none => []

/-- What the file does. -/
def fileCalls (T : Tables S C) (text : Text) : List (Call S C) :=
  (fileLines text).flatMap fun line => lineCalls T (pyRstrip line)

namespace Kconfig

variable [DecidableEq S] [DecidableEq C] {K : Kconfig S C} (st : State K)

/-- The result of a query, through the caches. -/
def ask {α : Type} (q : Attr K.toTables α) : Option (α × State K) :=
  (q.run st.user.inputs (fun k c => cached (body K.toTables) st.user.inputs (K.rank k + 1) k c)
    st.cache).map fun r => (r.1, { st with cache := r.2 })

/-- The contents of `write_config`. -/
def writeConfig (header : Text) (top : List (MenuNode S C)) : Option (Text × State K) :=
  ask st (configContents header top)

/-- Clears `_was_set`. -/
def clearMarks : State K :=
  { st with wasSet := fun i => if i ∈ K.items then false else st.wasSet i }

/-- Unsets the symbols and choices that are not marked. -/
def unsetRest : Option (State K) := do
  let st ← K.uniqueDefinedSyms.foldlM
    (fun st s => if st.wasSet (.sym s) then some st else unsetValue st s) st
  K.uniqueChoices.foldlM
    (fun st c => if st.wasSet (.choice c) then some st else unsetChoice st c) st

/-- `load_config`, for the contents of the file. -/
def loadConfig (text : Text) (replace : Bool) : Option (State K) := do
  let st ← run (if replace then clearMarks st else st) (fileCalls K.toTables text)
  if replace then unsetRest st else some st

end Kconfig

end MaixSpeech.Kconfiglib
