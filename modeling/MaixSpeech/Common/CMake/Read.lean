import MaixSpeech.Common.CMake.Expand
import Mathlib.Logic.Function.Basic

/-!
# Reading a CMake file of `set` commands

A file is read command by command. The arguments of a command are separated, then evaluated, then
joined into the value of the variable; `set` stands for its forms without a cache entry. Bracket
arguments and the old form of unquoted ones with quotes in them are not read.
-/

namespace Common.CMake

/-! ## Arguments as they are written -/

/-- An argument with its text; the quotes do not belong to it. -/
inductive RawArg where
  | quoted (raw : Text)
  | unquoted (raw : Text)

/-- The text of a quoted argument behind its opening quote, and what follows the closing one. -/
def quotedBody : Text → Option (Text × Text)
  | [] => none
  | c :: t =>
    if c = '"' then some ([], t)
    else if c = '\\' then
      match t with
      | [] => none
      -- a backslash at the end of a line continues it
      | e :: t => (quotedBody t).map fun p => (if e = '\n' then p.1 else '\\' :: e :: p.1, p.2)
    else (quotedBody t).map fun p => (c :: p.1, p.2)

def isBlank (c : Char) : Bool := c = ' ' || c = '\t' || c = '\r'

/-- The characters that end an unquoted argument. -/
def endsUnquoted (c : Char) : Bool :=
  isBlank c || c = '\n' || c = '(' || c = ')' || c = '#' || c = '"'

/-- The text of an unquoted argument, and what follows it. -/
def unquotedBody : Text → Text × Text
  | [] => ([], [])
  | c :: t =>
    if c = '\\' then
      match t with
      | [] => ([], [c])
      | e :: t =>
        if e = '\n' then ([], c :: e :: t)
        else (c :: e :: (unquotedBody t).1, (unquotedBody t).2)
    else if endsUnquoted c then ([], c :: t)
    else (c :: (unquotedBody t).1, (unquotedBody t).2)

/-- The arguments up to the closing parenthesis, inside `depth` more, and the text behind it. -/
def lexArgs : ℕ → ℕ → Text → Option (List RawArg × Text)
  | 0, _, _ => none
  | _ + 1, _, [] => none
  | n + 1, depth, c :: t =>
    if c = '\n' || isBlank c then lexArgs n depth t
    else if c = '#' then lexArgs n depth (t.dropWhile (· ≠ '\n'))
    else if c = '(' then
      (lexArgs n (depth + 1) t).map fun p => (.unquoted ['('] :: p.1, p.2)
    else if c = ')' then
      if depth = 0 then some ([], t)
      else (lexArgs n (depth - 1) t).map fun p => (.unquoted [')'] :: p.1, p.2)
    else if c = '"' then
      (quotedBody t).bind fun q => (lexArgs n depth q.2).map fun p => (.quoted q.1 :: p.1, p.2)
    else if (unquotedBody (c :: t)).1 = [] then none
    else
      (lexArgs n depth (unquotedBody (c :: t)).2).map fun p =>
        (.unquoted (unquotedBody (c :: t)).1 :: p.1, p.2)

/-! ## Values -/

/-- The elements of a list behind the part `cur` of one, inside `nest` square brackets. -/
def expandList : ℤ → Text → Text → List Text
  | _, cur, [] => if cur = [] then [] else [cur]
  | nest, cur, c :: t =>
    if c = '\\' then
      match t with
      | [] => [cur ++ ['\\']]
      | e :: t =>
        if e = ';' then expandList nest (cur ++ [';']) t
        else expandList nest (cur ++ ['\\']) (e :: t)
    else if c = '[' then expandList (nest + 1) (cur ++ [c]) t
    else if c = ']' then expandList (nest - 1) (cur ++ [c]) t
    else if c = ';' && nest = 0 then
      if cur = [] then expandList nest [] t else cur :: expandList nest [] t
    else expandList nest (cur ++ [c]) t

/-- The elements of the list in a value. -/
def listElements (v : Text) : List Text := expandList 0 [] v

/-- The values of an argument: a quoted one is one value. -/
def evalArg (look : RefKind → Text → Text) : RawArg → Option (List Text)
  | .quoted raw => (expand look raw).map fun v => [v]
  | .unquoted raw => (expand look raw).map listElements

def evalArgs (look : RefKind → Text → Text) : List RawArg → Option (List Text)
  | [] => some []
  | a :: args => (evalArg look a).bind fun vs => (evalArgs look args).map (vs ++ ·)

/-! ## Commands -/

/-- The variables of the scope that reads the file. -/
abbrev Vars := Text → Option Text

/-- The environment and the cache, with empty texts for what is not there. -/
structure Outer where
  env : Text → Text
  cache : Text → Text

/-- The value of a reference. -/
def look (outer : Outer) (vars : Vars) : RefKind → Text → Text
  | .var, name => (vars name).getD (outer.cache name)
  | .env, name => outer.env name
  | .cache, name => outer.cache name

/-- The values end with `CACHE`, a type and a text, and perhaps `FORCE`. -/
def cacheForm (values : List Text) : Bool :=
  let back := values.reverse
  let back :=
    if values.length > 3 && back.head? = some "FORCE".toList then back.tail else back
  values.length > 2 && back[2]? = some "CACHE".toList

/-- `set` with these arguments; `none` for the forms that do not set a variable. -/
def setCommand (vars : Vars) : List Text → Option Vars
  | [] => none
  | name :: values =>
    if "ENV\x7b".toList <+: name then none
    else if values = [] then some (Function.update vars name none)
    else if values.getLast? = some "PARENT_SCOPE".toList then some vars
    else if cacheForm values then none
    else some (Function.update vars name (some ([';'].intercalate values)))

/-- The text behind the end of a line on which nothing follows but a comment. -/
def lineEnd : Text → Option Text
  | [] => some []
  | c :: t =>
    if c = '\n' then some t
    else if isBlank c then lineEnd t
    else if c = '#' then some (t.dropWhile (· ≠ '\n')).tail
    else none

/-- The command at the head of a text, and the text behind its line. -/
def readCommand (outer : Outer) (vars : Vars) (s : Text) : Option (Vars × Text) :=
  match (s.dropWhile fun c => c.isAlphanum || c = '_').dropWhile isBlank with
  | '(' :: t =>
    if (s.takeWhile fun c => c.isAlphanum || c = '_').map Char.toLower = "set".toList then
      (lexArgs t.length 0 t).bind fun p =>
        (evalArgs (look outer vars) p.1).bind fun args =>
          (setCommand vars args).bind fun vars' => (lineEnd p.2).map fun r => (vars', r)
    else none
  | _ => none

/-- The variables behind a file with at most `n` commands and spaces. -/
def readLines (outer : Outer) : ℕ → Vars → Text → Option Vars
  | _, vars, [] => some vars
  | 0, _, _ :: _ => none
  | n + 1, vars, c :: t =>
    if c = '\n' || isBlank c then readLines outer n vars t
    else if c = '#' then readLines outer n vars (t.dropWhile (· ≠ '\n'))
    else (readCommand outer vars (c :: t)).bind fun p => readLines outer n p.1 p.2

/-- The variables behind a file; `none` for an error. -/
def readFile (outer : Outer) (vars : Vars) (s : Text) : Option Vars :=
  readLines outer s.length vars s

example : (readFile ⟨fun _ => [], fun _ => []⟩ (fun _ => none)
      "# a\nset(A \"x y\")\nset(B a;b \"$\x7bA\x7d\") # b\n".toList).map (fun vars =>
        [vars "A".toList, vars "B".toList, vars "C".toList]) =
    some [some "x y".toList, some "a;b;x y".toList, none] := by
  decide +kernel

end Common.CMake
