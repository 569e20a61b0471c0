import MaixSpeech.Common.PyStr

/-!
# Python's `int(s, base)` and `hex(n)`

`int` with a base reads letters as digits, takes the prefix of its base, and with base 0 chooses the
base by the prefix.
-/

namespace Common

/-- The value of a digit, a letter counting from ten. -/
def pyDigit (c : Char) : Option ℕ :=
  if 'a' ≤ c ∧ c ≤ 'z' then some (c.toNat - 87)
  else if 'A' ≤ c ∧ c ≤ 'Z' then some (c.toNat - 55)
  else pyDecimal c

/-- Digits of a base with single underscores between them, behind digits of value `n`; `digit` says
that the last character was one. -/
def pyBaseDigits (base n : ℕ) (digit : Bool) : Text → Option ℕ
  | [] => if digit then some n else none
  | '_' :: s => if digit then pyBaseDigits base n false s else none
  | c :: s =>
    (pyDigit c).bind fun d => if d < base then pyBaseDigits base (base * n + d) true s else none

/-- The base of the prefix `0x`, `0o` or `0b`. -/
def prefixBase : Char → Option ℕ
  | 'x' | 'X' => some 16
  | 'o' | 'O' => some 8
  | 'b' | 'B' => some 2
  | _ => none

/-- A number without a prefix; for base 0 a leading zero is the whole number. -/
def pyPlainNat (base : ℕ) (s : Text) : Option ℕ :=
  if base = 0 then
    (pyBaseDigits 10 0 false s).filter fun n => s.head?.bind pyDecimal ≠ some 0 ∨ n = 0
  else pyBaseDigits base 0 false s

/-- A number without a sign. Behind its prefix one underscore may stand. -/
def pyNat (base : ℕ) : Text → Option ℕ
  | z :: p :: t =>
    match prefixBase p with
    | some b =>
      if pyDecimal z = some 0 ∧ (base = 0 ∨ base = b) then
        pyBaseDigits b 0 false (if t.head? = some '_' then t.tail else t)
      else pyPlainNat base (z :: p :: t)
    | none => pyPlainNat base (z :: p :: t)
  | s => pyPlainNat base s

/-- `int(s, base)`, `none` for a `ValueError`. -/
def pyIntBase (base : ℕ) (s : Text) : Option ℤ :=
  match pyStrip s with
  | '-' :: s => (pyNat base s).map fun n : ℕ => -(n : ℤ)
  | '+' :: s => (pyNat base s).map fun n : ℕ => (n : ℤ)
  | s => (pyNat base s).map fun n : ℕ => (n : ℤ)

/-- `hex(n)`. -/
def pyHex (n : ℤ) : Text :=
  (if n < 0 then ['-'] else []) ++ '0' :: 'x' :: Nat.toDigits 16 n.natAbs

example : pyIntBase 16 " -0x_Ff ".toList = some (-255) ∧ pyIntBase 0 "012".toList = none ∧
    pyIntBase 0 "00".toList = some 0 ∧ pyHex (-255) = "-0xff".toList := by
  decide +kernel

end Common
