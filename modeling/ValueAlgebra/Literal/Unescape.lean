import ValueAlgebra.Literal.Basic

/-!
# Reading the body of a literal

`Literal.unescape` inverts `Literal.escape`. It accepts every character but the backslash as
itself, the two-character escapes of the literal's kind and, in strings, `\u` followed by four
hexadecimal digits of a Unicode scalar value. The first escape that is none of these is reported
with its position, counted in bytes of UTF-8 from the start of the body.
-/

namespace ValueAlgebra

/-- Why the body of a literal cannot be read. -/
inductive UnescapeError
  /-- The backslash at `pos` is followed by no known letter. -/
  | invalidEscape (pos : Nat) (seq : String)
  /-- One of the four characters after `\u` is no hexadecimal digit. -/
  | invalidHexDigit (pos : Nat) (seq : String)
  /-- The body ends `got` digits after `\u`. -/
  | incompleteUnicodeEscape (pos got : Nat)
  /-- The four digits name a surrogate. -/
  | invalidUnicodeScalar (pos value : Nat)
  deriving DecidableEq, Repr

namespace UnescapeError

def message : UnescapeError → String
  | invalidEscape pos seq => s!"invalid escape sequence '" ++ seq ++ s!"' at position {pos}"
  | invalidHexDigit pos seq => s!"invalid hex digit in '" ++ seq ++ s!"' at position {pos}"
  | incompleteUnicodeEscape pos got =>
    s!"incomplete Unicode escape at position {pos}: expected 4 digits, got {got}"
  | invalidUnicodeScalar pos value =>
    "invalid Unicode scalar value U+" ++ String.ofList ((Nat.toDigits 16 value).map Char.toUpper)
      ++ s!" at position {pos}"

end UnescapeError

/-- The value of a hexadecimal digit of either case. -/
def hexDigit? (c : Char) : Option Nat :=
  if '0' ≤ c ∧ c ≤ '9' then some (c.toNat - '0'.toNat)
  else if 'a' ≤ c ∧ c ≤ 'f' then some (c.toNat - 'a'.toNat + 10)
  else if 'A' ≤ c ∧ c ≤ 'F' then some (c.toNat - 'A'.toNat + 10)
  else none

/-- The number that hexadecimal digits denote, or the first character that is not one. -/
def hexValue (digits : List Char) : Except Char Nat :=
  digits.foldlM (fun n c => match hexDigit? c with
    | some d => .ok (n * 16 + d)
    | none => .error c) 0

/-- The Unicode scalar value with code point `n`. -/
def scalar? (n : Nat) : Option Char :=
  if h : n.isValidChar then some (Char.ofNatAux n h) else none

/-- The character denoted by the four characters after `\u`, where the backslash is at `pos`. -/
def codeEscape (pos : Nat) (digits : List Char) : Except UnescapeError Char :=
  match hexValue digits with
  | .error c => .error (.invalidHexDigit (pos + 2) (String.ofList ['\\', 'u', c]))
  | .ok n =>
    if digits.length < 4 then .error (.incompleteUnicodeEscape pos digits.length)
    else match scalar? n with
      | some c => .ok c
      | none => .error (.invalidUnicodeScalar pos n)

namespace Literal

/-- Reads a body whose first character is at position `pos`. -/
def unescapeAt (l : Literal) (pos : Nat) : List Char → Except UnescapeError (List Char)
  | [] => .ok []
  | c :: rest =>
    if c ≠ '\\' then return c :: (← unescapeAt l (pos + c.utf8Size) rest)
    else match rest with
      | [] => .error (.invalidEscape pos "\\")
      | e :: rest =>
        if l.hasCodeEscapes && e == 'u' then
          match rest with
          | h₁ :: h₂ :: h₃ :: h₄ :: rest => do
            let c ← codeEscape pos [h₁, h₂, h₃, h₄]
            return c :: (← unescapeAt l (pos + 6) rest)
          | short => do
            let _ ← codeEscape pos short
            .ok []
        else match l.meaning e with
          | some c => return c :: (← unescapeAt l (pos + 2) rest)
          | none => .error (.invalidEscape pos (String.ofList ['\\', e]))

/-- The text that a body stands for. -/
def unescape (l : Literal) (body : List Char) : Except UnescapeError (List Char) :=
  l.unescapeAt 0 body

end Literal

end ValueAlgebra
