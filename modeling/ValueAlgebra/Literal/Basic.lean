/-!
# Quoted literals

Strings are written between double quotes, location paths between bars. This module gives the two
kinds of literal and how their contents are escaped.

## Main definitions

- `Literal`: the kind of a literal, a string or a path
- `Literal.letterFor`, `Literal.meaning`: the two-character escapes, from and to the character
- `Literal.escape`, `Literal.quote`: the written form of a text, without and with its delimiters
-/

namespace ValueAlgebra

/-- The two kinds of quoted literal. -/
inductive Literal
  | string
  | path
  deriving DecidableEq, Repr

namespace Literal

/-- The character that opens and closes a literal. -/
def delimiter : Literal → Char
  | string => '"'
  | path => '|'

/-- The letter that, after a backslash, stands for `c`. -/
def letterFor : Literal → Char → Option Char
  | string, '"' => some '"'
  | string, '\\' => some '\\'
  | string, '\n' => some 'n'
  | string, '\r' => some 'r'
  | string, '\t' => some 't'
  | string, '\x00' => some '0'
  | path, '|' => some '|'
  | path, '\\' => some '\\'
  | _, _ => none

/-- The character that a letter after a backslash stands for. -/
def meaning : Literal → Char → Option Char
  | string, '"' => some '"'
  | string, '\\' => some '\\'
  | string, 'n' => some '\n'
  | string, 'r' => some '\r'
  | string, 't' => some '\t'
  | string, '0' => some '\x00'
  | path, '|' => some '|'
  | path, '\\' => some '\\'
  | _, _ => none

/-- Only strings have escapes by code point, written `\uXXXX`. -/
def hasCodeEscapes : Literal → Bool
  | string => true
  | path => false

end Literal

/-- The control characters are the code points below 32 and those from 127 to 159. -/
def isControl (c : Char) : Bool :=
  c.val < 0x20 || (0x7f ≤ c.val && c.val ≤ 0x9f)

/-- The four lower-case hexadecimal digits of `n`, for `n < 65536`. -/
def fourHexDigits (n : Nat) : List Char :=
  [n / 4096 % 16, n / 256 % 16, n / 16 % 16, n % 16].map Nat.digitChar

namespace Literal

/-- How one character is written inside a literal. -/
def escapeChar (l : Literal) (c : Char) : List Char :=
  match l.letterFor c with
  | some e => ['\\', e]
  | none => if l.hasCodeEscapes && isControl c then '\\' :: 'u' :: fourHexDigits c.toNat else [c]

/-- The body of the literal that stands for `s`. -/
def escape (l : Literal) (s : List Char) : List Char :=
  s.flatMap l.escapeChar

/-- The literal that stands for `s`, with its delimiters. -/
def quote (l : Literal) (s : List Char) : List Char :=
  l.delimiter :: (l.escape s ++ [l.delimiter])

theorem meaning_eq_some_iff (l : Literal) (e c : Char) :
    l.meaning e = some c ↔ l.letterFor c = some e := by
  constructor
  · unfold meaning
    split <;> simp +contextual [letterFor]
    all_goals rintro rfl; rfl
  · unfold letterFor
    split <;> simp +contextual [meaning]
    all_goals rintro rfl; rfl

@[simp]
theorem escape_nil (l : Literal) : l.escape [] = [] := rfl

@[simp]
theorem escape_cons (l : Literal) (c : Char) (s : List Char) :
    l.escape (c :: s) = l.escapeChar c ++ l.escape s := rfl

@[simp]
theorem escape_append (l : Literal) (s t : List Char) :
    l.escape (s ++ t) = l.escape s ++ l.escape t := by
  simp [escape]

end Literal

end ValueAlgebra
