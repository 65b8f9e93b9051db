/-!
# Tokens

The tokens of the canonical text, with the characters they were read from and their place. A
lexeme is a token without these: blanks, also those inside a location, leave no trace in it.
-/

namespace ValueAlgebra

/-- A place in a text. Lines and columns count from one, columns in characters. -/
structure Position where
  line : Nat
  column : Nat
  deriving DecidableEq, Repr

namespace Position

def start : Position := ⟨1, 1⟩

/-- The place after a character. Only a line feed ends a line. -/
def next (p : Position) (c : Char) : Position :=
  if c = '\n' then ⟨p.line + 1, 1⟩ else ⟨p.line, p.column + 1⟩

def advance (p : Position) (cs : List Char) : Position := cs.foldl next p

def text (p : Position) : String := s!"{p.line}:{p.column}"

end Position

/-- Punctuation. -/
inductive Mark
  | doubleColon
  | less
  | greater
  | openBracket
  | closeBracket
  | openBrace
  | closeBrace
  | openParen
  | closeParen
  | comma
  | colon
  deriving DecidableEq, Repr

namespace Mark

def chars : Mark → List Char
  | doubleColon => [':', ':']
  | less => ['<']
  | greater => ['>']
  | openBracket => ['[']
  | closeBracket => [']']
  | openBrace => ['\x7b']
  | closeBrace => ['\x7d']
  | openParen => ['(']
  | closeParen => [')']
  | comma => [',']
  | colon => [':']

end Mark

/-- What a token says. Numerals and the bodies of literals are kept as written. -/
inductive Lexeme
  | integer (numeral : List Char)
  | double (numeral : List Char)
  | string (body : List Char)
  /-- A path and the six numbers of a span, in the order of the text. -/
  | location (path : List Char) (numbers : List (List Char))
  | name (chars : List Char)
  | mark (m : Mark)
  deriving DecidableEq, Repr

structure Token where
  lexeme : Lexeme
  /-- The characters of the token. -/
  raw : List Char
  position : Position
  deriving DecidableEq, Repr

end ValueAlgebra
