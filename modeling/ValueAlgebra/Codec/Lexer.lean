import ValueAlgebra.Codec.Scan

/-!
# Splitting a text into tokens

Blanks before and after tokens are skipped. The first place where no token can be read is the
error.
-/

namespace ValueAlgebra

namespace Lexer

/-- The tokens of a text that starts at a position, after those in `before`, latest first. The
error is the place where no token can be read. -/
def tokensFrom (p : Position) (before : List Token) (cs : List Char) :
    Except Position (List Token) :=
  let p := p.advance (cs.takeWhile isBlank)
  if _hc : cs.dropWhile isBlank = [] then .ok before.reverse
  else
    match hs : scan (cs.dropWhile isBlank) with
    | .error taken => .error (p.advance taken)
    | .ok s =>
      have : s.rest.length < cs.length :=
        Nat.lt_of_lt_of_le (scan_splits hs).length_lt (List.dropWhile_suffix isBlank).length_le
      tokensFrom (p.advance s.raw) (⟨s.lexeme, s.raw, p⟩ :: before) s.rest
termination_by cs.length

/-- The tokens of a text. -/
def tokens (cs : List Char) : Except Position (List Token) := tokensFrom .start [] cs

end Lexer

end ValueAlgebra
