import ValueAlgebra.Codec.Token
import ValueAlgebra.Error
import ValueAlgebra.Literal.Unescape
import ValueAlgebra.Number.Integer

/-!
# Errors of reading

An error of the reader records its cause: bytes that are no text, a place without a token, a token
out of place, a token that cannot be decoded, too many open brackets, or a value that types do not
allow. `ReadError.message` words it.
-/

namespace ValueAlgebra

/-- What the reader needs at some place. -/
inductive Wanted
  | value
  | constructorName
  | openParen
  | colon
  | commaOr (closer : Mark)
  | endOfInput
  deriving DecidableEq, Repr

namespace Wanted

def text : Wanted → String
  | value => "a value"
  | constructorName => "a constructor name"
  | openParen => "`(`"
  | colon => "`:`"
  | commaOr closer => "`,` or `" ++ String.ofList closer.chars ++ "`"
  | endOfInput => "end of input"

end Wanted

/-- The parts of a token that may not be decodable. -/
inductive Encoded
  | integer
  | string
  | locationPath
  | locationRange
  deriving DecidableEq, Repr

namespace Encoded

def text : Encoded → String
  | integer => "integer"
  | string => "string"
  | locationPath => "location path"
  | locationRange => "location range"

end Encoded

/-- Why an encoded part cannot be decoded. -/
inductive DecodeError
  | range (e : RangeError)
  | escape (e : UnescapeError)
  deriving DecidableEq, Repr

namespace DecodeError

def message : DecodeError → String
  | range e => e.message
  | escape e => e.message

end DecodeError

inductive ReadError
  /-- The bytes are no UTF-8. -/
  | notText
  /-- No token can be read at the position. -/
  | noToken (position : Position)
  /-- A token, or the end of the text, stands where something else is needed. -/
  | unexpected (found : Option Token) (wanted : Wanted)
  | malformed (part : Encoded) (raw : List Char) (reason : DecodeError)
  | tooDeep (maxDepth : Nat)
  | type (e : TypeError)
  deriving DecidableEq

namespace ReadError

def message : ReadError → String
  | notText => "stream did not contain valid UTF-8"
  | noToken p => "syntax error: --> " ++ p.text
  | unexpected (some t) wanted =>
    "syntax error: " ++ t.position.text ++ ": unexpected `" ++ String.ofList t.raw
      ++ "`, expected " ++ wanted.text
  | unexpected none wanted => "syntax error: unexpected end of input, expected " ++ wanted.text
  | malformed part raw reason =>
    "malformed " ++ part.text ++ " `" ++ String.ofList raw ++ "`: " ++ reason.message
  | tooDeep n => s!"nesting exceeds the maximum depth of {n}"
  | type e => e.message

end ReadError

end ValueAlgebra
