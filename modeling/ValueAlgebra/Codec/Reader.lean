import ValueAlgebra.Codec.Lexer
import ValueAlgebra.Codec.Start

/-!
# Reading values

The reader works on tokens with an explicit stack of open brackets. `Reader.value` reads the
beginning of a value, and `Reader.deliver` hands a finished value to the innermost open bracket
and goes on as the next token says. Each of them takes a token before it calls the other.

Values are built bottom-up with inferred types, each with a fresh cell. A constructor application
is resolved in the reader's store.

## Main definitions

- `Frame`: an open bracket and the values read in it so far
- `Reader.value`, `Reader.deliver`: the two states of the reader
- `Reader.parse`: the value of a whole list of tokens
- `Reader.read`, `Reader.readBytes`: the value of a text
-/

namespace ValueAlgebra

/-- An open bracket and the values read after it. -/
structure Frame where
  opening : Opening
  children : Array Value := #[]

namespace Frame

def push (f : Frame) (v : Value) : Frame := { f with children := f.children.push v }

/-- Keys and values alternate in a map, so after an odd number of children a key waits for its
value. -/
def awaitsValue (f : Frame) : Bool :=
  match f.opening with
  | .map => f.children.size % 2 == 1
  | _ => false

def close (m : Manager) (cell : Cell) (f : Frame) : Except TypeError Value :=
  f.opening.close m cell f.children.toList

end Frame

namespace Reader

mutual

/-- Reads a value inside the open brackets of `stack`, and then what encloses it. Returns the
value of the outermost bracket, the next free cell and the tokens after it. -/
def value (r : Reader) (m : Manager) (stack : List Frame) (cell : Cell) (ts : List Token) :
    Except ReadError (Value × Cell × List Token) :=
  match hs : start r m cell ts with
  | .error e => .error e
  | .ok (.value v, rest) =>
    have := start_length hs
    deliver r m stack v (cell + 1) rest
  | .ok (.opening o, rest) =>
    have := start_length hs
    if r.maxDepth ≤ stack.length then .error (.tooDeep r.maxDepth)
    else
      match hm : mark? o.closer rest with
      | some rest =>
        have := mark?_length hm
        match o.close m cell [] with
        | .ok v => deliver r m stack v (cell + 1) rest
        | .error e => .error (.type e)
      | none => value r m ({ opening := o } :: stack) cell rest
termination_by ts.length

/-- Hands a value to the innermost bracket of `stack`. A colon follows a key; after any other
child comes a comma or the closing bracket, which completes the bracket's own value. -/
def deliver (r : Reader) (m : Manager) (stack : List Frame) (v : Value) (cell : Cell)
    (ts : List Token) : Except ReadError (Value × Cell × List Token) :=
  match stack with
  | [] => .ok (v, cell, ts)
  | f :: stack =>
    let f := f.push v
    if f.awaitsValue then
      match hm : mark? .colon ts with
      | some rest =>
        have := mark?_length hm
        value r m (f :: stack) cell rest
      | none => .error (.unexpected ts.head? .colon)
    else
      match hm : mark? .comma ts, hc : mark? f.opening.closer ts with
      | some rest, _ =>
        have := mark?_length hm
        value r m (f :: stack) cell rest
      | none, some rest =>
        have := mark?_length hc
        match f.close m cell with
        | .ok v => deliver r m stack v (cell + 1) rest
        | .error e => .error (.type e)
      | none, none => .error (.unexpected ts.head? (.commaOr f.opening.closer))
termination_by ts.length

end

/-- The value that a whole list of tokens stands for, and the next free cell. -/
def parse (r : Reader) (m : Manager) (cell : Cell) (ts : List Token) :
    Except ReadError (Value × Cell) :=
  match r.value m [] cell ts with
  | .error e => .error e
  | .ok (v, cell, []) => .ok (v, cell)
  | .ok (_, _, t :: _) => .error (.unexpected (some t) .endOfInput)

/-- The value of a text, stored in cells from `cell` on, and the next free cell. -/
def read (r : Reader) (m : Manager) (cell : Cell) (text : String) :
    Except ReadError (Value × Cell) :=
  match Lexer.tokens text.toList with
  | .error p => .error (.noToken p)
  | .ok ts => r.parse m cell ts

/-- The value of a text given as bytes of UTF-8. -/
def readBytes (r : Reader) (m : Manager) (cell : Cell) (bytes : ByteArray) :
    Except ReadError (Value × Cell) :=
  match String.fromUTF8? bytes with
  | some text => r.read m cell text
  | none => .error .notText

end Reader

end ValueAlgebra
