import ValueAlgebra.Build.Make
import ValueAlgebra.Codec.Error
import ValueAlgebra.Value.Text

/-!
# Beginnings of values

How a value begins: a scalar, whose token is decoded, or an opening bracket, after which children
follow. What a bracket begins is an `Opening`, which knows its closing mark and how to make a
value of the children.

## Main definitions

- `Reader`: a store, if any, and the greatest depth of open brackets
- `Opening`: what an opening bracket begins, with `Opening.closer` and `Opening.close`
- `Reader.start`: the beginning of a value and the tokens after it; it takes at least one token
-/

namespace ValueAlgebra

structure Reader where
  store : Option Store := none
  /-- How many brackets may be open at once. -/
  maxDepth : Nat := 500

/-- What an opening bracket begins. -/
inductive Opening
  | tuple
  | list
  | set
  | map
  | node (name : List Char)
  /-- An application of a constructor of `adt`, to be resolved in `store`. -/
  | constructor (store : Store) (adt : Ty) (name : List Char)

namespace Opening

def closer : Opening → Mark
  | tuple => .greater
  | list => .closeBracket
  | set => .closeBrace
  | map | node _ | constructor .. => .closeParen

/-- The value made of the children between the brackets. -/
def close (m : Manager) (cell : Cell) (o : Opening) (children : List Value) :
    Except TypeError Value :=
  match o with
  | tuple => .ok (Build.tuple m cell children)
  | list => .ok (Build.list m cell children)
  | set => .ok (Build.set m cell children)
  | map => .ok (Build.map m cell (Build.pairs children))
  | node name => .ok (Build.node m cell (String.ofList name) children)
  | constructor store adt name => Build.construct store cell adt (String.ofList name) children

end Opening

/-- The beginning of a value: all of it, or its opening bracket. -/
inductive Start
  | value (v : Value)
  | opening (o : Opening)

namespace Reader

/-- The rest after a punctuation mark, if that comes next. -/
def mark? (m : Mark) : List Token → Option (List Token)
  | t :: ts => if t.lexeme = .mark m then some ts else none
  | [] => none

def decodeEscapes (part : Encoded) (l : Literal) (body : List Char) :
    Except ReadError (List Char) :=
  (l.unescape body).mapError fun e => .malformed part body (.escape e)

def decodeInteger (numeral : List Char) : Except ReadError Int64 :=
  (int64OfNumeral numeral).mapError fun e => .malformed .integer numeral (.range e)

def decodeNumber (digits : List Char) : Except ReadError UInt64 :=
  (uint64OfDigits digits).mapError fun e => .malformed .locationRange digits (.range e)

def decodeSpan (numbers : List (List Char)) : Except ReadError Span := do
  return .ofTextOrder (← numbers.mapM decodeNumber)

/-- The data type that a constructor application names. -/
def resolve (r : Reader) (name : List Char) : Except ReadError (Store × Ty) :=
  match r.store.bind fun s => (s.findAdt? (String.ofList name)).map (s, ·) with
  | some found => .ok found
  | none => .error (.type (.undeclaredAdt (String.ofList name)))

/-- The value that a reserved name stands for. -/
def reservedValue? (m : Manager) (name : List Char) : Option Value :=
  if name = ['t', 'r', 'u', 'e'] then some (Build.bool m true)
  else if name = ['f', 'a', 'l', 's', 'e'] then some (Build.bool m false)
  else if name = ['n', 'a', 'n'] then some (Build.double m .nan)
  else if name = ['i', 'n', 'f'] then some (Build.double m .infinity)
  else none

/-- What begins with a name: a node, a constructor application or a reserved value. `t` is the
token of the name. -/
def startName (r : Reader) (m : Manager) (t : Token) (name : List Char) (ts : List Token) :
    Except ReadError (Start × List Token) :=
  match mark? .openParen ts, mark? .doubleColon ts with
  | some ts, _ => .ok (.opening (.node name), ts)
  | none, some [] => .error (.unexpected none .constructorName)
  | none, some (c :: ts) =>
    match c.lexeme with
    | .name constructorName =>
      match mark? .openParen ts with
      | some ts => do
        let (store, adt) ← r.resolve name
        return (.opening (.constructor store adt constructorName), ts)
      | none => .error (.unexpected ts.head? .openParen)
    | _ => .error (.unexpected (some c) .constructorName)
  | none, none =>
    match reservedValue? m name with
    | some v => .ok (.value v, ts)
    | none => .error (.unexpected (some t) .value)

/-- The beginning of a value and the tokens after it. -/
def start (r : Reader) (m : Manager) (cell : Cell) :
    List Token → Except ReadError (Start × List Token)
  | [] => .error (.unexpected none .value)
  | t :: ts =>
    match t.lexeme with
    | .integer n => do
      let i ← decodeInteger n
      return (.value (Build.int m i), ts)
    | .double n => .ok (.value (Build.double m (.ofNumeral n)), ts)
    | .location path numbers => do
      let path ← decodeEscapes .locationPath .path path
      let span ← decodeSpan numbers
      return (.value (Build.loc m cell (String.ofList path) span), ts)
    | .string body => do
      let s ← decodeEscapes .string .string body
      match mark? .openParen ts with
      | some ts => return (.opening (.node s), ts)
      | none => return (.value (Build.str m cell (String.ofList s)), ts)
    | .name name => startName r m t name ts
    | .mark .less => .ok (.opening .tuple, ts)
    | .mark .openBracket => .ok (.opening .list, ts)
    | .mark .openBrace => .ok (.opening .set, ts)
    | .mark .openParen => .ok (.opening .map, ts)
    | .mark _ => .error (.unexpected (some t) .value)

theorem mark?_length {m : Mark} {ts rest : List Token} (h : mark? m ts = some rest) :
    rest.length < ts.length := by
  cases ts with
  | nil => simp [mark?] at h
  | cons t ts =>
    simp only [mark?, Option.ite_none_right_eq_some, Option.some.injEq] at h
    simp [h.2]

theorem startName_length {r : Reader} {m : Manager} {t : Token} {name : List Char}
    {ts rest : List Token} {s : Start} (h : startName r m t name ts = .ok (s, rest)) :
    rest.length ≤ ts.length := by
  unfold startName at h
  split at h
  · rename_i hp
    simp only [Except.ok.injEq, Prod.mk.injEq] at h
    obtain ⟨-, rfl⟩ := h
    exact Nat.le_of_lt (mark?_length hp)
  · simp at h
  · rename_i c tail _ hd
    have h₁ := mark?_length hd
    split at h
    · split at h
      · rename_i hp
        have h₂ := mark?_length hp
        cases hr : r.resolve name with
        | error e => simp [hr, bind, Except.bind] at h
        | ok found =>
          simp [hr, bind, Except.bind, pure, Except.pure] at h
          obtain ⟨-, rfl⟩ := h
          simp at h₁
          omega
      · simp at h
    · simp at h
  · split at h
    · simp only [Except.ok.injEq, Prod.mk.injEq] at h
      simp [h.2]
    · simp at h

/-- A beginning takes at least one token. -/
theorem start_length {r : Reader} {m : Manager} {cell : Cell} {ts rest : List Token} {s : Start}
    (h : start r m cell ts = .ok (s, rest)) : rest.length < ts.length := by
  cases ts with
  | nil => simp [start] at h
  | cons t ts =>
    simp only [start] at h
    split at h
    · rename_i n _
      cases hn : decodeInteger n <;> simp [hn, bind, Except.bind, pure, Except.pure] at h
      simp [← h.2]
    · simp at h
      simp [← h.2]
    · rename_i path numbers _
      cases hp : decodeEscapes .locationPath .path path with
      | error e => simp [hp, bind, Except.bind] at h
      | ok p =>
        cases hs : decodeSpan numbers <;> simp [hp, hs, bind, Except.bind, pure, Except.pure] at h
        simp [← h.2]
    · rename_i body _
      cases hb : decodeEscapes .string .string body with
      | error e => simp [hb, bind, Except.bind] at h
      | ok b =>
        cases hm : mark? .openParen ts with
        | none =>
          simp [hb, hm, bind, Except.bind, pure, Except.pure] at h
          simp [← h.2]
        | some tail =>
          simp [hb, hm, bind, Except.bind, pure, Except.pure] at h
          have := mark?_length hm
          simp [← h.2]
          omega
    · have := startName_length h
      simp
      omega
    all_goals simp at h
    all_goals simp [← h.2]

end Reader

end ValueAlgebra
