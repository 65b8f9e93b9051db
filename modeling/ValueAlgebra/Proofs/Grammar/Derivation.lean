import ValueAlgebra.Codec.Start
import ValueAlgebra.Proofs.Success

/-!
# The grammar of values

A derivation of a value from lexemes, apart from any machine that reads them. `Derivation.lexemes`
is the sequence that a derivation derives, `Derivation.depth` how many brackets are open at once
in it, and `Derivation.build` its recursive reading: children from left to right, then the value
around them, each value in the next cell.

## Main definitions

- `Scalar`, `Bracket`: the values without and with children, maps apart
- `Derivation`: derivations, where the entries of a map are pairs
- `Derivation.lexemes`, `Derivation.depth`, `Derivation.build`
-/

namespace ValueAlgebra

/-- The names that stand for values. -/
inductive Constant
  | yes
  | no
  | nan
  | infinity
  deriving DecidableEq, Repr

namespace Constant

def chars : Constant → List Char
  | yes => ['t', 'r', 'u', 'e']
  | no => ['f', 'a', 'l', 's', 'e']
  | nan => ['n', 'a', 'n']
  | infinity => ['i', 'n', 'f']

def value (m : Manager) : Constant → Value
  | yes => Build.bool m true
  | no => Build.bool m false
  | nan => Build.double m .nan
  | infinity => Build.double m .infinity

end Constant

/-- A value of a single lexeme. -/
inductive Scalar
  | integer (numeral : List Char)
  | double (numeral : List Char)
  | string (body : List Char)
  | location (path : List Char) (numbers : List (List Char))
  | constant (c : Constant)
  deriving DecidableEq, Repr

namespace Scalar

def lexeme : Scalar → Lexeme
  | integer n => .integer n
  | double n => .double n
  | string body => .string body
  | location path numbers => .location path numbers
  | constant c => .name c.chars

/-- The value of a scalar whose numerals and literals can be decoded. -/
def value (m : Manager) (cell : Cell) : Scalar → Except ReadError Value
  | integer n => do return Build.int m (← Reader.decodeInteger n)
  | double n => .ok (Build.double m (.ofNumeral n))
  | string body => do
    return Build.str m cell (String.ofList (← Reader.decodeEscapes .string .string body))
  | location path numbers => do
    let path ← Reader.decodeEscapes .locationPath .path path
    return Build.loc m cell (String.ofList path) (← Reader.decodeSpan numbers)
  | constant c => .ok (c.value m)

/-- The values of scalars are of five sorts. -/
theorem value_cases {sc : Scalar} {m : Manager} {c : Cell} {v : Value}
    (h : sc.value m c = .ok v) : (∃ i, v = Build.int m i) ∨ (∃ d, v = Build.double m d) ∨
      (∃ b, v = Build.bool m b) ∨ (∃ t, v = Build.str m c t) ∨ ∃ p x, v = Build.loc m c p x := by
  cases sc with
  | integer =>
    obtain ⟨i, -, rfl⟩ := map_eq_ok.1 h
    exact .inl ⟨i, rfl⟩
  | double =>
    obtain rfl := Except.ok.inj h
    exact .inr (.inl ⟨_, rfl⟩)
  | string =>
    obtain ⟨b, -, rfl⟩ := map_eq_ok.1 h
    exact .inr (.inr (.inr (.inl ⟨_, rfl⟩)))
  | location =>
    obtain ⟨p, -, h⟩ := bind_eq_ok.1 h
    obtain ⟨x, -, rfl⟩ := map_eq_ok.1 h
    exact .inr (.inr (.inr (.inr ⟨_, _, rfl⟩)))
  | constant k =>
    obtain rfl := Except.ok.inj h
    cases k with
    | yes | no => exact .inr (.inr (.inl ⟨_, rfl⟩))
    | nan | infinity => exact .inr (.inl ⟨_, rfl⟩)

end Scalar

/-- What encloses a sequence of values. The name of a node is a name or a string. -/
inductive Bracket
  | tuple
  | list
  | set
  | node (name : List Char)
  | quotedNode (body : List Char)
  | constructor (adt name : List Char)
  deriving DecidableEq, Repr

namespace Bracket

/-- The lexemes up to and including the opening mark. -/
def opening : Bracket → List Lexeme
  | tuple => [.mark .less]
  | list => [.mark .openBracket]
  | set => [.mark .openBrace]
  | node name => [.name name, .mark .openParen]
  | quotedNode body => [.string body, .mark .openParen]
  | constructor adt name => [.name adt, .mark .doubleColon, .name name, .mark .openParen]

def closer : Bracket → Mark
  | tuple => .greater
  | list => .closeBracket
  | set => .closeBrace
  | node _ | quotedNode _ | constructor .. => .closeParen

/-- What the bracket begins once its name is decoded and its data type is found. -/
def resolve (r : Reader) : Bracket → Except ReadError Opening
  | tuple => .ok .tuple
  | list => .ok .list
  | set => .ok .set
  | node name => .ok (.node name)
  | quotedNode body => do return .node (← Reader.decodeEscapes .string .string body)
  | constructor adt name => do
    let (store, owner) ← r.resolve adt
    return .constructor store owner name

end Bracket

inductive Derivation
  | scalar (s : Scalar)
  | bracket (b : Bracket) (children : List Derivation)
  | map (entries : List (Derivation × Derivation))
  deriving Inhabited

namespace Derivation

mutual

/-- The lexemes that a derivation derives. -/
def lexemes : Derivation → List Lexeme
  | scalar s => [s.lexeme]
  | bracket b ts => b.opening ++ (sequence ts ++ [.mark b.closer])
  | map es => .mark .openParen :: (entries es ++ [.mark .closeParen])

/-- Nothing, or values separated by commas. -/
def sequence : List Derivation → List Lexeme
  | [] => []
  | t :: ts => t.lexemes ++ sequenceRest ts

/-- Values with a comma before each. -/
def sequenceRest : List Derivation → List Lexeme
  | [] => []
  | t :: ts => .mark .comma :: (t.lexemes ++ sequenceRest ts)

/-- Nothing, or keys and values joined by colons and separated by commas. -/
def entries : List (Derivation × Derivation) → List Lexeme
  | [] => []
  | (k, v) :: es => k.lexemes ++ .mark .colon :: (v.lexemes ++ entriesRest es)

/-- Entries with a comma before each. -/
def entriesRest : List (Derivation × Derivation) → List Lexeme
  | [] => []
  | (k, v) :: es => .mark .comma :: (k.lexemes ++ .mark .colon :: (v.lexemes ++ entriesRest es))

end

mutual

/-- How many brackets are open at once. Empty ones count. -/
def depth : Derivation → Nat
  | scalar _ => 0
  | bracket _ ts => depthAll ts + 1
  | map es => depthEntries es + 1

def depthAll : List Derivation → Nat
  | [] => 0
  | t :: ts => max t.depth (depthAll ts)

def depthEntries : List (Derivation × Derivation) → Nat
  | [] => 0
  | (k, v) :: es => max (max k.depth v.depth) (depthEntries es)

end

theorem depthAll_le {ts : List Derivation} {k : Nat} :
    depthAll ts ≤ k ↔ ∀ t ∈ ts, t.depth ≤ k := by
  induction ts with
  | nil => simp [depthAll]
  | cons t ts ih => rw [depthAll, Nat.max_le, ih, List.forall_mem_cons]

theorem depthEntries_le {es : List (Derivation × Derivation)} {k : Nat} :
    depthEntries es ≤ k ↔ ∀ e ∈ es, max e.1.depth e.2.depth ≤ k := by
  induction es with
  | nil => simp [depthEntries]
  | cons e es ih => rw [depthEntries, Nat.max_le, ih, List.forall_mem_cons]

mutual

/-- The value of a derivation and the next free cell. -/
def build (r : Reader) (m : Manager) : Derivation → Cell → Except ReadError (Value × Cell)
  | scalar s, cell => do return (← s.value m cell, cell + 1)
  | bracket b ts, cell => do
    let o ← b.resolve r
    let (vs, cell) ← buildAll r m ts cell
    match o.close m cell vs with
    | .ok v => return (v, cell + 1)
    | .error e => .error (.type e)
  | map es, cell => do
    let (vs, cell) ← buildEntries r m es cell
    return (Build.map m cell vs, cell + 1)

def buildAll (r : Reader) (m : Manager) :
    List Derivation → Cell → Except ReadError (List Value × Cell)
  | [], cell => .ok ([], cell)
  | t :: ts, cell => do
    let (v, cell) ← t.build r m cell
    let (vs, cell) ← buildAll r m ts cell
    return (v :: vs, cell)

def buildEntries (r : Reader) (m : Manager) :
    List (Derivation × Derivation) → Cell → Except ReadError (List (Value × Value) × Cell)
  | [], cell => .ok ([], cell)
  | (k, v) :: es, cell => do
    let (key, cell) ← k.build r m cell
    let (val, cell) ← v.build r m cell
    let (rest, cell) ← buildEntries r m es cell
    return ((key, val) :: rest, cell)

end

/-! ### What a successful reading consists of -/

section

variable {r : Reader} {m : Manager} {cell n : Cell}

theorem build_scalar_eq_ok {s : Scalar} {v : Value} :
    (scalar s).build r m cell = .ok (v, n) ↔ s.value m cell = .ok v ∧ cell + 1 = n := by
  rw [build]
  constructor
  · intro h
    obtain ⟨w, hw, h⟩ := bind_eq_ok.1 h
    obtain ⟨rfl, rfl⟩ := Prod.mk.inj (pure_eq_ok.1 h)
    exact ⟨hw, rfl⟩
  · rintro ⟨hv, rfl⟩
    exact bind_eq_ok.2 ⟨v, hv, rfl⟩

theorem build_bracket_eq_ok {b : Bracket} {ts : List Derivation} {v : Value} :
    (bracket b ts).build r m cell = .ok (v, n) ↔ ∃ o vs c, b.resolve r = .ok o ∧
      buildAll r m ts cell = .ok (vs, c) ∧ o.close m c vs = .ok v ∧ c + 1 = n := by
  rw [build]
  constructor
  · intro h
    obtain ⟨o, ho, h⟩ := bind_eq_ok.1 h
    obtain ⟨⟨vs, c⟩, hvs, h⟩ := bind_eq_ok.1 h
    dsimp only at h
    split at h
    · next w hw =>
      obtain ⟨rfl, rfl⟩ := Prod.mk.inj (pure_eq_ok.1 h)
      exact ⟨o, vs, c, ho, hvs, hw, rfl⟩
    · cases h
  · rintro ⟨o, vs, c, ho, hvs, hv, rfl⟩
    refine bind_eq_ok.2 ⟨o, ho, bind_eq_ok.2 ⟨(vs, c), hvs, ?_⟩⟩
    simp only [hv]
    rfl

theorem build_map_eq_ok {es : List (Derivation × Derivation)} {v : Value} :
    (map es).build r m cell = .ok (v, n) ↔ ∃ xs c, buildEntries r m es cell = .ok (xs, c) ∧
      Build.map m c xs = v ∧ c + 1 = n := by
  rw [build]
  constructor
  · intro h
    obtain ⟨⟨xs, c⟩, hxs, h⟩ := bind_eq_ok.1 h
    obtain ⟨rfl, rfl⟩ := Prod.mk.inj (pure_eq_ok.1 h)
    exact ⟨xs, c, hxs, rfl, rfl⟩
  · rintro ⟨xs, c, hxs, rfl, rfl⟩
    exact bind_eq_ok.2 ⟨(xs, c), hxs, rfl⟩

theorem buildAll_nil_eq_ok {vs : List Value} :
    buildAll r m [] cell = .ok (vs, n) ↔ vs = [] ∧ cell = n := by
  rw [buildAll]
  constructor
  · intro h
    obtain ⟨rfl, rfl⟩ := Prod.mk.inj (Except.ok.inj h)
    exact ⟨rfl, rfl⟩
  · rintro ⟨rfl, rfl⟩
    rfl

theorem buildAll_cons_eq_ok {t : Derivation} {ts : List Derivation} {vs : List Value} :
    buildAll r m (t :: ts) cell = .ok (vs, n) ↔ ∃ v c ws, t.build r m cell = .ok (v, c) ∧
      buildAll r m ts c = .ok (ws, n) ∧ v :: ws = vs := by
  rw [buildAll]
  constructor
  · intro h
    obtain ⟨⟨v, c⟩, hv, h⟩ := bind_eq_ok.1 h
    obtain ⟨⟨ws, c'⟩, hws, h⟩ := bind_eq_ok.1 h
    obtain ⟨rfl, rfl⟩ := Prod.mk.inj (pure_eq_ok.1 h)
    exact ⟨v, c, ws, hv, hws, rfl⟩
  · rintro ⟨v, c, ws, hv, hws, rfl⟩
    exact bind_eq_ok.2 ⟨(v, c), hv, bind_eq_ok.2 ⟨(ws, n), hws, rfl⟩⟩

theorem buildEntries_nil_eq_ok {xs : List (Value × Value)} :
    buildEntries r m [] cell = .ok (xs, n) ↔ xs = [] ∧ cell = n := by
  rw [buildEntries]
  constructor
  · intro h
    obtain ⟨rfl, rfl⟩ := Prod.mk.inj (Except.ok.inj h)
    exact ⟨rfl, rfl⟩
  · rintro ⟨rfl, rfl⟩
    rfl

theorem buildEntries_cons_eq_ok {k v : Derivation} {es : List (Derivation × Derivation)}
    {xs : List (Value × Value)} :
    buildEntries r m ((k, v) :: es) cell = .ok (xs, n) ↔ ∃ key c val c' ys,
      k.build r m cell = .ok (key, c) ∧ v.build r m c = .ok (val, c') ∧
      buildEntries r m es c' = .ok (ys, n) ∧ (key, val) :: ys = xs := by
  rw [buildEntries]
  constructor
  · intro h
    obtain ⟨⟨key, c⟩, hk, h⟩ := bind_eq_ok.1 h
    obtain ⟨⟨val, c'⟩, hv, h⟩ := bind_eq_ok.1 h
    obtain ⟨⟨ys, c''⟩, hys, h⟩ := bind_eq_ok.1 h
    obtain ⟨rfl, rfl⟩ := Prod.mk.inj (pure_eq_ok.1 h)
    exact ⟨key, c, val, c', ys, hk, hv, hys, rfl⟩
  · rintro ⟨key, c, val, c', ys, hk, hv, hys, rfl⟩
    exact bind_eq_ok.2 ⟨(key, c), hk, bind_eq_ok.2 ⟨(val, c'), hv,
      bind_eq_ok.2 ⟨(ys, n), hys, rfl⟩⟩⟩

end

end Derivation

end ValueAlgebra
