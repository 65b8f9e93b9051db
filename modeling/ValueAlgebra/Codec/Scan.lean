import ValueAlgebra.Codec.Token
import ValueAlgebra.Literal.Basic
import ValueAlgebra.Value.Name

/-!
# Reading one token

At each place the sorts of token are tried in a fixed order: location, double, integer, string,
name, punctuation. Each takes as many characters as it can. Blanks are skipped between the parts
of a location.

Scanners return the token, the characters it takes and the rest. `Scanned.Splits` says that these
two make up the input and that something was taken; `scan_splits` proves it of every token.
-/

namespace ValueAlgebra

/-- Blanks are spaces, tabs, carriage returns and line feeds. -/
def isBlank (c : Char) : Bool := c == ' ' || c == '\t' || c == '\r' || c == '\n'

/-- A token read from the front of a text. -/
structure Scanned where
  lexeme : Lexeme
  raw : List Char
  rest : List Char

/-- The text is what was taken, which is not empty, and the rest. -/
def Scanned.Splits (s : Scanned) (cs : List Char) : Prop := s.raw ++ s.rest = cs ∧ s.raw ≠ []

theorem Scanned.Splits.length_lt {s : Scanned} {cs : List Char} (h : s.Splits cs) :
    s.rest.length < cs.length := by
  obtain ⟨rfl, hne⟩ := h
  have := List.length_pos_iff.2 hne
  simp
  omega

namespace Lexer

/-- A leading character out of `allowed`, which may be missing, and the rest. -/
def sign (allowed : List Char) : List Char → List Char × List Char
  | [] => ([], [])
  | c :: cs => if c ∈ allowed then ([c], cs) else ([], c :: cs)

/-- An optional sign and digits, and the rest. -/
def signed? (allowed cs : List Char) : Option (List Char × List Char) :=
  let s := sign allowed cs
  let digits := s.2.takeWhile Char.isDigit
  if digits = [] then none else some (s.1 ++ digits, s.2.dropWhile Char.isDigit)

/-- An exponent, which may be missing, and the rest. -/
def exponent : List Char → List Char × List Char
  | [] => ([], [])
  | e :: cs =>
    if e = 'e' ∨ e = 'E' then
      match signed? ['+', '-'] cs with
      | some (power, rest) => (e :: power, rest)
      | none => ([], e :: cs)
    else ([], e :: cs)

def integer? (cs : List Char) : Option Scanned :=
  (signed? ['-'] cs).map fun (n, rest) => ⟨.integer n, n, rest⟩

/-- Digits with a point, an optional fraction and an optional exponent, or `-inf` unless a name
goes on. -/
def double? (cs : List Char) : Option Scanned :=
  match cs with
  | '-' :: 'i' :: 'n' :: 'f' :: rest =>
    if rest.head?.any Name.isPart then none
    else some ⟨.double ['-', 'i', 'n', 'f'], ['-', 'i', 'n', 'f'], rest⟩
  | cs =>
    match signed? ['-'] cs with
    | some (whole, '.' :: rest) =>
      let fraction := rest.takeWhile Char.isDigit
      let (power, rest) := exponent (rest.dropWhile Char.isDigit)
      let numeral := whole ++ '.' :: (fraction ++ power)
      some ⟨.double numeral, numeral, rest⟩
    | _ => none

/-- How many characters precede the closing delimiter, beyond `n`. A backslash hides the character
after it. -/
def closingIndex? (delimiter : Char) (n : Nat) : List Char → Option Nat
  | [] => none
  | c :: cs =>
    if c = delimiter then some n
    else if c = '\\' then
      match cs with
      | [] => none
      | _ :: cs => closingIndex? delimiter (n + 2) cs
    else closingIndex? delimiter (n + 1) cs

/-- The body of a literal and the rest after its closing delimiter. -/
def quoted? (l : Literal) : List Char → Option (List Char × List Char)
  | [] => none
  | c :: cs =>
    if c = l.delimiter then
      (closingIndex? l.delimiter 0 cs).map fun n => (cs.take n, cs.drop (n + 1))
    else none

/-- The characters of a literal with the given body. -/
def enclose (l : Literal) (body : List Char) : List Char := l.delimiter :: (body ++ [l.delimiter])

def string? (cs : List Char) : Option Scanned :=
  (quoted? .string cs).map fun (body, rest) => ⟨.string body, enclose .string body, rest⟩

def name? : List Char → Option Scanned
  | [] => none
  | c :: cs =>
    if Name.isStart c then
      let raw := c :: cs.takeWhile Name.isPart
      some ⟨.name raw, raw, cs.dropWhile Name.isPart⟩
    else none

def mark? (cs : List Char) : Option Scanned :=
  let taken (m : Mark) (rest : List Char) : Option Scanned := some ⟨.mark m, m.chars, rest⟩
  match cs with
  | ':' :: ':' :: rest => taken .doubleColon rest
  | ':' :: rest => taken .colon rest
  | '<' :: rest => taken .less rest
  | '>' :: rest => taken .greater rest
  | '[' :: rest => taken .openBracket rest
  | ']' :: rest => taken .closeBracket rest
  | '\x7b' :: rest => taken .openBrace rest
  | '\x7d' :: rest => taken .closeBrace rest
  | '(' :: rest => taken .openParen rest
  | ')' :: rest => taken .closeParen rest
  | ',' :: rest => taken .comma rest
  | _ => none

/-- A part of a location after its path. -/
inductive Part
  | mark (c : Char)
  | number

/-- The parts after the path: `(offset,length,<line,column>,<line,column>)`. -/
def locationParts : List Part :=
  [.mark '(', .number, .mark ',', .number, .mark ',',
    .mark '<', .number, .mark ',', .number, .mark '>', .mark ',',
    .mark '<', .number, .mark ',', .number, .mark '>', .mark ')']

/-- Reads the parts in turn, with blanks before each. Returns the numbers, the characters taken
and the rest. A missing number is an error at its place, given by the characters before it; a
missing mark is one of the whole. -/
def parts : List Part → List Char →
    Except (Option (List Char)) (List (List Char) × List Char × List Char)
  | [], cs => .ok ([], [], cs)
  | .mark m :: ps, cs =>
    let blanks := cs.takeWhile isBlank
    match cs.dropWhile isBlank with
    | [] => .error none
    | c :: rest =>
      if c = m then
        match parts ps rest with
        | .ok (ns, raw, rest) => .ok (ns, blanks ++ c :: raw, rest)
        | .error e => .error (e.map fun taken => blanks ++ c :: taken)
      else .error none
  | .number :: ps, cs =>
    let blanks := cs.takeWhile isBlank
    let cs := cs.dropWhile isBlank
    let digits := cs.takeWhile Char.isDigit
    if digits.isEmpty then .error (some blanks)
    else
      match parts ps (cs.dropWhile Char.isDigit) with
      | .ok (ns, raw, rest) => .ok (digits :: ns, blanks ++ (digits ++ raw), rest)
      | .error e => .error (e.map fun taken => blanks ++ (digits ++ taken))

/-- A path and the parts of a span. The error holds the characters before the place to blame. -/
def location (cs : List Char) : Except (List Char) Scanned :=
  match quoted? .path cs with
  | none => .error []
  | some (path, rest) =>
    match parts locationParts rest with
    | .ok (numbers, raw, rest) => .ok ⟨.location path numbers, enclose .path path ++ raw, rest⟩
    | .error none => .error []
    | .error (some before) => .error (enclose .path path ++ before)

/-- The token at the front of a text. No token but a location starts with a bar. The error holds
the characters before the place to blame. -/
def scan (cs : List Char) : Except (List Char) Scanned :=
  if cs.head? = some '|' then location cs
  else
    match double? cs <|> integer? cs <|> string? cs <|> name? cs <|> mark? cs with
    | some s => .ok s
    | none => .error []

/-! ### Tokens make up the text -/

theorem sign_eq (allowed cs : List Char) : (sign allowed cs).1 ++ (sign allowed cs).2 = cs := by
  cases cs with
  | nil => rfl
  | cons c cs => by_cases h : c ∈ allowed <;> simp [sign, h]

theorem signed?_eq {allowed cs n rest : List Char} (h : signed? allowed cs = some (n, rest)) :
    n ++ rest = cs ∧ n ≠ [] := by
  simp only [signed?, Option.ite_none_left_eq_some, Option.some.injEq, Prod.mk.injEq] at h
  obtain ⟨hne, rfl, rfl⟩ := h
  refine ⟨?_, by simp [hne]⟩
  rw [List.append_assoc, List.takeWhile_append_dropWhile, sign_eq]

theorem exponent_eq (cs : List Char) : (exponent cs).1 ++ (exponent cs).2 = cs := by
  fun_cases exponent cs with
  | case2 e cs he power rest h => simp [(signed?_eq h).1]
  | case1 | case3 | case4 => simp_all

theorem closingIndex?_eq {d : Char} {cs : List Char} {m n : Nat}
    (h : closingIndex? d m cs = some n) :
    ∃ k, n = m + k ∧ cs.take k ++ d :: cs.drop (k + 1) = cs := by
  fun_induction closingIndex? d m cs with
  | case1 => simp at h
  | case2 m cs => exact ⟨0, by simpa using h.symm, by simp⟩
  | case3 => simp at h
  | case4 m hc c cs ih =>
    obtain ⟨k, rfl, heq⟩ := ih h
    exact ⟨k + 2, by omega, by simpa using heq⟩
  | case5 m c cs hc hd ih =>
    obtain ⟨k, rfl, heq⟩ := ih h
    exact ⟨k + 1, by omega, by simpa using heq⟩

theorem quoted?_eq {l : Literal} {cs body rest : List Char} (h : quoted? l cs = some (body, rest)) :
    enclose l body ++ rest = cs := by
  cases cs with
  | nil => simp [quoted?] at h
  | cons c cs =>
    simp only [quoted?, Option.ite_none_right_eq_some, Option.map_eq_some_iff, Prod.mk.injEq] at h
    obtain ⟨rfl, n, hn, rfl, rfl⟩ := h
    obtain ⟨k, hk, heq⟩ := closingIndex?_eq hn
    obtain rfl : n = k := by omega
    simpa [enclose] using heq

theorem parts_eq {ps : List Part} {cs : List Char} {ns : List (List Char)} {raw rest : List Char}
    (h : parts ps cs = .ok (ns, raw, rest)) : raw ++ rest = cs := by
  induction ps generalizing cs ns raw rest with
  | nil => simp [parts] at h; simp [h]
  | cons p ps ih =>
    cases p with
    | mark m =>
      simp only [parts] at h
      split at h
      · simp at h
      · rename_i c tail hd
        split at h
        · split at h
          · rename_i hp
            simp only [Except.ok.injEq, Prod.mk.injEq] at h
            obtain ⟨-, rfl, rfl⟩ := h
            have := ih hp
            simp [this, ← hd]
          · simp at h
        · simp at h
    | number =>
      simp only [parts] at h
      split at h
      · simp at h
      · split at h
        · rename_i hp
          simp only [Except.ok.injEq, Prod.mk.injEq] at h
          obtain ⟨-, rfl, rfl⟩ := h
          have := ih hp
          simp [this]
        · simp at h

theorem scan_splits {cs : List Char} {s : Scanned} (h : scan cs = .ok s) : s.Splits cs := by
  unfold scan at h
  split at h
  · unfold location at h
    split at h
    · simp at h
    · rename_i path rest hq
      split at h
      · rename_i hp
        simp only [Except.ok.injEq] at h
        subst h
        refine ⟨?_, by simp [enclose]⟩
        rw [List.append_assoc, parts_eq hp, quoted?_eq hq]
      · simp at h
      · simp at h
  · split at h
    · rename_i s' hs
      simp only [Except.ok.injEq] at h
      subst h
      simp only [Option.orElse_eq_orElse, Option.orElse_eq_or, Option.or_eq_some_iff] at hs
      rcases hs with hs | ⟨-, hs | ⟨-, hs | ⟨-, hs | ⟨-, hs⟩⟩⟩⟩
      · unfold double? at hs
        split at hs
        · split at hs
          · simp at hs
          · simp only [Option.some.injEq] at hs
            subst hs
            simp [Scanned.Splits]
        · split at hs
          · rename_i whole rest hw
            simp only [Option.some.injEq] at hs
            subst hs
            obtain ⟨rfl, hne⟩ := signed?_eq hw
            refine ⟨?_, by simp⟩
            simp [exponent_eq]
          · simp at hs
      · simp only [integer?, Option.map_eq_some_iff] at hs
        obtain ⟨⟨n, rest⟩, hn, rfl⟩ := hs
        exact signed?_eq hn
      · simp only [string?, Option.map_eq_some_iff] at hs
        obtain ⟨⟨body, rest⟩, hb, rfl⟩ := hs
        exact ⟨quoted?_eq hb, by simp [enclose]⟩
      · unfold name? at hs
        split at hs
        · simp at hs
        · simp only [Option.ite_none_right_eq_some, Option.some.injEq] at hs
          obtain ⟨-, rfl⟩ := hs
          simp [Scanned.Splits]
      · unfold mark? at hs
        split at hs <;> simp at hs <;> subst hs <;> simp [Scanned.Splits, Mark.chars]
    · simp at h

end Lexer

end ValueAlgebra
