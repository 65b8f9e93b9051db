import ValueAlgebra.Proofs.Grammar.Storage

/-!
# Blanks do not matter to the reader

The reader looks at the lexemes of its tokens only. It copies a token into an error, with its
characters and its place, but decides nothing by these. So texts with the same lexemes are read
turn by turn alike.

## Main definitions

- `Token.bare`: a token without its characters and its place
- `ReadError.bare`: an error with a bare token
-/

namespace ValueAlgebra

namespace Token

/-- The token without its characters and its place. -/
def bare (t : Token) : Token := ⟨t.lexeme, [], .start⟩

@[simp]
theorem lexeme_bare (t : Token) : t.bare.lexeme = t.lexeme := rfl

theorem map_bare_congr {ts us : List Token} (h : lexemesOf ts = lexemesOf us) :
    ts.map bare = us.map bare := by
  have hbare (ts : List Token) :
      ts.map bare = (lexemesOf ts).map fun l => ⟨l, [], .start⟩ := by
    rw [lexemesOf, List.map_map]
    rfl
  rw [hbare, hbare, h]

end Token

/-- The error without the characters and the place of the token in it. -/
def ReadError.bare : ReadError → ReadError
  | .unexpected found wanted => .unexpected (found.map Token.bare) wanted
  | e => e

namespace Reader

variable {r : Reader} {m : Manager} {stack : List Frame} {cell : Cell} {ts : List Token}

@[simp]
theorem mark?_bare (k : Mark) (ts : List Token) :
    mark? k (ts.map Token.bare) = (mark? k ts).map (List.map Token.bare) := by
  cases ts with
  | nil => rfl
  | cons t ts =>
    by_cases h : t.lexeme = .mark k
    · simp [mark?, h]
    · simp [mark?, h]

/-- The answer on bare tokens, where the answer leaves some tokens. -/
def bareRest {α : Type} : Except ReadError (α × List Token) → Except ReadError (α × List Token)
  | .ok (a, rest) => .ok (a, rest.map Token.bare)
  | .error e => .error e.bare

/-- What does not look at tokens comes first. -/
theorem bareRest_bind {α β : Type} {x : Except ReadError β} (hx : x.mapError ReadError.bare = x)
    (f : β → Except ReadError (α × List Token)) :
    bareRest (x >>= f) = x >>= fun a => bareRest (f a) := by
  cases x with
  | ok a => rfl
  | error e => exact congrArg Except.error (Except.error.inj hx)

/-! ### Beginnings of values -/

theorem bare_decodeEscapes (part : Encoded) (l : Literal) (body : List Char) :
    (decodeEscapes part l body).mapError ReadError.bare = decodeEscapes part l body := by
  unfold decodeEscapes
  cases l.unescape body <;> rfl

theorem bare_decodeInteger (n : List Char) :
    (decodeInteger n).mapError ReadError.bare = decodeInteger n := by
  unfold decodeInteger
  cases int64OfNumeral n <;> rfl

theorem bare_decodeNumber (n : List Char) :
    (decodeNumber n).mapError ReadError.bare = decodeNumber n := by
  unfold decodeNumber
  cases uint64OfDigits n <;> rfl

theorem bare_decodeSpan (ns : List (List Char)) :
    (decodeSpan ns).mapError ReadError.bare = decodeSpan ns := by
  have hnumbers : (ns.mapM decodeNumber).mapError ReadError.bare = ns.mapM decodeNumber := by
    induction ns with
    | nil => rfl
    | cons n ns ih =>
      rw [List.mapM_cons, mapError_bind, bare_decodeNumber]
      refine congrArg _ (funext fun x => ?_)
      rw [mapError_bind, ih]
      rfl
  unfold decodeSpan
  rw [mapError_bind, hnumbers]
  rfl

theorem bare_resolve (name : List Char) :
    (r.resolve name).mapError ReadError.bare = r.resolve name := by
  unfold resolve
  split <;> rfl

theorem startName_bare (t : Token) (name : List Char) (ts : List Token) :
    r.startName m t.bare name (ts.map Token.bare) = bareRest (r.startName m t name ts) := by
  unfold startName
  rw [mark?_bare, mark?_bare]
  cases mark? .openParen ts with
  | some rest => rfl
  | none =>
    cases mark? .doubleColon ts with
    | none =>
      simp only [Option.map_none]
      cases reservedValue? m name <;> rfl
    | some rest =>
      cases rest with
      | nil => rfl
      | cons c rest =>
        obtain ⟨l, raw, position⟩ := c
        cases l with
        | name n =>
          simp only [Option.map_none, Option.map_some, List.map_cons, Token.lexeme_bare, mark?_bare]
          cases mark? .openParen rest with
          | none => cases rest <;> rfl
          | some rest =>
            simp only [Option.map_some]
            rw [bareRest_bind (bare_resolve name)]
            rfl
        | _ => rfl

theorem start_bare (ts : List Token) :
    start r m cell (ts.map Token.bare) = bareRest (start r m cell ts) := by
  cases ts with
  | nil => rfl
  | cons t ts =>
    obtain ⟨l, raw, position⟩ := t
    cases l with
    | integer n =>
      simp only [start, List.map_cons, Token.lexeme_bare]
      rw [bareRest_bind (bare_decodeInteger n)]
      rfl
    | double n => rfl
    | string body =>
      simp only [start, List.map_cons, Token.lexeme_bare, mark?_bare]
      rw [bareRest_bind (bare_decodeEscapes .string .string body)]
      refine congrArg _ (funext fun s => ?_)
      cases mark? .openParen ts <;> rfl
    | location path ns =>
      simp only [start, List.map_cons, Token.lexeme_bare]
      rw [bareRest_bind (bare_decodeEscapes .locationPath .path path)]
      refine congrArg _ (funext fun p => ?_)
      rw [bareRest_bind (bare_decodeSpan ns)]
      rfl
    | name n => exact startName_bare _ n ts
    | mark k => cases k <;> rfl

/-! ### Runs -/

/-- The answer of the loop on bare tokens. -/
def bareAnswer : Except ReadError Answer → Except ReadError Answer
  | .ok (v, cell, rest) => .ok (v, cell, rest.map Token.bare)
  | .error e => .error e.bare

namespace Loop

/-- The state on bare tokens. -/
def bare : Loop → Loop
  | reading stack cell ts => reading stack cell (ts.map Token.bare)
  | delivering stack v cell ts => delivering stack v cell (ts.map Token.bare)
  | done a => done (bareAnswer a)

/-- A turn on bare tokens is the same turn. -/
theorem step_bare (s : Loop) : s.bare.step r m = (s.step r m).bare := by
  cases s with
  | reading stack cell ts =>
    simp only [bare, step, start_bare]
    cases start r m cell ts with
    | error e => rfl
    | ok p =>
      obtain ⟨st, rest⟩ := p
      cases st with
      | value v => rfl
      | opening o =>
        simp only [bareRest, mark?_bare]
        by_cases hdepth : r.maxDepth ≤ stack.length
        · simp only [if_pos hdepth]
          rfl
        simp only [if_neg hdepth]
        cases mark? o.closer rest with
        | none => rfl
        | some rest =>
          simp only [Option.map_some]
          cases o.close m cell [] <;> rfl
  | delivering stack v cell ts =>
    cases stack with
    | nil => rfl
    | cons f stack =>
      simp only [bare, step, mark?_bare, List.head?_map]
      cases (f.push v).awaitsValue with
      | true =>
        cases mark? .colon ts <;> rfl
      | false =>
        simp only [Bool.false_eq_true, if_false]
        cases mark? .comma ts with
        | some rest => rfl
        | none =>
          simp only [Option.map_none]
          cases mark? f.opening.closer ts with
          | none => rfl
          | some rest =>
            simp only [Option.map_some]
            cases (f.push v).close m cell <;> rfl
  | done a => rfl

theorem iterate_bare (k : Nat) (s : Loop) :
    (step r m)^[k] s.bare = ((step r m)^[k] s).bare :=
  (Function.Semiconj.iterate_right (f := bare) (fun s => (step_bare s).symm) k s).symm

end Loop

theorem value_bare (cell : Cell) (ts : List Token) :
    r.value m [] cell (ts.map Token.bare) = bareAnswer (r.value m [] cell ts) := by
  have hbare := Loop.iterate_bare (r := r) (m := m) (ts.length + 1) (.reading [] cell ts)
  have hturns := Loop.iterate_reading r m cell (ts.map Token.bare)
  rw [List.length_map] at hturns
  rw [Loop.iterate_reading] at hbare
  exact Loop.done.inj (hturns.symm.trans hbare)

theorem parse_bare (cell : Cell) (ts : List Token) :
    r.parse m cell (ts.map Token.bare) = (r.parse m cell ts).mapError ReadError.bare := by
  unfold parse
  rw [value_bare]
  cases r.value m [] cell ts with
  | error e => rfl
  | ok a =>
    obtain ⟨v, n, rest⟩ := a
    cases rest <;> rfl

/-- Lists of tokens with the same lexemes are read alike, up to the token that an error shows. -/
theorem parse_congr {ts us : List Token} (h : lexemesOf ts = lexemesOf us) :
    (r.parse m cell ts).mapError ReadError.bare = (r.parse m cell us).mapError ReadError.bare := by
  rw [← parse_bare, ← parse_bare, Token.map_bare_congr h]

/-- An error on other tokens with the same lexemes shows the same lexeme, if any. -/
theorem exists_error_of_bare {x y : Except ReadError (Value × Cell)} {e : ReadError}
    (h : x.mapError ReadError.bare = y.mapError ReadError.bare) (hy : y = .error e) :
    ∃ e', x = .error e' ∧ e'.bare = e.bare := by
  subst hy
  cases x with
  | ok a => cases h
  | error e' => exact ⟨e', rfl, Except.error.inj h⟩

theorem ok_of_bare {x y : Except ReadError (Value × Cell)} {a : Value × Cell}
    (h : x.mapError ReadError.bare = y.mapError ReadError.bare) (hy : y = .ok a) : x = .ok a := by
  subst hy
  cases x with
  | ok b => exact h
  | error e => cases h

/-- More blanks between the pieces of a text change neither its lexemes nor what is read from it,
wherever it is stored. An error shows the same lexeme, perhaps with other blanks in it and at
another place. -/
theorem read_loosened {text text' : String} {ts : List Token}
    (hts : Lexer.tokens text.toList = .ok ts)
    (h : Loosened ((lexemesOf ts).flatMap Lexeme.pieces) text.toList text'.toList) :
    (∃ ts', Lexer.tokens text'.toList = .ok ts' ∧ lexemesOf ts' = lexemesOf ts) ∧
    ∀ (r : Reader) (m : Manager) (c c' : Cell),
      (∀ v n, r.read m c text = .ok (v, n) →
        ∃ w n', r.read m c' text' = .ok (w, n') ∧ w.ty = v.ty ∧
          ∀ s : Session, s.Reachable → s.Has v → s.Has w → (v == w) = true) ∧
      ∀ e, r.read m c text = .error e →
        ∃ e', r.read m c' text' = .error e' ∧ e'.bare = e.bare := by
  obtain ⟨ts', hts', hlexemes⟩ := Lexer.exists_tokens_of_loosened hts h
  refine ⟨⟨ts', hts', hlexemes⟩, fun r m c c' => ?_⟩
  have hbare (c : Cell) : (r.read m c text').mapError ReadError.bare =
      (r.read m c text).mapError ReadError.bare := by
    unfold read
    rw [hts, hts']
    exact parse_congr hlexemes
  constructor
  · intro v n hread
    exact exists_read_of_read (ok_of_bare (hbare c) hread) c'
  · intro e hread
    exact exists_error_of_bare (hbare c') (read_eq_error_of_read hread c')

/-! ### Blanks in a list -/

namespace Places

def manager : Manager := ⟨0⟩

def span : Span := ⟨0, 1, 1, 1, 0, 1⟩

/-- A location and a number in a list. -/
def places : Derivation :=
  .bracket .list [.scalar (.location ['a'] span.numerals), .scalar (.integer (numeralOf 2))]

theorem canonical_places : places.Canonical := by
  refine Derivation.canonical_bracket (List.forall_mem_singleton.2 trivial) ?_
  rw [List.forall_mem_cons, List.forall_mem_singleton]
  constructor
  · exact List.forall_mem_singleton.2 ⟨⟨['a'], rfl⟩, span.matches_numerals⟩
  · exact List.forall_mem_singleton.2 (Lexer.isNumeral_numeralOf 2)

/-- `[|a|(0,1,<1,0>,<1,1>),2]` -/
def text : String := String.ofList places.written

/-- The same with a blank wherever one may stand. -/
def spaced : String := String.ofList (spread [' '] (places.lexemes.flatMap Lexeme.pieces))

def values : Value :=
  Build.list manager 2 [Build.loc manager 0 "a" span, Build.int manager 2]

theorem read_places : ({} : Reader).read manager 0 text = .ok (values, 3) := by
  refine (read_written_eq_ok canonical_places (by decide)).2 ?_
  with_unfolding_all rfl

end Places

open Places in
/-- The spaced text, read next, gives a value of its own that is equal to the first. -/
theorem read_loosened_places :
    spaced = " [ |a| ( 0 , 1 , < 1 , 0 > , < 1 , 1 > ) , 2 ] " ∧
    ∃ w n, ({} : Reader).read manager 3 spaced = .ok (w, n) ∧ w.ty = values.ty ∧
      (values == w) = true := by
  obtain ⟨ts, hts, hlexemes⟩ := Derivation.tokens_written canonical_places
  have htext : Lexer.tokens text.toList = .ok ts := by rw [text, String.toList_ofList, hts]
  have hflat : text.toList = (places.lexemes.flatMap Lexeme.pieces).flatten := by
    rw [text, String.toList_ofList]
    rfl
  have hloosened : Loosened ((lexemesOf ts).flatMap Lexeme.pieces) text.toList spaced.toList := by
    rw [lexemesOf, hlexemes, hflat, spaced, String.toList_ofList]
    exact .spread (List.forall_mem_singleton.2 rfl) _
  obtain ⟨-, hread⟩ := read_loosened htext hloosened
  obtain ⟨w, n, hw, hty, heq⟩ := (hread {} manager 0 3).1 values 3 read_places
  have hstore : ∀ st ∈ ({} : Reader).store, st.Reachable := by
    intro st hst
    cases hst
  have hfirst : Session.Reachable ⟨3, [values], []⟩ :=
    .step .start (.read manager hstore read_places)
  have hboth : Session.Reachable ⟨n, [w, values], []⟩ := .step hfirst (.read manager hstore hw)
  exact ⟨by decide, w, n, hw, hty, heq _ hboth ⟨values, .tail _ (.head _), .refl⟩
    ⟨w, .head _, .refl⟩⟩

end Reader

end ValueAlgebra
