import ValueAlgebra.Proofs.Grammar.Derivation
import ValueAlgebra.Proofs.Text.Tokens

/-!
# Derivations need no blanks

The lexemes of a derivation can be written one after the other without blanks. In a derivation a
mark stands on at least one side of any two neighbours, and no value begins with a colon, so that
the colon before the value of an entry stays single.

## Main definitions

- `Derivation.written`: the text of a derivation, without blanks
- `Derivation.Canonical`: derivations with the numerals, literals and names of written values
-/

namespace ValueAlgebra

open Lexer (Separable)

/-- Nothing, or lexemes that start with a mark. -/
def StartsWithMark (ls : List Lexeme) : Prop := ∀ l ∈ ls.head?, ∃ k, l = .mark k

namespace Lexeme

theorem startsWithMark_cons (k : Mark) (ls : List Lexeme) : StartsWithMark (.mark k :: ls) :=
  fun _ h => ⟨k, (Option.some.inj h).symm⟩

/-- Before a mark everything ends, a colon apart. -/
theorem ends_of_startsWithMark {l : Lexeme} {ls : List Lexeme} (h : StartsWithMark ls)
    (hl : ∀ k, l ≠ .mark k) : l.Ends (ls.flatMap written) := by
  have hmarks : ∀ c ∈ (ls.flatMap written).head?, c ∈ markStarts := by
    cases ls with
    | nil => exact fun c hc => nomatch hc
    | cons l ls =>
      obtain ⟨k, rfl⟩ := h l rfl
      obtain ⟨c, cs, hk, hc⟩ := Lexer.exists_markStart k
      intro d hd
      rw [List.flatMap_cons, written, hk] at hd
      exact Option.some.inj hd ▸ hc
  cases l with
  | mark k => exact absurd rfl (hl k)
  | integer | double | string | location | name => exact hmarks

/-- Marks but the colon always end. -/
theorem ends_mark {k : Mark} (hk : k ≠ .colon) (rest : List Char) : (mark k).Ends rest := by
  cases k with
  | colon => exact absurd rfl hk
  | _ => trivial

theorem separable_mark {k : Mark} {ls : List Lexeme} (hk : k ≠ .colon) (h : Separable ls) :
    Separable (.mark k :: ls) := ⟨trivial, ends_mark hk _, h⟩

end Lexeme

open Lexeme

namespace Derivation

/-- Every lexeme can occur in the text of a value. -/
def Canonical (d : Derivation) : Prop := ∀ l ∈ d.lexemes, l.Canonical

/-- The text of a derivation, without blanks. -/
def written (d : Derivation) : List Char := d.lexemes.flatMap Lexeme.written

theorem written_bracket (b : Bracket) (ts : List Derivation) : (bracket b ts).written =
    b.opening.flatMap Lexeme.written ++
      ((sequence ts).flatMap Lexeme.written ++ b.closer.chars) := by
  simp [written, lexemes, Lexeme.written]

theorem written_map (es : List (Derivation × Derivation)) :
    (map es).written = '(' :: ((entries es).flatMap Lexeme.written ++ [')']) := by
  simp [written, lexemes, Lexeme.written, Mark.chars]

theorem canonical_sequenceRest {ts : List Derivation} (h : ∀ t ∈ ts, t.Canonical) :
    ∀ l ∈ sequenceRest ts, l.Canonical := by
  induction ts with
  | nil => exact List.forall_mem_nil _
  | cons t ts ih =>
    obtain ⟨ht, hts⟩ := List.forall_mem_cons.1 h
    rw [sequenceRest, List.forall_mem_cons, List.forall_mem_append]
    exact ⟨trivial, ht, ih hts⟩

theorem canonical_bracket {b : Bracket} {ts : List Derivation}
    (hb : ∀ l ∈ b.opening, l.Canonical) (h : ∀ t ∈ ts, t.Canonical) : (bracket b ts).Canonical := by
  rw [Canonical, lexemes, List.forall_mem_append, List.forall_mem_append, List.forall_mem_singleton]
  refine ⟨hb, ?_, trivial⟩
  cases ts with
  | nil => exact List.forall_mem_nil _
  | cons t ts =>
    obtain ⟨ht, hts⟩ := List.forall_mem_cons.1 h
    rw [sequence, List.forall_mem_append]
    exact ⟨ht, canonical_sequenceRest hts⟩

theorem canonical_entriesRest {es : List (Derivation × Derivation)}
    (h : ∀ e ∈ es, e.1.Canonical ∧ e.2.Canonical) : ∀ l ∈ entriesRest es, l.Canonical := by
  induction es with
  | nil => exact List.forall_mem_nil _
  | cons e es ih =>
    obtain ⟨⟨hk, hv⟩, hes⟩ := List.forall_mem_cons.1 h
    rw [entriesRest, List.forall_mem_cons, List.forall_mem_append, List.forall_mem_cons,
      List.forall_mem_append]
    exact ⟨trivial, hk, trivial, hv, ih hes⟩

theorem canonical_map {es : List (Derivation × Derivation)}
    (h : ∀ e ∈ es, e.1.Canonical ∧ e.2.Canonical) : (map es).Canonical := by
  rw [Canonical, lexemes, List.forall_mem_cons, List.forall_mem_append, List.forall_mem_singleton]
  refine ⟨trivial, ?_, trivial⟩
  cases es with
  | nil => exact List.forall_mem_nil _
  | cons e es =>
    obtain ⟨⟨hk, hv⟩, hes⟩ := List.forall_mem_cons.1 h
    rw [entries, List.forall_mem_append, List.forall_mem_cons, List.forall_mem_append]
    exact ⟨hk, trivial, hv, canonical_entriesRest hes⟩

/-- What a derivation begins with starts with no colon. -/
theorem head_written_ne_colon {d : Derivation} (hd : d.Canonical) (ls : List Lexeme) :
    ((d.lexemes ++ ls).flatMap Lexeme.written).head? ≠ some ':' := by
  have of_cons {l : Lexeme} {ks : List Lexeme} (hks : d.lexemes = l :: ks)
      (hl : l ≠ .mark .colon ∧ l ≠ .mark .doubleColon) :
      ((d.lexemes ++ ls).flatMap Lexeme.written).head? ≠ some ':' := by
    have hcanonical : l.Canonical := hd l (by rw [hks]; exact List.mem_cons_self)
    obtain ⟨c, cs, hcs, -, hcolon⟩ := Lexer.exists_written_cons hcanonical
    rw [hks, List.cons_append, List.flatMap_cons, hcs]
    intro h
    rcases hcolon (Option.some.inj h) with h | h
    · exact hl.1 h
    · exact hl.2 h
  cases d with
  | scalar s => exact of_cons rfl (by cases s <;> exact ⟨by rintro ⟨⟩, by rintro ⟨⟩⟩)
  | bracket b ts => cases b <;> exact of_cons rfl ⟨by rintro ⟨⟩, by rintro ⟨⟩⟩
  | map es => exact of_cons rfl (by decide)

theorem separable_opening {b : Bracket} {ls : List Lexeme} (hb : ∀ l ∈ b.opening, l.Canonical)
    (h : Separable ls) : Separable (b.opening ++ ls) := by
  cases b with
  | tuple | list | set => exact separable_mark (by decide) h
  | node name | quotedNode body =>
    refine ⟨hb _ List.mem_cons_self, ?_, separable_mark (by decide) h⟩
    exact ends_of_startsWithMark (startsWithMark_cons _ _) (by rintro k ⟨⟩)
  | constructor adt name =>
    have hname : Separable (.name name :: .mark .openParen :: ls) := by
      refine ⟨hb _ (by simp [Bracket.opening]), ?_, separable_mark (by decide) h⟩
      exact ends_of_startsWithMark (startsWithMark_cons _ _) (by rintro k ⟨⟩)
    refine ⟨hb _ List.mem_cons_self, ?_, separable_mark (by decide) hname⟩
    exact ends_of_startsWithMark (startsWithMark_cons _ _) (by rintro k ⟨⟩)

theorem startsWithMark_sequenceRest {ls : List Lexeme} (hls : StartsWithMark ls) :
    ∀ ts : List Derivation, StartsWithMark (sequenceRest ts ++ ls)
  | [] => hls
  | _ :: _ => startsWithMark_cons _ _

theorem startsWithMark_entriesRest {ls : List Lexeme} (hls : StartsWithMark ls) :
    ∀ es : List (Derivation × Derivation), StartsWithMark (entriesRest es ++ ls)
  | [] => hls
  | (_, _) :: _ => startsWithMark_cons _ _

/-- A colon between a key and a value. -/
theorem separable_colon {v : Derivation} {ls : List Lexeme} (hv : v.Canonical)
    (h : Separable (v.lexemes ++ ls)) : Separable (.mark .colon :: (v.lexemes ++ ls)) :=
  ⟨trivial, head_written_ne_colon hv ls, h⟩

mutual

theorem separable_lexemes : ∀ {d : Derivation} {ls : List Lexeme}, d.Canonical →
    Separable ls → StartsWithMark ls → Separable (d.lexemes ++ ls)
  | scalar s, ls, hd, h, hls => by
    refine ⟨hd _ List.mem_cons_self, ends_of_startsWithMark hls ?_, h⟩
    cases s <;> rintro k ⟨⟩
  | bracket b ts, ls, hd, h, hls => by
    rw [Canonical, lexemes, List.forall_mem_append, List.forall_mem_append] at hd
    have hcloser : Separable (.mark b.closer :: ls) := separable_mark (by cases b <;> rintro ⟨⟩) h
    rw [lexemes, List.append_assoc, List.append_assoc]
    exact separable_opening hd.1 (separable_sequence hd.2.1 hcloser (startsWithMark_cons _ _))
  | map es, ls, hd, h, hls => by
    rw [Canonical, lexemes, List.forall_mem_cons, List.forall_mem_append] at hd
    have hcloser : Separable (.mark .closeParen :: ls) := separable_mark (by decide) h
    rw [lexemes, List.cons_append, List.append_assoc]
    exact separable_mark (by decide) (separable_entries hd.2.1 hcloser (startsWithMark_cons _ _))

theorem separable_sequence : ∀ {ts : List Derivation} {ls : List Lexeme},
    (∀ l ∈ sequence ts, l.Canonical) → Separable ls → StartsWithMark ls →
      Separable (sequence ts ++ ls)
  | [], _, _, h, _ => h
  | t :: ts, ls, hts, h, hls => by
    rw [sequence, List.forall_mem_append] at hts
    rw [sequence, List.append_assoc]
    exact separable_lexemes hts.1 (separable_sequenceRest hts.2 h hls)
      (startsWithMark_sequenceRest hls ts)

theorem separable_sequenceRest : ∀ {ts : List Derivation} {ls : List Lexeme},
    (∀ l ∈ sequenceRest ts, l.Canonical) → Separable ls → StartsWithMark ls →
      Separable (sequenceRest ts ++ ls)
  | [], _, _, h, _ => h
  | t :: ts, ls, hts, h, hls => by
    rw [sequenceRest, List.forall_mem_cons, List.forall_mem_append] at hts
    rw [sequenceRest, List.cons_append, List.append_assoc]
    exact separable_mark (by decide) (separable_lexemes hts.2.1
      (separable_sequenceRest hts.2.2 h hls) (startsWithMark_sequenceRest hls ts))

theorem separable_entries : ∀ {es : List (Derivation × Derivation)} {ls : List Lexeme},
    (∀ l ∈ entries es, l.Canonical) → Separable ls → StartsWithMark ls →
      Separable (entries es ++ ls)
  | [], _, _, h, _ => h
  | (k, v) :: es, ls, hes, h, hls => by
    rw [entries, List.forall_mem_append, List.forall_mem_cons, List.forall_mem_append] at hes
    obtain ⟨hk, -, hv, hes⟩ := hes
    have hrest := separable_entriesRest hes h hls
    rw [entries, List.append_assoc, List.cons_append, List.append_assoc]
    exact separable_lexemes hk
      (separable_colon hv (separable_lexemes hv hrest (startsWithMark_entriesRest hls es)))
      (startsWithMark_cons _ _)

theorem separable_entriesRest : ∀ {es : List (Derivation × Derivation)} {ls : List Lexeme},
    (∀ l ∈ entriesRest es, l.Canonical) → Separable ls → StartsWithMark ls →
      Separable (entriesRest es ++ ls)
  | [], _, _, h, _ => h
  | (k, v) :: es, ls, hes, h, hls => by
    rw [entriesRest, List.forall_mem_cons, List.forall_mem_append, List.forall_mem_cons,
      List.forall_mem_append] at hes
    obtain ⟨-, hk, -, hv, hes⟩ := hes
    have hrest := separable_entriesRest hes h hls
    rw [entriesRest, List.cons_append, List.append_assoc, List.cons_append, List.append_assoc]
    exact separable_mark (by decide) (separable_lexemes hk
      (separable_colon hv (separable_lexemes hv hrest (startsWithMark_entriesRest hls es)))
      (startsWithMark_cons _ _))

end

/-- A derivation is read back from its lexemes written without blanks. -/
theorem tokens_written {d : Derivation} (hd : d.Canonical) : ∃ ts,
    Lexer.tokens d.written = .ok ts ∧ ts.map Token.lexeme = d.lexemes := by
  refine Lexer.tokens_written ?_
  rw [← List.append_nil d.lexemes]
  exact separable_lexemes hd trivial fun _ h => nomatch h

end Derivation

end ValueAlgebra
