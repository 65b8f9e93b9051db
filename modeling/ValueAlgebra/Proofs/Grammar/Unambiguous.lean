import ValueAlgebra.Proofs.Grammar.Derivation

/-!
# Unambiguity of the grammar

A sequence of lexemes has at most one derivation. What follows a value inside a bracket is a
separator or a closing mark, and neither can continue the value, so a derivation is fixed by any
sequence that starts with its lexemes.
-/

namespace ValueAlgebra

/-- A sequence that cannot continue the value before it: it opens no bracket after a name or
string and joins no name to another. -/
def Follows (ls : List Lexeme) : Prop :=
  ls.head? ≠ some (.mark .openParen) ∧ ls.head? ≠ some (.mark .doubleColon)

/-- The marks that end a value inside a bracket. -/
def Mark.IsDelimiter : Mark → Prop
  | .comma | .colon | .greater | .closeBracket | .closeBrace | .closeParen => True
  | _ => False

/-- The marks that close a bracket. -/
def Mark.IsCloser : Mark → Prop
  | .greater | .closeBracket | .closeBrace | .closeParen => True
  | _ => False

theorem Mark.IsCloser.isDelimiter {k : Mark} (hk : k.IsCloser) : k.IsDelimiter := by
  cases k <;> first | exact hk.elim | trivial

theorem Mark.IsCloser.ne_comma {k : Mark} (hk : k.IsCloser) : k ≠ .comma := by
  rintro rfl
  exact hk

theorem Mark.IsDelimiter.follows {k : Mark} (hk : k.IsDelimiter) (ls : List Lexeme) :
    Follows (.mark k :: ls) := by
  cases k <;> first | exact hk.elim | simp [Follows]

theorem follows_nil : Follows [] := by simp [Follows]

theorem Bracket.closer_isCloser (b : Bracket) : b.closer.IsCloser := by
  cases b <;> trivial

theorem Constant.chars_injective {c d : Constant} (h : c.chars = d.chars) : c = d := by
  cases c <;> cases d <;> simp_all [chars]

theorem Scalar.lexeme_injective {s t : Scalar} (h : s.lexeme = t.lexeme) : s = t := by
  cases s <;> cases t <;> simp_all [lexeme]
  exact Constant.chars_injective h

/-- Two opening brackets that start the same sequence are the same. -/
theorem Bracket.opening_append_injective {b c : Bracket} {ls ks : List Lexeme}
    (h : b.opening ++ ls = c.opening ++ ks) : b = c ∧ ls = ks := by
  cases b <;> cases c <;> simp_all [opening]

theorem Bracket.opening_ne_mark {b : Bracket} {ls ks : List Lexeme}
    (h : b.opening ++ ls = .mark .openParen :: ks) : False := by
  cases b <;> simp [opening] at h

/-- A lone scalar starts no bracket, as nothing that follows it opens one. -/
theorem Scalar.lexeme_cons_ne_opening {s : Scalar} {b : Bracket} {ls ks : List Lexeme}
    (hls : Follows ls) (h : s.lexeme :: ls = b.opening ++ ks) : False := by
  obtain ⟨hparen, hcolon⟩ := hls
  cases s <;> cases b <;> simp_all [lexeme, Bracket.opening]

theorem Scalar.lexeme_ne_mark (s : Scalar) (k : Mark) : s.lexeme ≠ .mark k := by
  cases s <;> simp [lexeme]

namespace Derivation

/-- No derivation starts with a separator or a closing mark. -/
theorem lexemes_append_ne (t : Derivation) {k : Mark} (hk : k.IsDelimiter) (ls ks : List Lexeme) :
    t.lexemes ++ ls ≠ .mark k :: ks := by
  cases t with
  | scalar s => simp [lexemes, s.lexeme_ne_mark]
  | bracket b ts => cases b <;> cases k <;> simp [lexemes, Bracket.opening, Mark.IsDelimiter] at hk ⊢
  | map es => cases k <;> simp [lexemes, Mark.IsDelimiter] at hk ⊢

theorem follows_sequenceRest (ts : List Derivation) {k : Mark} (hk : k.IsDelimiter)
    (ls : List Lexeme) : Follows (sequenceRest ts ++ .mark k :: ls) := by
  cases ts with
  | nil => exact hk.follows ls
  | cons t ts => exact Mark.IsDelimiter.follows (k := .comma) trivial _

theorem follows_entriesRest (es : List (Derivation × Derivation)) (ls : List Lexeme) :
    Follows (entriesRest es ++ .mark .closeParen :: ls) := by
  rcases es with _ | ⟨⟨key, val⟩, es⟩
  · exact Mark.IsDelimiter.follows (k := .closeParen) trivial ls
  · exact Mark.IsDelimiter.follows (k := .comma) trivial _

mutual

/-- A sequence that starts with the lexemes of two derivations starts with one derivation. -/
theorem lexemes_append_injective : ∀ (t u : Derivation) {ls ks : List Lexeme},
    Follows ls → Follows ks → t.lexemes ++ ls = u.lexemes ++ ks → t = u ∧ ls = ks
  | scalar s, scalar s', ls, ks, _, _, h => by
    simp only [lexemes, List.singleton_append, List.cons.injEq] at h
    exact ⟨congrArg scalar (Scalar.lexeme_injective h.1), h.2⟩
  | scalar s, bracket b ts, ls, ks, hls, _, h => by
    -- A string or a constant starts a bracket only if `(` or `::` follows, which `hls` excludes.
    simp only [lexemes, List.singleton_append, List.append_assoc] at h
    exact (Scalar.lexeme_cons_ne_opening hls h).elim
  | scalar s, map es, ls, ks, _, _, h => by
    simp only [lexemes, List.cons_append, List.cons.injEq] at h
    exact (s.lexeme_ne_mark _ h.1).elim
  | bracket b ts, scalar s, ls, ks, _, hks, h => by
    simp only [lexemes, List.singleton_append, List.append_assoc] at h
    exact (Scalar.lexeme_cons_ne_opening hks h.symm).elim
  | bracket b ts, bracket c us, ls, ks, _, _, h => by
    simp only [lexemes, List.append_assoc, List.singleton_append] at h
    obtain ⟨rfl, h⟩ := Bracket.opening_append_injective h
    obtain ⟨rfl, rfl⟩ := sequence_append_injective ts us b.closer_isCloser h
    exact ⟨rfl, rfl⟩
  | bracket b ts, map es, ls, ks, _, _, h => by
    simp only [lexemes, List.append_assoc, List.cons_append] at h
    exact (Bracket.opening_ne_mark h).elim
  | map es, scalar s, ls, ks, _, _, h => by
    simp only [lexemes, List.cons_append, List.cons.injEq] at h
    exact (s.lexeme_ne_mark _ h.1.symm).elim
  | map es, bracket b ts, ls, ks, _, _, h => by
    simp only [lexemes, List.append_assoc, List.cons_append] at h
    exact (Bracket.opening_ne_mark h.symm).elim
  | map es, map fs, ls, ks, _, _, h => by
    simp only [lexemes, List.append_assoc, List.cons_append, List.cons.injEq, true_and] at h
    obtain ⟨rfl, rfl⟩ := entries_append_injective es fs h
    exact ⟨rfl, rfl⟩

theorem sequence_append_injective : ∀ (ts us : List Derivation) {k : Mark} {ls ks : List Lexeme},
    k.IsCloser → sequence ts ++ .mark k :: ls = sequence us ++ .mark k :: ks →
      ts = us ∧ ls = ks
  | [], [], _, _, _, _, h => by simpa [sequence] using h
  | [], u :: us, k, ls, ks, hk, h => by
    simp only [sequence, List.nil_append, List.append_assoc] at h
    exact (u.lexemes_append_ne hk.isDelimiter _ _ h.symm).elim
  | t :: ts, [], k, ls, ks, hk, h => by
    simp only [sequence, List.nil_append, List.append_assoc] at h
    exact (t.lexemes_append_ne hk.isDelimiter _ _ h).elim
  | t :: ts, u :: us, k, ls, ks, hk, h => by
    simp only [sequence, List.append_assoc] at h
    obtain ⟨rfl, hrest⟩ := lexemes_append_injective t u
      (follows_sequenceRest ts hk.isDelimiter _) (follows_sequenceRest us hk.isDelimiter _) h
    obtain ⟨rfl, rfl⟩ := sequenceRest_append_injective ts us hk hrest
    exact ⟨rfl, rfl⟩

theorem sequenceRest_append_injective :
    ∀ (ts us : List Derivation) {k : Mark} {ls ks : List Lexeme}, k.IsCloser →
      sequenceRest ts ++ .mark k :: ls = sequenceRest us ++ .mark k :: ks → ts = us ∧ ls = ks
  | [], [], _, _, _, _, h => by simpa [sequenceRest] using h
  | [], u :: us, k, ls, ks, hk, h => by
    simp only [sequenceRest, List.nil_append, List.cons_append, List.cons.injEq] at h
    exact (hk.ne_comma (Lexeme.mark.inj h.1)).elim
  | t :: ts, [], k, ls, ks, hk, h => by
    simp only [sequenceRest, List.nil_append, List.cons_append, List.cons.injEq] at h
    exact (hk.ne_comma (Lexeme.mark.inj h.1).symm).elim
  | t :: ts, u :: us, k, ls, ks, hk, h => by
    simp only [sequenceRest, List.cons_append, List.append_assoc, List.cons.injEq, true_and] at h
    obtain ⟨rfl, hrest⟩ := lexemes_append_injective t u
      (follows_sequenceRest ts hk.isDelimiter _) (follows_sequenceRest us hk.isDelimiter _) h
    obtain ⟨rfl, rfl⟩ := sequenceRest_append_injective ts us hk hrest
    exact ⟨rfl, rfl⟩

theorem entries_append_injective :
    ∀ (es fs : List (Derivation × Derivation)) {ls ks : List Lexeme},
      entries es ++ .mark .closeParen :: ls = entries fs ++ .mark .closeParen :: ks →
        es = fs ∧ ls = ks
  | [], [], _, _, h => by simpa [entries] using h
  | [], (key, _) :: _, ls, ks, h => by
    simp only [entries, List.nil_append, List.append_assoc] at h
    exact (key.lexemes_append_ne (k := .closeParen) trivial _ _ h.symm).elim
  | (key, _) :: _, [], ls, ks, h => by
    simp only [entries, List.nil_append, List.append_assoc] at h
    exact (key.lexemes_append_ne (k := .closeParen) trivial _ _ h).elim
  | (key, val) :: es, (key', val') :: fs, ls, ks, h => by
    have hcolon := Mark.IsDelimiter.follows (k := .colon) trivial
    simp only [entries, List.append_assoc, List.cons_append] at h
    obtain ⟨rfl, hval⟩ := lexemes_append_injective key key' (hcolon _) (hcolon _) h
    obtain ⟨rfl, hrest⟩ := lexemes_append_injective val val'
      (follows_entriesRest es _) (follows_entriesRest fs _) (List.cons.inj hval).2
    obtain ⟨rfl, rfl⟩ := entriesRest_append_injective es fs hrest
    exact ⟨rfl, rfl⟩

theorem entriesRest_append_injective :
    ∀ (es fs : List (Derivation × Derivation)) {ls ks : List Lexeme},
      entriesRest es ++ .mark .closeParen :: ls = entriesRest fs ++ .mark .closeParen :: ks →
        es = fs ∧ ls = ks
  | [], [], _, _, h => by simpa [entriesRest] using h
  | [], (_, _) :: _, ls, ks, h => by simp [entriesRest] at h
  | (_, _) :: _, [], ls, ks, h => by simp [entriesRest] at h
  | (key, val) :: es, (key', val') :: fs, ls, ks, h => by
    have hcolon := Mark.IsDelimiter.follows (k := .colon) trivial
    simp only [entriesRest, List.append_assoc, List.cons_append, List.cons.injEq, true_and] at h
    obtain ⟨rfl, hval⟩ := lexemes_append_injective key key' (hcolon _) (hcolon _) h
    obtain ⟨rfl, hrest⟩ := lexemes_append_injective val val'
      (follows_entriesRest es _) (follows_entriesRest fs _) (List.cons.inj hval).2
    obtain ⟨rfl, rfl⟩ := entriesRest_append_injective es fs hrest
    exact ⟨rfl, rfl⟩

end

theorem lexemes_injective {t u : Derivation} (h : t.lexemes = u.lexemes) : t = u :=
  (lexemes_append_injective t u follows_nil follows_nil (by simpa using h)).1

end Derivation

end ValueAlgebra
