import ValueAlgebra.Codec.Lexer
import ValueAlgebra.Proofs.Text.Doubles
import ValueAlgebra.Proofs.Text.Literals
import ValueAlgebra.Value.Text

/-!
# Written lexemes are scanned back

How each lexeme is written without blanks, and that the scanner takes exactly what was written if
what follows cannot be taken for a part of it. Marks end every other lexeme, and no lexeme but a
colon goes on with the mark that follows it.

## Main definitions

- `Lexeme.written`: the characters of a lexeme, without blanks
- `Lexeme.Canonical`: lexemes that occur in the text of a value
- `Lexer.Separable`: lexemes of which each ends where the text of those after it begins
-/

namespace ValueAlgebra

namespace Lexer

/-- The parts of a location with the given numbers. -/
def writeParts : List Part → List (List Char) → List Char
  | .mark c :: ps, ns => c :: writeParts ps ns
  | .number :: ps, n :: ns => n ++ writeParts ps ns
  | _, _ => []

/-- As many numbers as the parts call for, all of digits, with a mark after each. -/
def Matches : List Part → List (List Char) → Prop
  | [], ns => ns = []
  | .mark c :: ps, ns => isBlank c = false ∧ Matches ps ns
  | .number :: .mark c :: ps, n :: ns =>
    (n ≠ [] ∧ ∀ d ∈ n, d.isDigit = true) ∧ c.isDigit = false ∧ Matches (.mark c :: ps) ns
  | .number :: _, _ => False

theorem isBlank_of_isDigit {c : Char} (h : c.isDigit = true) : isBlank c = false := by
  rw [Bool.eq_false_iff]
  intro hb
  simp only [isBlank, Bool.or_eq_true, beq_iff_eq] at hb
  rcases hb with ((rfl | rfl) | rfl) | rfl <;> exact absurd h (by decide)

theorem takeWhile_isBlank_cons {c : Char} (h : isBlank c = false) (cs : List Char) :
    (c :: cs).takeWhile isBlank = [] := by simp [h]

theorem dropWhile_isBlank_cons {c : Char} (h : isBlank c = false) (cs : List Char) :
    (c :: cs).dropWhile isBlank = c :: cs := by simp [h]

/-- The parts of a location are read as they were written. -/
theorem parts_writeParts (rest : List Char) : ∀ {ps : List Part} {ns : List (List Char)},
    Matches ps ns → parts ps (writeParts ps ns ++ rest) = .ok (ns, writeParts ps ns, rest)
  | [], _, h => by
    obtain rfl := h
    rfl
  | .mark c :: ps, ns, h => by
    have ih := parts_writeParts rest h.2
    rw [writeParts, List.cons_append, parts]
    simp only [takeWhile_isBlank_cons h.1, dropWhile_isBlank_cons h.1, ih, if_true, List.nil_append]
  | .number :: .mark c :: ps, n :: ns, h => by
    obtain ⟨⟨hne, hdigits⟩, hc, hps⟩ := h
    have ih := parts_writeParts rest hps
    obtain ⟨d, ds, rfl⟩ := List.exists_cons_of_ne_nil hne
    have hd := isBlank_of_isDigit (hdigits d List.mem_cons_self)
    have hstop : Stops Char.isDigit (writeParts (.mark c :: ps) ns ++ rest) := .cons hc
    have htake := hstop.takeWhile_append hdigits
    have hdrop := hstop.dropWhile_append hdigits
    rw [List.cons_append] at htake hdrop
    rw [writeParts, List.append_assoc, List.cons_append, parts]
    simp only [takeWhile_isBlank_cons hd, dropWhile_isBlank_cons hd, htake, hdrop, ih,
      List.isEmpty_cons, Bool.false_eq_true, if_false, List.nil_append]
  | .number :: [], _, h => h.elim
  | .number :: .number :: _, _, h => h.elim
  | .number :: .mark _ :: _, [], h => h.elim

end Lexer

namespace Span

/-- The numbers of a span as they are written. -/
def numerals (r : Span) : List (List Char) := r.inTextOrder.map fun n => digitsOf n.toNat

theorem writeParts_numerals (r : Span) :
    Lexer.writeParts Lexer.locationParts r.numerals = r.render := by
  simp [Lexer.locationParts, Lexer.writeParts, numerals, inTextOrder, render]

theorem matches_numerals (r : Span) : Lexer.Matches Lexer.locationParts r.numerals := by
  have hdigits (n : UInt64) :
      digitsOf n.toNat ≠ [] ∧ ∀ d ∈ digitsOf n.toNat, d.isDigit = true :=
    ⟨digitsOf_ne_nil _, fun _ => isDigit_of_mem_digitsOf⟩
  exact ⟨rfl, hdigits _, rfl, rfl, hdigits _, rfl, rfl, rfl, hdigits _, rfl, rfl, hdigits _, rfl,
    rfl, rfl, rfl, hdigits _, rfl, rfl, hdigits _, rfl, rfl, rfl, rfl⟩

end Span

/-! ### Written lexemes -/

namespace Lexeme

/-- The characters of a lexeme, without blanks. -/
def written : Lexeme → List Char
  | integer n | double n | name n => n
  | string body => Lexer.enclose .string body
  | location path ns => Lexer.enclose .path path ++ Lexer.writeParts Lexer.locationParts ns
  | mark m => m.chars

/-- The numerals, literals and names that values are written with. -/
def Canonical : Lexeme → Prop
  | integer n => Lexer.IsNumeral n
  | double n => n = ['-', 'i', 'n', 'f'] ∨ ∃ (negative : Bool) (cs : List Char) (k places : Nat),
      n = (if negative then ['-'] else []) ++ cs ∧ Positional cs k places
  | string body => ∃ s, body = Literal.string.escape s
  | location path ns => (∃ s, path = Literal.path.escape s) ∧ Lexer.Matches Lexer.locationParts ns
  | name n => Name.isName n = true
  | mark _ => True

/-- The characters that marks start with. -/
def markStarts : List Char := ['<', '>', '[', ']', '\x7b', '\x7d', '(', ')', ',', ':']

/-- The rest of a text does not go on with the lexeme. -/
def Ends (l : Lexeme) (rest : List Char) : Prop :=
  match l with
  | mark .colon => rest.head? ≠ some ':'
  | mark _ => True
  | _ => ∀ c ∈ rest.head?, c ∈ markStarts

end Lexeme

namespace Lexer

open Lexeme (markStarts)

variable {rest : List Char}

theorem eq_false_of_mem_markStarts {p : Char → Bool} {c : Char} (hp : markStarts.any p = false)
    (hc : c ∈ markStarts) : p c = false := Bool.eq_false_iff.2 (List.any_eq_false.1 hp c hc)

theorem ne_of_mem_markStarts {c d : Char} (hc : c ∈ markStarts) (hd : d ∉ markStarts) : c ≠ d :=
  fun h => hd (h ▸ hc)

theorem stops_of_marks {p : Char → Bool} (hp : markStarts.any p = false)
    (h : ∀ c ∈ rest.head?, c ∈ markStarts) : Stops p rest :=
  fun c hc => eq_false_of_mem_markStarts hp (h c hc)

/-- No exponent starts with a mark. -/
theorem exponent_of_marks (h : ∀ c ∈ rest.head?, c ∈ markStarts) : exponent rest = ([], rest) := by
  cases rest with
  | nil => rfl
  | cons c rest =>
    have hc : ¬ (c = 'e' ∨ c = 'E') := by
      have := h c rfl
      rintro (rfl | rfl) <;> exact absurd this (by decide)
    rw [exponent, if_neg hc]

/-- A text that starts with neither a digit nor a minus sign starts with no number. -/
theorem signed?_eq_none {c : Char} {cs : List Char} (hm : c ≠ '-') (hd : c.isDigit = false) :
    signed? ['-'] (c :: cs) = none := by
  simp [signed?, sign, hm, hd]

theorem double?_eq_none {c : Char} {cs : List Char} (hm : c ≠ '-') (hd : c.isDigit = false) :
    double? (c :: cs) = none := by
  unfold double?
  split
  · next h => exact (hm (List.cons.inj h).1).elim
  · rw [signed?_eq_none hm hd]

theorem integer?_eq_none {c : Char} {cs : List Char} (hm : c ≠ '-') (hd : c.isDigit = false) :
    integer? (c :: cs) = none := by
  rw [integer?, signed?_eq_none hm hd]
  rfl

theorem string?_eq_none {c : Char} {cs : List Char} (h : c ≠ '"') : string? (c :: cs) = none := by
  have hd : ¬ c = Literal.string.delimiter := h
  rw [string?, quoted?, if_neg hd]
  rfl

theorem name?_eq_none {c : Char} {cs : List Char} (h : Name.isStart c = false) :
    name? (c :: cs) = none := by
  rw [name?, if_neg (by rw [h]; decide)]

/-- A numeral starts with a digit, or with a minus sign before a digit. -/
theorem IsNumeral.exists_cons {n : List Char} (h : IsNumeral n) : ∃ c cs, n = c :: cs ∧
    (c.isDigit = true ∨ c = '-' ∧ ∃ d ds, cs = d :: ds ∧ d.isDigit = true) := by
  obtain ⟨minus, digits, rfl, hminus, hne, hdigits⟩ := h
  obtain ⟨d, ds, rfl⟩ := List.exists_cons_of_ne_nil hne
  have hd := hdigits d List.mem_cons_self
  rcases hminus with rfl | rfl
  · exact ⟨d, ds, rfl, .inl hd⟩
  · exact ⟨'-', d :: ds, rfl, .inr ⟨rfl, d, ds, rfl, hd⟩⟩

/-- Only `-inf` has a letter after the minus sign. -/
theorem IsNumeral.append_ne_inf {n : List Char} (h : IsNumeral n) (cs ds : List Char) :
    n ++ cs ≠ '-' :: 'i' :: ds := by
  obtain ⟨c, ns, rfl, hc | ⟨rfl, d, ds', rfl, hd⟩⟩ := h.exists_cons
  · intro heq
    rw [(List.cons.inj heq).1] at hc
    exact absurd hc (by decide)
  · intro heq
    rw [(List.cons.inj (List.cons.inj heq).2).1] at hd
    exact absurd hd (by decide)

theorem IsNumeral.head_ne_bar {n : List Char} (h : IsNumeral n) (cs : List Char) :
    (n ++ cs).head? ≠ some '|' := by
  obtain ⟨c, ns, rfl, hc | ⟨rfl, -⟩⟩ := h.exists_cons
  · rw [List.cons_append, List.head?_cons]
    rintro ⟨⟩
    exact absurd hc (by decide)
  · simp

theorem double?_integer {n : List Char} (h : IsNumeral n)
    (hrest : ∀ c ∈ rest.head?, c ∈ markStarts) : double? (n ++ rest) = none := by
  unfold double?
  split
  · next heq => exact (h.append_ne_inf _ _ heq).elim
  · rw [signed?_append h (stops_of_marks (by decide) hrest)]
    split
    · next heq =>
      obtain ⟨-, rfl⟩ := Prod.mk.inj (Option.some.inj heq)
      exact absurd (hrest '.' rfl) (by decide)
    · rfl

theorem double?_positional {n : List Char} (h : Lexeme.Canonical (.double n))
    (hrest : ∀ c ∈ rest.head?, c ∈ markStarts) :
    double? (n ++ rest) = some ⟨.double n, n, rest⟩ := by
  rcases h with rfl | ⟨negative, cs, k, places, rfl, whole, fraction, rfl, hne, hwhole, hfraction, -⟩
  · have hpart : rest.head?.any Name.isPart = false := by
      cases hc : rest.head? with
      | none => rfl
      | some c => exact stops_of_marks (p := Name.isPart) (by decide) hrest c hc
    simp [double?, hpart]
  · have hnum : IsNumeral ((if negative then ['-'] else []) ++ whole) := by
      refine ⟨_, whole, rfl, ?_, hne, hwhole⟩
      cases negative
      · exact .inl rfl
      · exact .inr rfl
    have hstop : Stops Char.isDigit rest := stops_of_marks (by decide) hrest
    have htext : (if negative then ['-'] else []) ++ (whole ++ '.' :: fraction) ++ rest =
        ((if negative then ['-'] else []) ++ whole) ++ '.' :: (fraction ++ rest) := by simp
    rw [htext]
    unfold double?
    split
    · next heq => exact (hnum.append_ne_inf _ _ heq).elim
    · rw [signed?_append hnum (.cons rfl)]
      simp only [hstop.takeWhile_append hfraction, hstop.dropWhile_append hfraction,
        exponent_of_marks hrest, List.append_nil]
      simp

theorem isStart_of_isName {c : Char} {cs : List Char} (h : Name.isName (c :: cs) = true) :
    Name.isStart c = true ∧ ∀ d ∈ cs, Name.isPart d = true := by
  rw [Name.isName, Bool.and_eq_true, List.all_eq_true] at h
  exact h

/-- Names start with neither digits nor punctuation. -/
theorem ne_of_isStart {c d : Char} (h : Name.isStart c = true) (hd : Name.isStart d = false) :
    c ≠ d := by
  rintro rfl
  rw [hd] at h
  cases h

theorem isDigit_of_isStart {c : Char} (h : Name.isStart c = true) : c.isDigit = false := by
  have hletter : (decide (65 ≤ c.val ∧ c.val ≤ 90) ||
      decide (97 ≤ c.val) && decide (c.val ≤ 122) || c == '_') = true := h
  simp only [Bool.or_eq_true, Bool.and_eq_true, decide_eq_true_eq, beq_iff_eq] at hletter
  rw [Bool.eq_false_iff]
  intro hd
  have hdigit : (decide (48 ≤ c.val) && decide (c.val ≤ 57)) = true := hd
  have hle : c.val ≤ 57 := of_decide_eq_true (Bool.and_eq_true_iff.1 hdigit).2
  rcases hletter with (⟨h, -⟩ | ⟨h, -⟩) | rfl
  · exact absurd (UInt32.le_trans h hle) (by decide)
  · exact absurd (UInt32.le_trans h hle) (by decide)
  · exact absurd hle (by decide)

theorem scan_location {path : List Char} {ns : List (List Char)}
    (h : Lexeme.Canonical (.location path ns)) : scan ((Lexeme.location path ns).written ++ rest) =
      .ok ⟨.location path ns, (Lexeme.location path ns).written, rest⟩ := by
  obtain ⟨⟨s, rfl⟩, hns⟩ := h
  have hquoted : quoted? .path (enclose .path (Literal.path.escape s) ++
      (writeParts locationParts ns ++ rest)) = some (_, _) := quoted?_quote .path s _
  have hparts := parts_writeParts rest hns
  rw [scan, if_pos (by rfl), location]
  simp only [Lexeme.written, List.append_assoc, hquoted, hparts]

theorem exists_markStart (m : Mark) : ∃ c cs, m.chars = c :: cs ∧ c ∈ markStarts := by
  cases m <;> exact ⟨_, _, rfl, by decide⟩

theorem mark?_chars {m : Mark} (h : (Lexeme.mark m).Ends rest) :
    mark? (m.chars ++ rest) = some ⟨.mark m, m.chars, rest⟩ := by
  cases m with
  | colon =>
    cases rest with
    | nil => rfl
    | cons c rest =>
      have hc : c ≠ ':' := fun hc => h (congrArg some hc)
      simp [mark?, Mark.chars, hc]
  | _ => rfl

theorem scan_integer {n : List Char} (hn : Lexeme.Canonical (.integer n))
    (hrest : (Lexeme.integer n).Ends rest) :
    scan (n ++ rest) = .ok ⟨.integer n, n, rest⟩ := by
  have hstop : Stops Char.isDigit rest := stops_of_marks (by decide) hrest
  have hinteger : integer? (n ++ rest) = some ⟨.integer n, n, rest⟩ := by
    rw [integer?, signed?_append hn hstop]
    rfl
  -- Doubles are tried first, and take the digits only if a point follows.
  rw [scan, if_neg (IsNumeral.head_ne_bar hn rest), double?_integer hn hrest, hinteger]
  rfl

theorem scan_double {n : List Char} (hn : Lexeme.Canonical (.double n))
    (hrest : (Lexeme.double n).Ends rest) : scan (n ++ rest) = .ok ⟨.double n, n, rest⟩ := by
  have hbar : (n ++ rest).head? ≠ some '|' := by
    rcases hn with rfl | ⟨negative, cs, k, places, rfl, hcs⟩
    · simp
    · obtain ⟨d, ds, rfl, hd⟩ := hcs.exists_cons
      cases negative with
      | true => simp
      | false =>
        rintro ⟨⟩
        exact absurd hd (by decide)
  rw [scan, if_neg hbar, double?_positional hn hrest]
  rfl

theorem scan_string {body : List Char} (hbody : Lexeme.Canonical (.string body)) :
    scan ((Lexeme.string body).written ++ rest) =
      .ok ⟨.string body, (Lexeme.string body).written, rest⟩ := by
  obtain ⟨s, rfl⟩ := hbody
  have hstring : string? (Literal.string.quote s ++ rest) =
      some ⟨.string (Literal.string.escape s), Literal.string.quote s, rest⟩ := by
    rw [string?, quoted?_quote]
    rfl
  have hdouble : double? (Literal.string.quote s ++ rest) = none :=
    double?_eq_none (by decide) (by decide)
  have hinteger : integer? (Literal.string.quote s ++ rest) = none :=
    integer?_eq_none (by decide) (by decide)
  show scan (Literal.string.quote s ++ rest) = _
  rw [scan, if_neg (by simp [Literal.quote, Literal.delimiter]), hdouble, hinteger, hstring]
  rfl

theorem scan_name {n : List Char} (hn : Lexeme.Canonical (.name n))
    (hrest : (Lexeme.name n).Ends rest) : scan (n ++ rest) = .ok ⟨.name n, n, rest⟩ := by
  obtain ⟨c, cs, rfl⟩ : ∃ c cs, n = c :: cs :=
    List.exists_cons_of_ne_nil (by rintro rfl; cases hn)
  obtain ⟨hc, hcs⟩ := isStart_of_isName hn
  have hstop : Stops Name.isPart rest := stops_of_marks (by decide) hrest
  have hname : name? (c :: (cs ++ rest)) = some ⟨.name (c :: cs), c :: cs, rest⟩ := by
    rw [name?, if_pos hc, hstop.takeWhile_append hcs, hstop.dropWhile_append hcs]
  have hbar : (c :: (cs ++ rest)).head? ≠ some '|' := by
    rw [List.head?_cons, ne_eq, Option.some.injEq]
    exact ne_of_isStart hc rfl
  have hminus : c ≠ '-' := ne_of_isStart hc rfl
  rw [List.cons_append, scan, if_neg hbar, double?_eq_none hminus (isDigit_of_isStart hc),
    integer?_eq_none hminus (isDigit_of_isStart hc), string?_eq_none (ne_of_isStart hc rfl), hname]
  rfl

theorem scan_mark {m : Mark} (hrest : (Lexeme.mark m).Ends rest) :
    scan (m.chars ++ rest) = .ok ⟨.mark m, m.chars, rest⟩ := by
  obtain ⟨c, cs, hm, hc⟩ := exists_markStart m
  have hmark := mark?_chars hrest
  rw [hm, List.cons_append] at hmark ⊢
  -- No other kind of lexeme starts with the first character of a mark.
  have hbar : (c :: (cs ++ rest)).head? ≠ some '|' := by
    rw [List.head?_cons, ne_eq, Option.some.injEq]
    exact ne_of_mem_markStarts hc (by decide)
  have hminus : c ≠ '-' := ne_of_mem_markStarts hc (by decide)
  have hdigit : c.isDigit = false := eq_false_of_mem_markStarts (p := Char.isDigit) (by decide) hc
  have hquote : c ≠ '"' := ne_of_mem_markStarts hc (by decide)
  have hstart : Name.isStart c = false :=
    eq_false_of_mem_markStarts (p := Name.isStart) (by decide) hc
  rw [scan, if_neg hbar, double?_eq_none hminus hdigit, integer?_eq_none hminus hdigit,
    string?_eq_none hquote, name?_eq_none hstart, hmark]
  rfl

/-- A written lexeme is scanned back. -/
theorem scan_written {l : Lexeme} (hl : l.Canonical) (hrest : l.Ends rest) :
    scan (l.written ++ rest) = .ok ⟨l, l.written, rest⟩ := by
  cases l with
  | location path ns => exact scan_location hl
  | integer n => exact scan_integer hl hrest
  | double n => exact scan_double hl hrest
  | string body => exact scan_string hl
  | name n => exact scan_name hl hrest
  | mark m => exact scan_mark hrest

/-- No lexeme is written as nothing or starts with a blank, and only colons start with a colon. -/
theorem exists_written_cons {l : Lexeme} (hl : l.Canonical) : ∃ c cs, l.written = c :: cs ∧
    isBlank c = false ∧ (c = ':' → l = .mark .colon ∨ l = .mark .doubleColon) := by
  have of_digit {c : Char} (hc : c.isDigit = true) : isBlank c = false ∧ c ≠ ':' := by
    refine ⟨isBlank_of_isDigit hc, ?_⟩
    rintro rfl
    exact absurd hc (by decide)
  cases l with
  | integer n =>
    obtain ⟨c, cs, rfl, hc | ⟨rfl, -⟩⟩ := hl.exists_cons
    · exact ⟨c, cs, rfl, (of_digit hc).1, fun h => absurd h (of_digit hc).2⟩
    · exact ⟨'-', cs, rfl, rfl, fun h => absurd h (by decide)⟩
  | double n =>
    rcases hl with rfl | ⟨negative, cs, k, places, rfl, hcs⟩
    · exact ⟨_, _, rfl, rfl, fun h => absurd h (by decide)⟩
    · obtain ⟨c, cs, rfl, hc⟩ := hcs.exists_cons
      cases negative with
      | true => exact ⟨_, _, rfl, rfl, fun h => absurd h (by decide)⟩
      | false => exact ⟨c, cs, rfl, (of_digit hc).1, fun h => absurd h (of_digit hc).2⟩
  | string body => exact ⟨_, _, rfl, rfl, fun h => absurd h (by decide)⟩
  | location path ns => exact ⟨_, _, rfl, rfl, fun h => absurd h (by decide)⟩
  | name n =>
    obtain ⟨c, cs, rfl⟩ : ∃ c cs, n = c :: cs :=
      List.exists_cons_of_ne_nil (by rintro rfl; cases hl)
    have hc := (isStart_of_isName hl).1
    refine ⟨c, cs, rfl, ?_, fun h => absurd h (ne_of_isStart hc rfl)⟩
    rw [Bool.eq_false_iff]
    intro hb
    simp only [isBlank, Bool.or_eq_true, beq_iff_eq] at hb
    rcases hb with ((rfl | rfl) | rfl) | rfl <;> cases hc
  | mark m =>
    cases m with
    | colon => exact ⟨_, _, rfl, rfl, fun _ => .inl rfl⟩
    | doubleColon => exact ⟨_, _, rfl, rfl, fun _ => .inr rfl⟩
    | _ => exact ⟨_, _, rfl, rfl, fun h => absurd h (by decide)⟩

/-- Every lexeme ends where the text of those after it begins. -/
def Separable : List Lexeme → Prop
  | [] => True
  | l :: ls => l.Canonical ∧ l.Ends (ls.flatMap Lexeme.written) ∧ Separable ls

theorem tokensFrom_written : ∀ {ls : List Lexeme}, Separable ls →
    ∀ (p : Position) (before : List Token), ∃ ts,
      tokensFrom p before (ls.flatMap Lexeme.written) = .ok (before.reverse ++ ts) ∧
        ts.map Token.lexeme = ls
  | [], _, p, before => by
    refine ⟨[], ?_, rfl⟩
    rw [List.flatMap_nil, tokensFrom]
    simp
  | l :: ls, ⟨hl, hends, hls⟩, p, before => by
    obtain ⟨c, cs, hcs, hc, -⟩ := exists_written_cons hl
    obtain ⟨ts, hts, hlexemes⟩ := tokensFrom_written hls (p.advance l.written)
      (⟨l, l.written, p⟩ :: before)
    refine ⟨⟨l, l.written, p⟩ :: ts, ?_, by rw [List.map_cons, hlexemes]⟩
    have hscan := scan_written hl hends
    -- A lexeme starts with no blank, so the lexer skips nothing before it.
    have htake : (l.written ++ ls.flatMap Lexeme.written).takeWhile isBlank = [] := by
      rw [hcs, List.cons_append, takeWhile_isBlank_cons hc]
    have hdrop : (l.written ++ ls.flatMap Lexeme.written).dropWhile isBlank =
        l.written ++ ls.flatMap Lexeme.written := by
      rw [hcs, List.cons_append, dropWhile_isBlank_cons hc]
    have hne : l.written ++ ls.flatMap Lexeme.written ≠ [] := by
      rw [hcs]
      exact List.cons_ne_nil _ _
    rw [List.flatMap_cons, tokensFrom, dif_neg (by rw [hdrop]; exact hne)]
    split
    · next h =>
      rw [hdrop, hscan] at h
      cases h
    · next h =>
      rw [hdrop, hscan] at h
      obtain rfl := Except.ok.inj h
      simp only [htake, Position.advance, List.foldl_nil]
      rw [List.reverse_cons, List.append_assoc, List.singleton_append] at hts
      exact hts

/-- Lexemes that end where the next begin are read back from their text. -/
theorem tokens_written {ls : List Lexeme} (h : Separable ls) :
    ∃ ts, tokens (ls.flatMap Lexeme.written) = .ok ts ∧ ts.map Token.lexeme = ls :=
  tokensFrom_written h .start []

end Lexer

end ValueAlgebra
