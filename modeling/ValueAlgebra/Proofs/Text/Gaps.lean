import ValueAlgebra.Proofs.Text.Blanks

/-!
# Blanks between tokens

Blanks may be put before, between and behind the tokens of a text, and inside of a location behind
its path and behind each part. This changes no lexeme: pieces that touched may be moved apart, and
pieces stay apart, so that every token ends where it did.

## Main definitions

- `Lexeme.pieces`: what blanks cannot divide
- `Loosened`: a text made of pieces, and the same text with more blanks between them
- `Lexer.Lexes`: the lexemes of a text, with the blanks around them
-/

namespace ValueAlgebra

namespace Lexer

/-- The parts of a location with the given numbers, one by one. -/
def partPieces : List Part → List (List Char) → List (List Char)
  | .mark c :: ps, ns => [c] :: partPieces ps ns
  | .number :: ps, n :: ns => n :: partPieces ps ns
  | _, _ => []

end Lexer

/-- The stretches of a lexeme that blanks cannot divide: the path of a location and each part
behind it, and any other lexeme as a whole. -/
def Lexeme.pieces : Lexeme → List (List Char)
  | .location path ns => Lexer.enclose .path path :: Lexer.partPieces Lexer.locationParts ns
  | l => [l.written]

/-- The first text is the pieces one after the other with blanks before, between and behind them,
and the second is the first with more such blanks. -/
inductive Loosened : List (List Char) → List Char → List Char → Prop
  | nil {bs bs' : List Char} (h : bs.Sublist bs') (hblank : ∀ b ∈ bs', isBlank b = true) :
      Loosened [] bs bs'
  | cons {p : List Char} {ps : List (List Char)} {bs bs' cs cs' : List Char} (h : bs.Sublist bs')
      (hblank : ∀ b ∈ bs', isBlank b = true) (hrest : Loosened ps cs cs') :
      Loosened (p :: ps) (bs ++ (p ++ cs)) (bs' ++ (p ++ cs'))

/-- Pieces with the given blanks before, between and behind them. -/
def spread (bs : List Char) : List (List Char) → List Char
  | [] => bs
  | p :: ps => bs ++ (p ++ spread bs ps)

/-! ### Gaps -/

namespace Loosened

variable {p : List Char} {ps : List (List Char)} {cs cs' : List Char}

/-- Nothing but blanks comes in before a piece or behind the last one. -/
theorem agreesToBlank (h : Loosened ps cs cs') : Lexer.AgreesToBlank cs cs' := by
  induction h with
  | @nil bs bs' h hblank =>
    cases bs' with
    | nil => rw [List.sublist_nil.1 h]; exact .refl _
    | cons b bs' => exact .blank (hblank b List.mem_cons_self) _ _
  | @cons p ps bs bs' cs cs' h hblank _ ih =>
    cases bs' with
    | nil => rw [List.sublist_nil.1 h]; exact ih.append p
    | cons b bs' => exact .blank (hblank b List.mem_cons_self) _ _

theorem dropWhile_append_of_blank {bs : List Char} (hbs : ∀ b ∈ bs, isBlank b = true) {c : Char}
    (hc : isBlank c = false) (cs : List Char) :
    (bs ++ c :: cs).dropWhile isBlank = c :: cs :=
  Stops.dropWhile_append (.cons hc) hbs

/-- Behind the blanks both texts go on with the first piece, and then with the others. -/
theorem of_cons (hp : ∃ c q, p = c :: q ∧ isBlank c = false) (h : Loosened (p :: ps) cs cs') :
    ∃ t t', cs.dropWhile isBlank = p ++ t ∧ cs'.dropWhile isBlank = p ++ t' ∧
      Loosened ps t t' := by
  obtain ⟨c, q, rfl, hc⟩ := hp
  cases h with
  | @cons _ _ bs bs' t t' hsub hblank hrest =>
    have hblank₀ : ∀ b ∈ bs, isBlank b = true := fun b hb => hblank b (hsub.subset hb)
    exact ⟨t, t', dropWhile_append_of_blank hblank₀ hc _, dropWhile_append_of_blank hblank hc _,
      hrest⟩

theorem spread {bs : List Char} (hbs : ∀ b ∈ bs, isBlank b = true) :
    ∀ ps : List (List Char), Loosened ps ps.flatten (spread bs ps)
  | [] => .nil (List.nil_sublist bs) hbs
  | p :: ps =>
    have hcons := Loosened.cons (p := p) (List.nil_sublist bs) hbs (spread hbs ps)
    hcons

theorem of_nil (h : Loosened [] cs cs') : cs'.dropWhile isBlank = [] := by
  cases h with
  | nil h hblank => exact List.dropWhile_eq_nil_iff.2 hblank

/-- A text of blanks, a piece and a text of pieces is a text of pieces. -/
theorem self_cons {t : List Char} (hcs : cs.dropWhile isBlank = p ++ t) (h : Loosened ps t t) :
    Loosened (p :: ps) cs cs := by
  have hblank : ∀ b ∈ cs.takeWhile isBlank, isBlank b = true := fun _ => List.mem_takeWhile_imp
  rw [← List.takeWhile_append_dropWhile (p := isBlank) (l := cs), hcs]
  exact .cons (.refl _) hblank h

end Loosened

namespace Lexer

/-! ### Locations -/

variable {cs cs' rest t : List Char} {s : Scanned} {ns : List (List Char)} {m : Char}
variable {ps : List Part} {raw path : List Char} {qs : List (List Char)}

theorem parts_mark_eq_ok : parts (.mark m :: ps) cs = .ok (ns, raw, rest) ↔
    ∃ t raw', cs.dropWhile isBlank = m :: t ∧ parts ps t = .ok (ns, raw', rest) ∧
      raw = cs.takeWhile isBlank ++ m :: raw' := by
  rw [parts]
  constructor
  · intro h
    split at h
    · cases h
    split at h
    · next c t ht hc =>
      subst hc
      split at h
      · next hps =>
        cases h
        exact ⟨t, _, ht, hps, rfl⟩
      · cases h
    · cases h
  · rintro ⟨t, raw', ht, hps, rfl⟩
    simp only [ht, if_true, hps]

theorem parts_number_eq_ok : parts (.number :: ps) cs = .ok (ns, raw, rest) ↔
    ∃ n ns' t raw', (n ≠ [] ∧ ∀ d ∈ n, d.isDigit = true) ∧ Stops Char.isDigit t ∧
      cs.dropWhile isBlank = n ++ t ∧ parts ps t = .ok (ns', raw', rest) ∧ ns = n :: ns' ∧
      raw = cs.takeWhile isBlank ++ (n ++ raw') := by
  rw [parts]
  constructor
  · intro h
    split at h
    · cases h
    next hne =>
    split at h
    · next hps =>
      cases h
      refine ⟨_, _, _, _, ⟨?_, fun _ => List.mem_takeWhile_imp⟩, stops_dropWhile _ _, ?_,
        hps, rfl, rfl⟩
      · exact fun h => hne (List.isEmpty_iff.2 h)
      · exact List.takeWhile_append_dropWhile.symm
    · cases h
  · rintro ⟨n, ns', t, raw', ⟨hne, hdigits⟩, hstop, ht, hps, rfl, rfl⟩
    simp only [ht, hstop.takeWhile_append hdigits, hstop.dropWhile_append hdigits, hps,
      List.isEmpty_iff, hne, if_false]

theorem location_eq_ok : location cs = .ok s ↔ ∃ path t ns raw rest,
    quoted? .path cs = some (path, t) ∧ parts locationParts t = .ok (ns, raw, rest) ∧
      s = ⟨.location path ns, enclose .path path ++ raw, rest⟩ := by
  rw [location]
  constructor
  · intro h
    split at h
    · cases h
    next hq =>
    split at h
    · next hps => exact ⟨_, _, _, _, _, hq, hps, (Except.ok.inj h).symm⟩
    · cases h
    · cases h
  · rintro ⟨path, t, ns, raw, rest, hq, hps, rfl⟩
    simp only [hq, hps]

theorem parts_loosened (hps : ∀ c, Part.mark c ∈ ps → isBlank c = false)
    (hcs : parts ps cs = .ok (ns, raw, rest)) (h : Loosened (partPieces ps ns ++ qs) cs cs') :
    ∃ raw' rest', parts ps cs' = .ok (ns, raw', rest') ∧ Loosened qs rest rest' := by
  induction ps generalizing cs cs' ns raw with
  | nil =>
    cases hcs
    exact ⟨[], cs', rfl, h⟩
  | cons p ps ih =>
    have hps' : ∀ c, Part.mark c ∈ ps → isBlank c = false :=
      fun c hc => hps c (List.mem_cons_of_mem _ hc)
    cases p with
    | mark m =>
      obtain ⟨t, raw', ht, ht', rfl⟩ := parts_mark_eq_ok.1 hcs
      obtain ⟨u, u', hu, hu', hrest⟩ := h.of_cons ⟨m, [], rfl, hps m List.mem_cons_self⟩
      obtain rfl : t = u := (List.cons.inj (ht.symm.trans hu)).2
      obtain ⟨raw', rest', hcs', hqs⟩ := ih hps' ht' hrest
      exact ⟨_, rest', parts_mark_eq_ok.2 ⟨u', raw', hu', hcs', rfl⟩, hqs⟩
    | number =>
      obtain ⟨n, ns, t, raw', ⟨hne, hdigits⟩, hstop, ht, ht', rfl, rfl⟩ := parts_number_eq_ok.1 hcs
      obtain ⟨d, ds, rfl⟩ := List.exists_cons_of_ne_nil hne
      obtain ⟨u, u', hu, hu', hrest⟩ :=
        h.of_cons ⟨d, ds, rfl, isBlank_of_isDigit (hdigits d List.mem_cons_self)⟩
      obtain rfl : t = u := List.append_cancel_left (ht.symm.trans hu)
      have hstop' := hrest.agreesToBlank.stops (fun _ => isBlank_of_isDigit) hstop
      obtain ⟨raw', rest', hcs', hqs⟩ := ih hps' ht' hrest
      exact ⟨_, rest', parts_number_eq_ok.2
        ⟨d :: ds, ns, u', raw', ⟨hne, hdigits⟩, hstop', hu', hcs', rfl, rfl⟩, hqs⟩

theorem parts_self (hcs : parts ps cs = .ok (ns, raw, rest)) (h : Loosened qs rest rest) :
    Loosened (partPieces ps ns ++ qs) cs cs := by
  induction ps generalizing cs ns raw with
  | nil =>
    cases hcs
    exact h
  | cons p ps ih =>
    cases p with
    | mark m =>
      obtain ⟨t, raw', ht, ht', rfl⟩ := parts_mark_eq_ok.1 hcs
      exact .self_cons ht (ih ht')
    | number =>
      obtain ⟨n, ns, t, raw', -, -, ht, ht', rfl, rfl⟩ := parts_number_eq_ok.1 hcs
      exact .self_cons ht (ih ht')

/-! ### Whole texts -/

/-- The lexemes of a text, with blanks before each of them and behind the last one. -/
inductive Lexes : List Char → List Lexeme → Prop
  | nil {cs : List Char} (hcs : cs.dropWhile isBlank = []) : Lexes cs []
  | cons {cs : List Char} {s : Scanned} {ls : List Lexeme}
      (hs : scan (cs.dropWhile isBlank) = .ok s) (hrest : Lexes s.rest ls) :
      Lexes cs (s.lexeme :: ls)

theorem lexes_of_tokensFrom {p : Position} {before ts : List Token}
    (h : tokensFrom p before cs = .ok ts) :
    ∃ us, ts = before.reverse ++ us ∧ Lexes cs (us.map Token.lexeme) := by
  fun_induction tokensFrom p before cs with
  | case1 p before cs hc =>
    obtain rfl := Except.ok.inj h
    exact ⟨[], (List.append_nil _).symm, .nil hc⟩
  | case2 => cases h
  | case3 p before cs p' hc s hs hlt ih =>
    obtain ⟨us, rfl, hus⟩ := ih h
    exact ⟨⟨s.lexeme, s.raw, p'⟩ :: us, by simp, .cons hs hus⟩

theorem tokensFrom_of_lexes {ls : List Lexeme} (h : Lexes cs ls) (p : Position)
    (before : List Token) :
    ∃ us, tokensFrom p before cs = .ok (before.reverse ++ us) ∧ us.map Token.lexeme = ls := by
  induction h generalizing p before with
  | nil hcs =>
    refine ⟨[], ?_, rfl⟩
    rw [tokensFrom, dif_pos hcs, List.append_nil]
  | @cons cs s ls hs _ ih =>
    have hne : cs.dropWhile isBlank ≠ [] := by
      intro hnil
      rw [hnil] at hs
      cases hs
    obtain ⟨us, hus, hls⟩ := ih ((p.advance (cs.takeWhile isBlank)).advance s.raw)
      (⟨s.lexeme, s.raw, p.advance (cs.takeWhile isBlank)⟩ :: before)
    refine ⟨⟨s.lexeme, s.raw, p.advance (cs.takeWhile isBlank)⟩ :: us, ?_, by simp [hls]⟩
    rw [tokensFrom, dif_neg hne]
    split
    · next h =>
      rw [hs] at h
      cases h
    · next h =>
      rw [hs] at h
      obtain rfl := Except.ok.inj h
      rw [hus]
      simp

theorem tokens_iff_lexes {ls : List Lexeme} :
    (∃ ts, tokens cs = .ok ts ∧ ts.map Token.lexeme = ls) ↔ Lexes cs ls := by
  constructor
  · rintro ⟨ts, hts, rfl⟩
    obtain ⟨us, rfl, hus⟩ := lexes_of_tokensFrom hts
    exact hus
  · exact fun h => tokensFrom_of_lexes h .start []

/-- Only locations can be divided. -/
theorem pieces_eq_raw (hbar : cs.head? ≠ some '|') (hs : scan cs = .ok s) :
    s.lexeme.pieces = [s.raw] := by
  rcases (scan_eq_ok_iff hbar).1 hs with hs | ⟨-, hs⟩ | hs | hs | hs
  · rw [(isDouble_of_double? hs).2]
    rfl
  · obtain ⟨_, -, rfl⟩ := Option.map_eq_some_iff.1 hs
    rfl
  · obtain ⟨_, -, rfl⟩ := Option.map_eq_some_iff.1 hs
    rfl
  · cases cs with
    | nil => cases hs
    | cons c cs =>
      simp only [name?, Option.ite_none_right_eq_some, Option.some.injEq] at hs
      obtain ⟨-, rfl⟩ := hs
      rfl
  · obtain ⟨m, heq, -⟩ := mark?_cases hs
    rw [heq]
    rfl

theorem scan_loosened (hs : scan (cs.dropWhile isBlank) = .ok s)
    (h : Loosened (s.lexeme.pieces ++ qs) cs cs') :
    ∃ s', scan (cs'.dropWhile isBlank) = .ok s' ∧ s'.lexeme = s.lexeme ∧
      Loosened qs s.rest s'.rest := by
  by_cases hbar : (cs.dropWhile isBlank).head? = some '|'
  · rw [scan, if_pos hbar] at hs
    obtain ⟨path, t, ns, raw, rest, hq, hps, rfl⟩ := location_eq_ok.1 hs
    obtain ⟨u, u', hu, hu', hrest⟩ := h.of_cons ⟨_, _, rfl, rfl⟩
    obtain ⟨hbody, ht⟩ := quoted?_eq_some_iff.1 hq
    obtain rfl : t = u := List.append_cancel_left (ht.symm.trans hu)
    have hsolid : ∀ c, Part.mark c ∈ locationParts → isBlank c = false := by
      intro c hc
      simp only [locationParts, List.mem_cons, Part.mark.injEq, List.not_mem_nil, reduceCtorEq,
        or_false, false_or] at hc
      rcases hc with rfl | rfl | rfl | rfl | rfl | rfl | rfl | rfl | rfl | rfl | rfl <;> rfl
    obtain ⟨raw', rest', hps', hqs⟩ := parts_loosened hsolid hps hrest
    refine ⟨⟨.location path ns, enclose .path path ++ raw', rest'⟩, ?_, rfl, hqs⟩
    rw [scan, hu', if_pos (by rfl)]
    have hq' : quoted? .path (enclose .path path ++ u') = some (path, u') :=
      quoted?_eq_some_iff.2 ⟨hbody, rfl⟩
    exact location_eq_ok.2 ⟨path, u', ns, raw', rest', hq', hps', rfl⟩
  · obtain ⟨hsplit, hne⟩ := scan_splits hs
    obtain ⟨c, raw, hraw⟩ := List.exists_cons_of_ne_nil hne
    have hc : isBlank c = false := by
      refine stops_dropWhile isBlank cs c ?_
      rw [← hsplit, hraw]
      rfl
    rw [pieces_eq_raw hbar hs] at h
    obtain ⟨u, u', hu, hu', hqs⟩ := h.of_cons ⟨c, raw, hraw, hc⟩
    obtain rfl : s.rest = u := List.append_cancel_left (hsplit.trans hu)
    refine ⟨{ s with rest := u' }, ?_, rfl, hqs⟩
    rw [hu']
    exact scan_congr hbar hqs.agreesToBlank hs

theorem scan_self (hs : scan (cs.dropWhile isBlank) = .ok s) (h : Loosened qs s.rest s.rest) :
    Loosened (s.lexeme.pieces ++ qs) cs cs := by
  by_cases hbar : (cs.dropWhile isBlank).head? = some '|'
  · rw [scan, if_pos hbar] at hs
    obtain ⟨path, t, ns, raw, rest, hq, hps, rfl⟩ := location_eq_ok.1 hs
    exact .self_cons (quoted?_eq_some_iff.1 hq).2 (parts_self hps h)
  · rw [pieces_eq_raw hbar hs]
    exact .self_cons (scan_splits hs).1.symm h

theorem Lexes.loosened {ls : List Lexeme} (hcs : Lexes cs ls)
    (h : Loosened (ls.flatMap Lexeme.pieces) cs cs') : Lexes cs' ls := by
  induction hcs generalizing cs' with
  | nil => exact .nil h.of_nil
  | cons hs _ ih =>
    rw [List.flatMap_cons] at h
    obtain ⟨s', hs', hl, hrest⟩ := scan_loosened hs h
    rw [← hl]
    exact .cons hs' (ih hrest)

theorem Lexes.self {ls : List Lexeme} (hcs : Lexes cs ls) :
    Loosened (ls.flatMap Lexeme.pieces) cs cs := by
  induction hcs with
  | nil hcs => exact .nil (.refl _) (List.dropWhile_eq_nil_iff.1 hcs)
  | cons hs _ ih =>
    rw [List.flatMap_cons]
    exact scan_self hs ih

/-- More blanks between the pieces of a text leave its lexemes as they are. -/
theorem exists_tokens_of_loosened {ts : List Token} (hts : tokens cs = .ok ts)
    (h : Loosened ((ts.map Token.lexeme).flatMap Lexeme.pieces) cs cs') :
    ∃ ts', tokens cs' = .ok ts' ∧ ts'.map Token.lexeme = ts.map Token.lexeme :=
  tokens_iff_lexes.2 ((tokens_iff_lexes.1 ⟨ts, hts, rfl⟩).loosened h)

theorem loosened_self {ts : List Token} (hts : tokens cs = .ok ts) :
    Loosened ((ts.map Token.lexeme).flatMap Lexeme.pieces) cs cs :=
  (tokens_iff_lexes.1 ⟨ts, hts, rfl⟩).self

end Lexer

end ValueAlgebra
