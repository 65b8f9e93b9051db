import Mathlib.Data.List.TakeWhile
import ValueAlgebra.Proofs.Text.Tokens

/-!
# Scanning before a blank

A token that ends where something else follows ends before a blank as well. Some scanners look
ahead, for a point, an exponent, a second colon or more of a name. They find nothing of this kind
before the first blank of a text that they do not find in every text with the same beginning.

## Main definitions

- `Lexer.AgreesToBlank`: one text goes on like another up to its own first blank
- `Lexer.IsSigned`, `Lexer.IsDouble`: the numerals that the scanners of numbers take
-/

namespace ValueAlgebra

namespace Lexer

variable {cs rest rest' : List Char} {s : Scanned}

/-! ### Going on up to a blank -/

/-- What the second text starts with, up to its first blank, the first one starts with as well. -/
def AgreesToBlank (rest rest' : List Char) : Prop :=
  ∀ w, w <+: rest' → (∀ c ∈ w, isBlank c = false) → w <+: rest

namespace AgreesToBlank

theorem refl (cs : List Char) : AgreesToBlank cs cs := fun _ h _ => h

/-- Behind a blank anything may follow. -/
theorem blank {b : Char} (hb : isBlank b = true) (rest cs : List Char) :
    AgreesToBlank rest (b :: cs) := by
  intro w hw hblank
  cases w with
  | nil => exact List.nil_prefix
  | cons c w =>
    obtain ⟨rfl, -⟩ := List.cons_prefix_cons.1 hw
    rw [hblank c List.mem_cons_self] at hb
    cases hb

theorem append (h : AgreesToBlank rest rest') (p : List Char) :
    AgreesToBlank (p ++ rest) (p ++ rest') := by
  intro w hw hblank
  rcases List.prefix_or_prefix_of_prefix hw (List.prefix_append p rest') with hp | ⟨v, rfl⟩
  · exact hp.trans (List.prefix_append p rest)
  · refine (List.prefix_append_right_inj p).2 (h v ((List.prefix_append_right_inj p).1 hw) ?_)
    exact fun c hc => hblank c (List.mem_append_right p hc)

theorem head?_eq (h : AgreesToBlank rest rest') {c : Char} (hc : rest'.head? = some c)
    (hblank : isBlank c = false) : rest.head? = some c := by
  obtain ⟨cs', rfl⟩ := List.head?_eq_some_iff.1 hc
  obtain ⟨cs, rfl⟩ := h [c] (List.prefix_append [c] cs') (List.forall_mem_singleton.2 hblank)
  rfl

theorem stops (h : AgreesToBlank rest rest') {p : Char → Bool}
    (hp : ∀ c, p c = true → isBlank c = false) (hs : Stops p rest) : Stops p rest' := by
  intro c hc
  rw [Bool.eq_false_iff]
  intro hpc
  have hfalse := hs c (h.head?_eq hc (hp c hpc))
  rw [hpc] at hfalse
  cases hfalse

end AgreesToBlank

/-! ### Numbers -/

/-- Digits behind a sign, which may be missing. -/
def IsSigned (allowed n : List Char) : Prop :=
  ∃ sgn digits, n = sgn ++ digits ∧ (sgn = [] ∨ ∃ c ∈ allowed, sgn = [c]) ∧ digits ≠ [] ∧
    ∀ d ∈ digits, d.isDigit = true

section Numbers

variable {allowed n power : List Char}

theorem IsSigned.isNumeral (h : IsSigned ['-'] n) : IsNumeral n := by
  obtain ⟨sgn, digits, hn, hsgn, hdigits⟩ := h
  refine ⟨sgn, digits, hn, hsgn.imp id ?_, hdigits⟩
  rintro ⟨c, hc, rfl⟩
  rw [List.mem_singleton.1 hc]

theorem IsSigned.isBlank_eq_false (hn : IsSigned allowed n)
    (hallowed : ∀ c ∈ allowed, isBlank c = false) : ∀ c ∈ n, isBlank c = false := by
  obtain ⟨sgn, digits, rfl, hsgn, -, hdigits⟩ := hn
  rw [List.forall_mem_append]
  refine ⟨?_, fun d hd => isBlank_of_isDigit (hdigits d hd)⟩
  rcases hsgn with rfl | ⟨c, hc, rfl⟩
  · exact List.forall_mem_nil _
  · exact List.forall_mem_singleton.2 (hallowed c hc)

theorem IsSigned.append (hn : IsSigned allowed n) {ds : List Char}
    (hds : ∀ d ∈ ds, d.isDigit = true) : IsSigned allowed (n ++ ds) := by
  obtain ⟨sgn, digits, rfl, hsgn, hne, hdigits⟩ := hn
  exact ⟨sgn, digits ++ ds, List.append_assoc .., hsgn, by simp [hne],
    List.forall_mem_append.2 ⟨hdigits, hds⟩⟩

theorem stops_dropWhile (p : Char → Bool) (cs : List Char) : Stops p (cs.dropWhile p) := by
  intro c hc
  have hnot := List.head?_dropWhile_not p cs
  rw [hc] at hnot
  exact hnot

theorem isSigned_of_signed? (h : signed? allowed cs = some (n, rest)) :
    IsSigned allowed n ∧ Stops Char.isDigit rest := by
  simp only [signed?, Option.ite_none_left_eq_some, Option.some.injEq, Prod.mk.injEq] at h
  obtain ⟨hne, rfl, rfl⟩ := h
  refine ⟨⟨_, _, rfl, ?_, hne, fun _ => List.mem_takeWhile_imp⟩, stops_dropWhile _ _⟩
  cases cs with
  | nil => exact .inl rfl
  | cons c cs =>
    by_cases hc : c ∈ allowed
    · exact .inr ⟨c, hc, by simp [sign, hc]⟩
    · exact .inl (by simp [sign, hc])

theorem signed?_of_isSigned (hallowed : ∀ c ∈ allowed, c.isDigit = false)
    (hn : IsSigned allowed n) (hrest : Stops Char.isDigit rest) :
    signed? allowed (n ++ rest) = some (n, rest) := by
  obtain ⟨sgn, digits, rfl, hsgn, hne, hdigits⟩ := hn
  have hsign : sign allowed (sgn ++ (digits ++ rest)) = (sgn, digits ++ rest) := by
    rcases hsgn with rfl | ⟨c, hc, rfl⟩
    · obtain ⟨d, ds, rfl⟩ := List.exists_cons_of_ne_nil hne
      have hd : d ∉ allowed := by
        intro hd
        have hfalse := hallowed d hd
        rw [hdigits d List.mem_cons_self] at hfalse
        cases hfalse
      simp [sign, hd]
    · simp [sign, hc]
  rw [List.append_assoc, signed?]
  simp only [hsign, hrest.takeWhile_append hdigits, hrest.dropWhile_append hdigits, hne, if_false]

/-- A number is found wherever a text starts with one. -/
theorem signed?_ne_none (hallowed : ∀ c ∈ allowed, c.isDigit = false) (hn : IsSigned allowed n)
    (rest : List Char) : signed? allowed (n ++ rest) ≠ none := by
  have hlonger := hn.append (List.all_eq_true.1 (List.all_takeWhile (l := rest)))
  have htaken := signed?_of_isSigned hallowed hlonger (stops_dropWhile Char.isDigit rest)
  rw [List.append_assoc, List.takeWhile_append_dropWhile] at htaken
  rw [htaken]
  exact Option.some_ne_none _

theorem signed?_congr (hallowed : ∀ c ∈ allowed, c.isDigit = false)
    (h : AgreesToBlank rest rest') (hs : signed? allowed cs = some (n, rest)) :
    signed? allowed (n ++ rest') = some (n, rest') := by
  obtain ⟨hn, hrest⟩ := isSigned_of_signed? hs
  exact signed?_of_isSigned hallowed hn (h.stops (fun _ => isBlank_of_isDigit) hrest)

theorem exponent_cases (hx : exponent cs = (power, rest)) :
    power = [] ∧ cs = rest ∨ ∃ e n ds, power = e :: n ∧ cs = e :: ds ∧ (e = 'e' ∨ e = 'E') ∧
      signed? ['+', '-'] ds = some (n, rest) := by
  fun_cases exponent cs with
  | case2 e ds he n rest₀ hs =>
    simp only [exponent, he, if_true, hs, Prod.mk.injEq] at hx
    obtain ⟨rfl, rfl⟩ := hx
    exact .inr ⟨e, n, ds, rfl, rfl, he, hs⟩
  | case1 | case3 | case4 => simp_all [exponent]

/-- The exponent ends at a blank, and none comes in behind one. -/
theorem exponent_congr (h : AgreesToBlank rest rest') (hx : exponent cs = (power, rest)) :
    exponent (power ++ rest') = (power, rest') := by
  have hsigns : ∀ c ∈ ['+', '-'], c.isDigit = false :=
    List.forall_mem_cons.2 ⟨rfl, List.forall_mem_singleton.2 rfl⟩
  have hsolid : ∀ c ∈ ['+', '-'], isBlank c = false :=
    List.forall_mem_cons.2 ⟨rfl, List.forall_mem_singleton.2 rfl⟩
  rcases exponent_cases hx with ⟨rfl, rfl⟩ | ⟨e, n, ds, rfl, rfl, he, hs⟩
  · rw [List.nil_append]
    rcases hx' : exponent rest' with ⟨power', rest₀⟩
    rcases exponent_cases hx' with ⟨rfl, rfl⟩ | ⟨e, n, ds, rfl, rfl, he, hs⟩
    · rfl
    -- An exponent behind the blanks would stand in the first text already.
    · obtain ⟨hn, -⟩ := isSigned_of_signed? hs
      have hletter : isBlank e = false := by rcases he with rfl | rfl <;> decide
      have hprefix : e :: n <+: e :: ds := ⟨rest₀, by rw [List.cons_append, (signed?_eq hs).1]⟩
      obtain ⟨cs₀, rfl⟩ := h (e :: n) hprefix
        (List.forall_mem_cons.2 ⟨hletter, hn.isBlank_eq_false hsolid⟩)
      rw [List.cons_append, exponent, if_pos he] at hx
      split at hx
      · cases hx
      · next hnone => exact (signed?_ne_none hsigns hn cs₀ hnone).elim
  · rw [List.cons_append, exponent, if_pos he, signed?_congr hsigns h hs]

end Numbers

/-! ### Tokens -/

theorem isBlank_of_isPart {c : Char} (h : Name.isPart c = true) : isBlank c = false := by
  rw [Bool.eq_false_iff]
  intro hb
  simp only [isBlank, Bool.or_eq_true, beq_iff_eq] at hb
  rcases hb with ((rfl | rfl) | rfl) | rfl <;> exact absurd h (by decide)

theorem head?_any_eq_false {p : Char → Bool} : rest.head?.any p = false ↔ Stops p rest := by
  cases rest with
  | nil => exact ⟨fun _ => .nil, fun _ => rfl⟩
  | cons c rest => exact ⟨fun h => .cons h, fun h => h c rfl⟩

/-- The numeral of a double that ends where `rest` begins. -/
inductive IsDouble : List Char → List Char → Prop
  | infinity {rest : List Char} (hrest : Stops Name.isPart rest) :
      IsDouble ['-', 'i', 'n', 'f'] rest
  | decimal {whole fraction power rest : List Char} (hwhole : IsNumeral whole)
      (hfraction : ∀ d ∈ fraction, d.isDigit = true)
      (hstop : Stops Char.isDigit (power ++ rest))
      (hpower : exponent (power ++ rest) = (power, rest)) :
      IsDouble (whole ++ '.' :: (fraction ++ power)) rest

theorem IsDouble.congr {n : List Char} (hn : IsDouble n rest) (h : AgreesToBlank rest rest') :
    IsDouble n rest' := by
  cases hn with
  | infinity hrest => exact .infinity (h.stops (fun _ => isBlank_of_isPart) hrest)
  | @decimal whole fraction power _ hwhole hfraction hstop hpower =>
    exact .decimal hwhole hfraction ((h.append power).stops (fun _ => isBlank_of_isDigit) hstop)
      (exponent_congr h hpower)

theorem isDouble_of_double? (hs : double? cs = some s) :
    IsDouble s.raw s.rest ∧ s.lexeme = .double s.raw := by
  unfold double? at hs
  split at hs
  · next rest =>
    split at hs
    · cases hs
    · next hpart =>
      obtain rfl := Option.some.inj hs
      exact ⟨.infinity (head?_any_eq_false.1 (Bool.eq_false_iff.2 hpart)), rfl⟩
  · split at hs
    · next whole rest hw =>
      rcases hx : exponent (rest.dropWhile Char.isDigit) with ⟨power, rest₀⟩
      simp only [hx] at hs
      obtain rfl := Option.some.inj hs
      have heq := exponent_eq (rest.dropWhile Char.isDigit)
      rw [hx] at heq
      refine ⟨.decimal (isSigned_of_signed? hw).1.isNumeral
        (fun _ => List.mem_takeWhile_imp) ?_ ?_, rfl⟩
      · rw [heq]
        exact stops_dropWhile _ _
      · rw [heq, hx]
    · cases hs

theorem double?_of_isDouble {n : List Char} (hn : IsDouble n rest) :
    double? (n ++ rest) = some ⟨.double n, n, rest⟩ := by
  cases hn with
  | infinity hrest => simp [double?, head?_any_eq_false.2 hrest]
  | @decimal whole fraction power _ hwhole hfraction hstop hpower =>
    have htext : whole ++ '.' :: (fraction ++ power) ++ rest =
        whole ++ '.' :: (fraction ++ (power ++ rest)) := by simp
    rw [htext]
    unfold double?
    split
    · next heq => exact (hwhole.append_ne_inf _ _ heq).elim
    · rw [signed?_append hwhole (.cons rfl)]
      simp only [hstop.takeWhile_append hfraction, hstop.dropWhile_append hfraction, hpower]

theorem double?_congr (h : AgreesToBlank s.rest rest') (hs : double? cs = some s) :
    double? (s.raw ++ rest') = some { s with rest := rest' } := by
  obtain ⟨hn, hl⟩ := isDouble_of_double? hs
  rw [double?_of_isDouble (hn.congr h), hl]

theorem integer?_congr (h : AgreesToBlank s.rest rest') (hs : integer? cs = some s) :
    integer? (s.raw ++ rest') = some { s with rest := rest' } := by
  obtain ⟨⟨n, rest⟩, hn, rfl⟩ := Option.map_eq_some_iff.1 hs
  rw [integer?, signed?_congr (List.forall_mem_singleton.2 rfl) h hn]
  rfl

/-- An integer does not become the start of a double. -/
theorem double?_congr_none (h : AgreesToBlank s.rest rest') (hd : double? cs = none)
    (hs : integer? cs = some s) : double? (s.raw ++ rest') = none := by
  obtain ⟨⟨n, rest⟩, hn, rfl⟩ := Option.map_eq_some_iff.1 hs
  have hnumeral := (isSigned_of_signed? hn).1.isNumeral
  obtain ⟨rfl, -⟩ := signed?_eq hn
  unfold double?
  split
  · next heq => exact (hnumeral.append_ne_inf _ _ heq).elim
  rw [signed?_congr (List.forall_mem_singleton.2 rfl) h hn]
  split
  · next heq =>
    obtain ⟨rfl, rfl⟩ := Prod.mk.inj (Option.some.inj heq)
    obtain ⟨ds, rfl⟩ := List.head?_eq_some_iff.1 (h.head?_eq rfl rfl)
    unfold double? at hd
    split at hd
    · next heq => exact (hnumeral.append_ne_inf _ _ heq).elim
    · rw [hn] at hd
      cases hd
  · rfl

theorem string?_congr (rest' : List Char) (hs : string? cs = some s) :
    string? (s.raw ++ rest') = some { s with rest := rest' } := by
  obtain ⟨⟨body, rest⟩, hb, rfl⟩ := Option.map_eq_some_iff.1 hs
  rw [string?, quoted?_eq_some_iff.2 ⟨(quoted?_eq_some_iff.1 hb).1, rfl⟩]
  rfl

theorem name?_congr (h : AgreesToBlank s.rest rest') (hs : name? cs = some s) :
    name? (s.raw ++ rest') = some { s with rest := rest' } := by
  cases cs with
  | nil => cases hs
  | cons c cs =>
    simp only [name?, Option.ite_none_right_eq_some, Option.some.injEq] at hs
    obtain ⟨hc, rfl⟩ := hs
    have hstop := h.stops (fun _ => isBlank_of_isPart) (stops_dropWhile Name.isPart cs)
    have hpart : ∀ d ∈ cs.takeWhile Name.isPart, Name.isPart d = true :=
      fun _ => List.mem_takeWhile_imp
    rw [List.cons_append, name?, if_pos hc, hstop.takeWhile_append hpart,
      hstop.dropWhile_append hpart]

theorem mark?_cases (hs : mark? cs = some s) : ∃ m : Mark, s = ⟨.mark m, m.chars, s.rest⟩ ∧
    cs = m.chars ++ s.rest ∧ (Lexeme.mark m).Ends s.rest := by
  unfold mark? at hs
  split at hs
  all_goals
    cases hs
    try exact ⟨_, rfl, rfl, trivial⟩
  next hcolon =>
    refine ⟨.colon, rfl, rfl, fun h => ?_⟩
    obtain ⟨cs, rfl⟩ := List.head?_eq_some_iff.1 h
    exact hcolon cs rfl

theorem mark?_congr (h : AgreesToBlank s.rest rest') (hs : mark? cs = some s) :
    mark? (s.raw ++ rest') = some { s with rest := rest' } := by
  obtain ⟨m, heq, -, hends⟩ := mark?_cases hs
  rw [heq]
  refine mark?_chars ?_
  cases m with
  | colon => exact fun hc => hends (h.head?_eq hc rfl)
  | _ => trivial

/-- The first character tells which scanner takes a token, but for integers and doubles. -/
theorem scan_eq_ok_iff (hbar : cs.head? ≠ some '|') :
    scan cs = .ok s ↔ double? cs = some s ∨ double? cs = none ∧ integer? cs = some s ∨
      string? cs = some s ∨ name? cs = some s ∨ mark? cs = some s := by
  rw [scan, if_neg hbar]
  constructor
  · intro h
    split at h
    · next s' hs =>
      obtain rfl := Except.ok.inj h
      simp only [Option.orElse_eq_orElse, Option.orElse_eq_or, Option.or_eq_some_iff] at hs
      tauto
    · cases h
  · rintro (hd | ⟨hd, hi⟩ | hs | hn | hm)
    · rw [hd]
      rfl
    · rw [hd, hi]
      rfl
    · cases cs with
      | nil => cases hs
      | cons c cs =>
        have hc : c = '"' := by
          by_contra hc
          rw [string?_eq_none hc] at hs
          cases hs
        subst hc
        rw [double?_eq_none (by decide) (by decide), integer?_eq_none (by decide) (by decide), hs]
        rfl
    · cases cs with
      | nil => cases hn
      | cons c cs =>
        have hc : Name.isStart c = true := by
          by_contra hc
          rw [name?_eq_none (Bool.eq_false_iff.2 hc)] at hn
          cases hn
        have hminus : c ≠ '-' := ne_of_isStart hc rfl
        rw [double?_eq_none hminus (isDigit_of_isStart hc),
          integer?_eq_none hminus (isDigit_of_isStart hc), string?_eq_none (ne_of_isStart hc rfl),
          hn]
        rfl
    · obtain ⟨m, hs, rfl, hends⟩ := mark?_cases hm
      have hscan := scan_mark hends
      rw [← hs, scan, if_neg hbar] at hscan
      exact hscan

/-- A token that is no location stays the same if blanks come in behind it. -/
theorem scan_congr (hbar : cs.head? ≠ some '|') (h : AgreesToBlank s.rest rest')
    (hs : scan cs = .ok s) : scan (s.raw ++ rest') = .ok { s with rest := rest' } := by
  obtain ⟨hsplit, hne⟩ := scan_splits hs
  have hbar' : (s.raw ++ rest').head? ≠ some '|' := by
    obtain ⟨c, raw, hraw⟩ := List.exists_cons_of_ne_nil hne
    rw [← hsplit, hraw] at hbar
    rw [hraw]
    exact hbar
  rw [scan_eq_ok_iff hbar']
  rcases (scan_eq_ok_iff hbar).1 hs with hs | ⟨hd, hs⟩ | hs | hs | hs
  · exact .inl (double?_congr h hs)
  · exact .inr (.inl ⟨double?_congr_none h hd hs, integer?_congr h hs⟩)
  · exact .inr (.inr (.inl (string?_congr rest' hs)))
  · exact .inr (.inr (.inr (.inl (name?_congr h hs))))
  · exact .inr (.inr (.inr (.inr (mark?_congr h hs))))

end Lexer

end ValueAlgebra
