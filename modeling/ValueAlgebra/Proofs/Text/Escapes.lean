import Mathlib.Data.Nat.Digits.Defs
import ValueAlgebra.Literal.Unescape

/-!
# The escape language

The body of a literal is a concatenation of spellings, each of which stands for one character: a
character as itself, a letter behind a backslash or, in strings, the hexadecimal digits of a code
point behind `\u`. A body that is no such concatenation has a beginning that is one, and goes on
with a backslash that starts no spelling. Unescaping accepts the former and reports the backslash
of the latter, at its place in bytes of UTF-8.

## Main definitions

- `Literal.escapes`: the letters that stand for a character behind a backslash
- `Literal.Spells`, `Literal.Denotes`: spellings of characters, and of texts
- `Literal.Malformed`: what starts with a backslash but with no spelling, and how it is reported
- `Literal.FailsAfter`: bodies that go wrong behind some beginning
-/

namespace ValueAlgebra

/-- How many bytes of UTF-8 the characters take. -/
def bytes (cs : List Char) : Nat := (String.ofList cs).utf8ByteSize

@[simp]
theorem bytes_nil : bytes [] = 0 := rfl

@[simp]
theorem bytes_cons (c : Char) (cs : List Char) : bytes (c :: cs) = c.utf8Size + bytes cs := by
  rw [bytes, String.ofList_cons, String.utf8ByteSize_append, String.utf8ByteSize_singleton]
  rfl

theorem bytes_append (cs cs' : List Char) : bytes (cs ++ cs') = bytes cs + bytes cs' := by
  rw [bytes, String.ofList_append, String.utf8ByteSize_append]
  rfl

/-- Beginnings of a text are told apart by their sizes. -/
theorem eq_of_bytes_eq {as as' bs bs' : List Char} (h : as ++ bs = as' ++ bs')
    (hbytes : bytes as = bytes as') : as = as' := by
  have eq_of_shorter {as as' : List Char} (h : as <+: as') (hbytes : bytes as = bytes as') :
      as = as' := by
    obtain ⟨rest, rfl⟩ := h
    have hrest : bytes rest = 0 := by
      rw [bytes_append] at hbytes
      omega
    obtain rfl := String.ofList_eq_empty_iff.1 (String.utf8ByteSize_eq_zero_iff.1 hrest)
    exact (List.append_nil as).symm
  rcases List.prefix_or_prefix_of_prefix (List.prefix_append as bs)
    (h ▸ List.prefix_append as' bs') with hp | hp
  · exact eq_of_shorter hp hbytes
  · exact (eq_of_shorter hp hbytes.symm).symm

/-! ### Hexadecimal digits -/

/-- The digit of `d`, in either case. -/
def IsHexDigit (h : Char) (d : Nat) : Prop := d < 16 ∧ (h = d.digitChar ∨ h = d.digitChar.toUpper)

instance (h : Char) (d : Nat) : Decidable (IsHexDigit h d) := inferInstanceAs (Decidable (_ ∧ _))

/-- The digits of a number in base 16, the leading one first. -/
abbrev HexDigits (hs : List Char) (ds : List Nat) : Prop := List.Forall₂ IsHexDigit hs ds

section Digits

variable {h : Char} {d n : Nat} {cs hs rest : List Char} {ds : List Nat}

theorem hexDigit?_eq_some_iff : hexDigit? h = some d ↔ IsHexDigit h d := by
  constructor
  · intro hd
    have hall : ∀ n < 128, ∀ d ∈ hexDigit? (Char.ofNat n), IsHexDigit (Char.ofNat n) d := by decide
    have hascii : h.toNat < 128 := by
      unfold hexDigit? at hd
      split at hd
      · next hr => exact Nat.lt_of_le_of_lt hr.2 (by decide)
      split at hd
      · next hr => exact Nat.lt_of_le_of_lt hr.2 (by decide)
      split at hd
      · next hr => exact Nat.lt_of_le_of_lt hr.2 (by decide)
      · cases hd
    have := hall h.toNat hascii
    rw [Char.ofNat_toNat] at this
    exact this d hd
  · have hall : ∀ d < 16,
        hexDigit? d.digitChar = some d ∧ hexDigit? d.digitChar.toUpper = some d := by decide
    rintro ⟨hd, rfl | rfl⟩
    · exact (hall d hd).1
    · exact (hall d hd).2

theorem hexDigit?_eq_none_iff : hexDigit? h = none ↔ ∀ d, ¬ IsHexDigit h d := by
  simp only [Option.eq_none_iff_forall_ne_some, ne_eq, hexDigit?_eq_some_iff]

theorem IsHexDigit.utf8Size_eq (hd : IsHexDigit h d) : h.utf8Size = 1 := by
  have hall : ∀ d < 16, d.digitChar.utf8Size = 1 ∧ d.digitChar.toUpper.utf8Size = 1 := by decide
  obtain ⟨hd, rfl | rfl⟩ := hd
  · exact (hall d hd).1
  · exact (hall d hd).2

theorem bytes_hexDigits (hhex : HexDigits hs ds) : bytes hs = hs.length := by
  induction hhex with
  | nil => rfl
  | cons hd _ ih => rw [bytes_cons, hd.utf8Size_eq, ih, List.length_cons, Nat.add_comm]

/-- Digits are read from the leading one on. -/
theorem hexValue_append (hhex : HexDigits hs ds) :
    hexValue (hs ++ rest) = rest.foldlM (fun n c => match hexDigit? c with
      | some d => .ok (n * 16 + d)
      | none => .error c) (Nat.ofDigits 16 ds.reverse) := by
  suffices hfrom : ∀ n, (hs ++ rest).foldlM (fun n c => match hexDigit? c with
      | some d => .ok (n * 16 + d)
      | none => .error c) n = rest.foldlM (fun n c => match hexDigit? c with
      | some d => Except.ok (n * 16 + d)
      | none => .error c) (16 ^ ds.length * n + Nat.ofDigits 16 ds.reverse) by
    have := hfrom 0
    rwa [Nat.mul_zero, Nat.zero_add] at this
  induction hhex with
  | nil => exact fun n => by simp
  | cons hd _ ih =>
    intro n
    rw [List.cons_append, List.foldlM_cons, hexDigit?_eq_some_iff.2 hd]
    show List.foldlM _ _ _ = _
    rw [ih, Nat.ofDigits_reverse_cons, List.length_cons]
    congr 1
    ring

theorem hexValue_eq_ok (hhex : HexDigits hs ds) :
    hexValue hs = .ok (Nat.ofDigits 16 ds.reverse) := by
  rw [← List.append_nil hs, hexValue_append hhex]
  rfl

/-- The first character that is no digit is the one to blame. -/
theorem hexValue_eq_error (hhex : HexDigits hs ds) (hh : ∀ d, ¬ IsHexDigit h d) :
    hexValue (hs ++ h :: rest) = .error h := by
  rw [hexValue_append hhex, List.foldlM_cons, hexDigit?_eq_none_iff.2 hh]
  rfl

/-- A text starts with `n` digits, or with fewer behind which something else stands, or it ends
before there are `n`. -/
theorem hexDigits_cases (n : Nat) (cs : List Char) :
    (∃ hs ds rest, HexDigits hs ds ∧ hs.length = n ∧ cs = hs ++ rest) ∨
    (∃ hs ds h rest, HexDigits hs ds ∧ hs.length < n ∧ (∀ d, ¬ IsHexDigit h d) ∧
      cs = hs ++ h :: rest) ∨
    (∃ ds, HexDigits cs ds ∧ cs.length < n) := by
  induction n generalizing cs with
  | zero => exact .inl ⟨[], [], cs, .nil, rfl, rfl⟩
  | succ n ih =>
    cases cs with
    | nil => exact .inr (.inr ⟨[], .nil, Nat.succ_pos n⟩)
    | cons c cs =>
      by_cases hc : ∃ d, IsHexDigit c d
      · obtain ⟨d, hd⟩ := hc
        rcases ih cs with ⟨hs, ds, rest, hhex, hlen, rfl⟩ |
          ⟨hs, ds, h, rest, hhex, hlen, hh, rfl⟩ | ⟨ds, hhex, hlen⟩
        · exact .inl ⟨c :: hs, d :: ds, rest, .cons hd hhex, congrArg (· + 1) hlen, rfl⟩
        · exact .inr (.inl ⟨c :: hs, d :: ds, h, rest, .cons hd hhex, Nat.succ_lt_succ hlen, hh,
            rfl⟩)
        · exact .inr (.inr ⟨d :: ds, .cons hd hhex, Nat.succ_lt_succ hlen⟩)
      · exact .inr (.inl ⟨[], [], c, cs, .nil, Nat.succ_pos n, not_exists.1 hc, rfl⟩)

/-! ### Code points -/

theorem scalar?_eq_none (h : ¬ n.isValidChar) : scalar? n = none := dif_neg h

theorem scalar?_eq_some_iff {c : Char} : scalar? n = some c ↔ c.toNat = n := by
  constructor
  · intro h
    by_cases hvalid : n.isValidChar
    · rw [scalar?, dif_pos hvalid] at h
      cases h
      rfl
    · rw [scalar?_eq_none hvalid] at h
      cases h
  · rintro rfl
    have hvalid : c.toNat.isValidChar := c.valid
    rw [scalar?, dif_pos hvalid]
    rfl

variable {pos : Nat}

theorem codeEscape_eq_ok {c : Char} (hhex : HexDigits hs ds) (hlen : hs.length = 4)
    (hc : c.toNat = Nat.ofDigits 16 ds.reverse) : codeEscape pos hs = .ok c := by
  rw [codeEscape, hexValue_eq_ok hhex]
  simp only [hlen, Nat.lt_irrefl, if_false, scalar?_eq_some_iff.2 hc]

theorem codeEscape_digit (hhex : HexDigits hs ds) (hh : ∀ d, ¬ IsHexDigit h d) :
    codeEscape pos (hs ++ h :: rest) =
      .error (.invalidHexDigit (pos + 2) (String.ofList ['\\', 'u', h])) := by
  rw [codeEscape, hexValue_eq_error hhex hh]

theorem codeEscape_incomplete (hhex : HexDigits hs ds) (hlen : hs.length < 4) :
    codeEscape pos hs = .error (.incompleteUnicodeEscape pos hs.length) := by
  rw [codeEscape, hexValue_eq_ok hhex]
  exact if_pos hlen

theorem codeEscape_scalar (hhex : HexDigits hs ds) (hlen : hs.length = 4)
    (hvalid : ¬ (Nat.ofDigits 16 ds.reverse).isValidChar) :
    codeEscape pos hs = .error (.invalidUnicodeScalar pos (Nat.ofDigits 16 ds.reverse)) := by
  rw [codeEscape, hexValue_eq_ok hhex]
  simp only [hlen, Nat.lt_irrefl, if_false, scalar?_eq_none hvalid]

/-- Fewer than four characters are no code point. -/
theorem exists_codeEscape_eq_error (hlen : cs.length < 4) :
    ∃ e, codeEscape pos cs = .error e := by
  rcases hexDigits_cases 4 cs with ⟨hs, ds, rest, hhex, hfour, rfl⟩ |
    ⟨hs, ds, h, rest, hhex, -, hh, rfl⟩ | ⟨ds, hhex, -⟩
  · rw [List.length_append] at hlen
    omega
  · exact ⟨_, codeEscape_digit hhex hh⟩
  · exact ⟨_, codeEscape_incomplete hhex hlen⟩

end Digits

namespace Literal

/-! ### The language -/

/-- The letters behind a backslash and the characters that they stand for. -/
def escapes : Literal → List (Char × Char)
  | string => [('n', '\n'), ('r', '\r'), ('t', '\t'), ('0', '\x00'), ('\\', '\\'), ('"', '"')]
  | path => [('|', '|'), ('\\', '\\')]

/-- The ways to write the character `c`. -/
inductive Spells (l : Literal) : List Char → Char → Prop
  | plain {c : Char} (hc : c ≠ '\\') : Spells l [c] c
  | letter {e c : Char} (he : (e, c) ∈ l.escapes) : Spells l ['\\', e] c
  | code {hs : List Char} {ds : List Nat} {c : Char} (hl : l = string) (hhex : HexDigits hs ds)
      (hlen : hs.length = 4) (hc : c.toNat = Nat.ofDigits 16 ds.reverse) :
      Spells l ('\\' :: 'u' :: hs) c

/-- The body is made up of spellings, one for each character of `s`. -/
def Denotes (l : Literal) (body s : List Char) : Prop :=
  ∃ ws : List (List Char), List.Forall₂ l.Spells ws s ∧ body = ws.flatten

/-- The text starts with a backslash at `pos`, and this backslash with no spelling. -/
inductive Malformed (l : Literal) (pos : Nat) : List Char → UnescapeError → Prop
  /-- Nothing follows the backslash. -/
  | bare : Malformed l pos ['\\'] (.invalidEscape pos "\\")
  | letter {e : Char} {rest : List Char} (he : ∀ c, (e, c) ∉ l.escapes)
      (hu : ¬ (l = string ∧ e = 'u')) :
      Malformed l pos ('\\' :: e :: rest) (.invalidEscape pos (String.ofList ['\\', e]))
  /-- Fewer than four digits, and behind them something else. -/
  | digit {hs : List Char} {ds : List Nat} {h : Char} {rest : List Char} (hl : l = string)
      (hhex : HexDigits hs ds) (hlen : hs.length < 4) (hh : ∀ d, ¬ IsHexDigit h d) :
      Malformed l pos ('\\' :: 'u' :: (hs ++ h :: rest))
        (.invalidHexDigit (pos + 2) (String.ofList ['\\', 'u', h]))
  /-- Fewer than four digits, and nothing behind them. -/
  | incomplete {hs : List Char} {ds : List Nat} (hl : l = string) (hhex : HexDigits hs ds)
      (hlen : hs.length < 4) :
      Malformed l pos ('\\' :: 'u' :: hs) (.incompleteUnicodeEscape pos hs.length)
  /-- Four digits of a number that is no scalar value. -/
  | scalar {hs : List Char} {ds : List Nat} {rest : List Char} (hl : l = string)
      (hhex : HexDigits hs ds) (hlen : hs.length = 4)
      (hvalid : ¬ (Nat.ofDigits 16 ds.reverse).isValidChar) :
      Malformed l pos ('\\' :: 'u' :: (hs ++ rest))
        (.invalidUnicodeScalar pos (Nat.ofDigits 16 ds.reverse))

/-- The body goes wrong right behind `p`, which itself is a body: the next backslash, whose place
is the size of `p`, is malformed. -/
def FailsAfter (l : Literal) (p body : List Char) (e : UnescapeError) : Prop :=
  ∃ s rest, p ++ rest = body ∧ l.Denotes p s ∧ l.Malformed (bytes p) rest e

section Language

variable {l : Literal} {c e : Char} {pos : Nat} {w p body rest s : List Char}

theorem meaning_eq_some_iff_mem : l.meaning e = some c ↔ (e, c) ∈ l.escapes := by
  constructor
  · unfold meaning
    split <;> rintro ⟨⟩ <;> decide
  · have hall : ∀ p ∈ l.escapes, l.meaning p.1 = some p.2 := by cases l <;> decide
    exact hall (e, c)

theorem meaning_eq_none_iff : l.meaning e = none ↔ ∀ c, (e, c) ∉ l.escapes := by
  simp only [Option.eq_none_iff_forall_ne_some, ne_eq, meaning_eq_some_iff_mem]

theorem Denotes.nil : l.Denotes [] [] := ⟨[], .nil, rfl⟩

theorem Denotes.cons (hw : l.Spells w c) (h : l.Denotes body s) :
    l.Denotes (w ++ body) (c :: s) := by
  obtain ⟨ws, hws, rfl⟩ := h
  exact ⟨w :: ws, .cons hw hws, rfl⟩

/-! ### What is accepted -/

theorem unescapeAt_plain (hc : c ≠ '\\') :
    l.unescapeAt pos (c :: rest) = (c :: ·) <$> l.unescapeAt (pos + c.utf8Size) rest := by
  rw [unescapeAt.eq_def]
  exact if_pos hc

/-- A letter that is not the sign of a code point is looked up. -/
theorem unescapeAt_letter (hu : ¬ (l = string ∧ e = 'u')) :
    l.unescapeAt pos ('\\' :: e :: rest) = match l.meaning e with
      | some c => (c :: ·) <$> l.unescapeAt (pos + 2) rest
      | none => .error (.invalidEscape pos (String.ofList ['\\', e])) := by
  have hcode : (l.hasCodeEscapes && e == 'u') = false := by
    cases l with
    | string => simpa [hasCodeEscapes] using hu
    | path => rfl
  rw [unescapeAt.eq_def]
  simp only [ne_eq, not_true, if_false, hcode, Bool.false_eq_true]
  rfl

/-- A code point takes the next four characters, and fails if there are fewer. -/
theorem unescapeAt_code {cs : List Char} :
    string.unescapeAt pos ('\\' :: 'u' :: cs) = codeEscape pos (cs.take 4) >>= fun c =>
      (c :: ·) <$> string.unescapeAt (pos + 6) (cs.drop 4) := by
  rw [unescapeAt.eq_def]
  simp only [ne_eq, not_true, if_false, hasCodeEscapes, beq_self_eq_true, Bool.and_self, if_true]
  split
  · rfl
  · next hshort =>
    have hlen : cs.length < 4 := by
      rcases cs with _ | ⟨h₁, _ | ⟨h₂, _ | ⟨h₃, _ | ⟨h₄, rest⟩⟩⟩⟩
      case cons.cons.cons.cons => exact absurd rfl (hshort h₁ h₂ h₃ h₄ rest)
      all_goals simp
    obtain ⟨e, he⟩ := exists_codeEscape_eq_error hlen
    rw [List.take_of_length_le hlen.le, he]
    rfl

/-- A spelling is read as its character, whatever follows. -/
theorem Spells.unescapeAt_eq (h : l.Spells w c) :
    l.unescapeAt pos (w ++ rest) = (c :: ·) <$> l.unescapeAt (pos + bytes w) rest := by
  cases h with
  | plain hc =>
    rw [bytes_cons, bytes_nil, Nat.add_zero]
    exact unescapeAt_plain hc
  | @letter e _ he =>
    have hu : ¬ (l = string ∧ e = 'u') := by
      have hall : ∀ p ∈ l.escapes, p.1 ≠ 'u' := by cases l <;> decide
      exact fun hu => hall (e, c) he hu.2
    have hsize : e.utf8Size = 1 := by
      have hall : ∀ p ∈ l.escapes, p.1.utf8Size = 1 := by cases l <;> decide
      exact hall (e, c) he
    rw [List.cons_append, List.singleton_append, unescapeAt_letter hu,
      meaning_eq_some_iff_mem.2 he, bytes_cons, bytes_cons, bytes_nil, hsize]
    rfl
  | @code hs ds _ hl hhex hlen hc =>
    subst hl
    have hbytes : bytes ('\\' :: 'u' :: hs) = 6 := by
      rw [bytes_cons, bytes_cons, bytes_hexDigits hhex, hlen]
      rfl
    rw [List.cons_append, List.cons_append, unescapeAt_code, ← hlen, List.take_left,
      List.drop_left, codeEscape_eq_ok hhex hlen hc, hbytes]
    rfl

theorem Denotes.unescapeAt_eq (h : l.Denotes p s) :
    l.unescapeAt pos (p ++ rest) = (s ++ ·) <$> l.unescapeAt (pos + bytes p) rest := by
  obtain ⟨ws, hws, rfl⟩ := h
  induction hws generalizing pos with
  | nil =>
    show l.unescapeAt pos rest = id <$> l.unescapeAt pos rest
    rw [id_map]
  | cons hw _ ih =>
    rw [List.flatten_cons, List.append_assoc, hw.unescapeAt_eq, ih, bytes_append, Nat.add_assoc,
      Functor.map_map]
    rfl

theorem Denotes.unescape_eq (h : l.Denotes body s) : l.unescape body = .ok s := by
  rw [unescape, ← List.append_nil body, h.unescapeAt_eq, unescapeAt]
  exact congrArg Except.ok (List.append_nil s)

/-- Without a backslash there is nothing to decode. -/
theorem unescape_self (h : '\\' ∉ body) : l.unescape body = .ok body := by
  refine Denotes.unescape_eq ?_
  induction body with
  | nil => exact .nil
  | cons c body ih =>
    rw [List.mem_cons, not_or] at h
    exact .cons (.plain (Ne.symm h.1)) (ih h.2)

/-! ### What is refused -/

theorem Malformed.unescapeAt_eq {e : UnescapeError} (h : l.Malformed pos rest e) :
    l.unescapeAt pos rest = .error e := by
  cases h with
  | bare => rw [unescapeAt, if_neg (not_not_intro rfl)]
  | letter he hu => rw [unescapeAt_letter hu, meaning_eq_none_iff.2 he]
  | @digit hs ds h rest hl hhex hlen hh =>
    subst hl
    have htake : (hs ++ h :: rest).take 4 = hs ++ h :: rest.take (3 - hs.length) := by
      rw [List.take_append, List.take_of_length_le hlen.le, ← List.take_succ_cons]
      congr 2
      omega
    rw [unescapeAt_code, htake, codeEscape_digit hhex hh]
    rfl
  | incomplete hl hhex hlen =>
    subst hl
    rw [unescapeAt_code, List.take_of_length_le hlen.le, codeEscape_incomplete hhex hlen]
    rfl
  | scalar hl hhex hlen hvalid =>
    subst hl
    rw [unescapeAt_code, ← hlen, List.take_left, codeEscape_scalar hhex hlen hvalid]
    rfl

theorem FailsAfter.unescape_eq {e : UnescapeError} (h : l.FailsAfter p body e) :
    l.unescape body = .error e := by
  obtain ⟨s, rest, rfl, hp, hrest⟩ := h
  rw [unescape, hp.unescapeAt_eq, Nat.zero_add, hrest.unescapeAt_eq]
  rfl

/-! ### Every body is accepted or refused -/

/-- A text that is not empty starts with a spelling, or with a backslash that starts none. -/
theorem spells_or_malformed (l : Literal) (cs : List Char) :
    cs = [] ∨ (∃ w c rest, l.Spells w c ∧ cs = w ++ rest) ∨ ∀ pos, ∃ e, l.Malformed pos cs e := by
  rcases cs with _ | ⟨c, cs⟩
  · exact .inl rfl
  by_cases hc : c = '\\'
  case neg => exact .inr (.inl ⟨[c], c, cs, .plain hc, rfl⟩)
  subst hc
  rcases cs with _ | ⟨e, cs⟩
  · exact .inr (.inr fun _ => ⟨_, .bare⟩)
  by_cases hu : l = string ∧ e = 'u'
  · obtain ⟨hl, rfl⟩ := hu
    rcases hexDigits_cases 4 cs with ⟨hs, ds, rest, hhex, hlen, rfl⟩ |
      ⟨hs, ds, h, rest, hhex, hlen, hh, rfl⟩ | ⟨ds, hhex, hlen⟩
    · by_cases hvalid : (Nat.ofDigits 16 ds.reverse).isValidChar
      · exact .inr (.inl ⟨_, Char.ofNatAux _ hvalid, rest, .code hl hhex hlen rfl, rfl⟩)
      · exact .inr (.inr fun _ => ⟨_, .scalar hl hhex hlen hvalid⟩)
    · exact .inr (.inr fun _ => ⟨_, .digit hl hhex hlen hh⟩)
    · exact .inr (.inr fun _ => ⟨_, .incomplete hl hhex hlen⟩)
  · by_cases he : ∃ c, (e, c) ∈ l.escapes
    · obtain ⟨c, he⟩ := he
      exact .inr (.inl ⟨['\\', e], c, cs, .letter he, rfl⟩)
    · exact .inr (.inr fun _ => ⟨_, .letter (not_exists.1 he) hu⟩)

theorem Spells.length_pos (h : l.Spells w c) : 0 < w.length := by
  cases h <;> simp

/-- Taking spellings off the front comes to the end or to a malformed backslash. -/
theorem exists_denotes_prefix (l : Literal) (body : List Char) :
    ∃ p s rest, p ++ rest = body ∧ l.Denotes p s ∧
      (rest = [] ∨ ∀ pos, ∃ e, l.Malformed pos rest e) := by
  induction hn : body.length using Nat.strongRecOn generalizing body with
  | ind n ih =>
    subst hn
    rcases spells_or_malformed l body with rfl | ⟨w, c, body, hw, rfl⟩ | hbad
    · exact ⟨[], [], [], rfl, .nil, .inl rfl⟩
    · have hlt : body.length < (w ++ body).length := by
        have := hw.length_pos
        rw [List.length_append]
        omega
      obtain ⟨p, s, rest, rfl, hp, hrest⟩ := ih _ hlt body rfl
      exact ⟨w ++ p, c :: s, rest, List.append_assoc .., hp.cons hw, hrest⟩
    · exact ⟨[], [], body, rfl, .nil, .inr hbad⟩

theorem denotes_or_failsAfter (l : Literal) (body : List Char) :
    (∃ s, l.Denotes body s) ∨ ∃ p e, l.FailsAfter p body e := by
  obtain ⟨p, s, rest, rfl, hp, rfl | hbad⟩ := exists_denotes_prefix l body
  · exact .inl ⟨s, (List.append_nil p).symm ▸ hp⟩
  · obtain ⟨e, he⟩ := hbad (bytes p)
    exact .inr ⟨p, e, s, rest, rfl, hp, he⟩

end Language

end Literal

/-! ### The place of an error -/

/-- Where the backslash is that an error is about. -/
def UnescapeError.backslash : UnescapeError → Nat
  | invalidEscape pos _ => pos
  | invalidHexDigit pos _ => pos - 2
  | incompleteUnicodeEscape pos _ => pos
  | invalidUnicodeScalar pos _ => pos

namespace Literal

variable {l : Literal} {p p' body : List Char} {e e' : UnescapeError}

theorem Malformed.backslash_eq {pos : Nat} (h : l.Malformed pos body e) : e.backslash = pos := by
  cases h <;> rfl

/-- A body goes wrong at one place only. -/
theorem FailsAfter.prefix_unique (h : l.FailsAfter p body e) (h' : l.FailsAfter p' body e') :
    p = p' := by
  obtain rfl : e = e' := Except.error.inj (h.unescape_eq.symm.trans h'.unescape_eq)
  obtain ⟨_, rest, rfl, -, hrest⟩ := h
  obtain ⟨_, rest', heq, -, hrest'⟩ := h'
  exact eq_of_bytes_eq heq.symm (hrest.backslash_eq.symm.trans hrest'.backslash_eq)

/-- Unescaping accepts the bodies that are made up of spellings, and gives the characters that
these stand for. Any other body has one beginning that is a body and behind which a malformed
backslash stands, and this backslash is what unescaping reports. -/
theorem unescape_exact (l : Literal) (body : List Char) :
    (∀ s, l.unescape body = .ok s ↔ l.Denotes body s) ∧
      (∀ e, l.unescape body = .error e ↔ ∃ p, l.FailsAfter p body e) ∧
      ((¬ ∃ s, l.Denotes body s) → ∃! p, ∃ e, l.FailsAfter p body e) := by
  refine ⟨fun s => ⟨fun hs => ?_, Denotes.unescape_eq⟩,
    fun e => ⟨fun he => ?_, fun ⟨p, hp⟩ => hp.unescape_eq⟩, fun hnot => ?_⟩
  · rcases denotes_or_failsAfter l body with ⟨s', hs'⟩ | ⟨p, e, hp⟩
    · obtain rfl : s' = s := Except.ok.inj (hs'.unescape_eq.symm.trans hs)
      exact hs'
    · cases hp.unescape_eq.symm.trans hs
  · rcases denotes_or_failsAfter l body with ⟨s, hs⟩ | ⟨p, e', hp⟩
    · cases hs.unescape_eq.symm.trans he
    · obtain rfl : e' = e := Except.error.inj (hp.unescape_eq.symm.trans he)
      exact ⟨p, hp⟩
  · obtain ⟨p, hp⟩ := (denotes_or_failsAfter l body).resolve_left hnot
    exact ⟨p, hp, fun p' ⟨_, hp'⟩ => hp'.prefix_unique hp.choose_spec⟩

/-- Behind `é`, which takes two bytes, the digits of `\u12` end too early. -/
example : string.unescape ['é', '\\', 'u', '1', '2'] = .error (.incompleteUnicodeEscape 2 2) := by
  decide

end Literal

end ValueAlgebra
