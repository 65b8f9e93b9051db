import ValueAlgebra.Codec.Scan
import ValueAlgebra.Proofs.Text.Escapes

/-!
# Literals are read back

Escaping spells each character of a text: as itself, by a letter behind a backslash, or by its code
point. Unescaping therefore gives the text back.

The scanner does not know the escapes: to it a backslash hides the next character, whichever it
is. `Literal.IsBody` is what it takes for the inside of a literal, and `Lexer.quoted?_eq_some_iff`
says that it takes nothing else. What escaping writes is such an inside, so that the scanner finds
the delimiter that closes it, whatever follows.
-/

namespace ValueAlgebra

theorem hexDigit?_digitChar {d : Nat} (h : d < 16) : hexDigit? d.digitChar = some d :=
  hexDigit?_eq_some_iff.2 ⟨h, .inl rfl⟩

/-- Hexadecimal digits neither close a literal nor escape anything. -/
theorem digitChar_ne {d : Nat} (h : d < 16) {c : Char} (hc : hexDigit? c = none) :
    d.digitChar ≠ c := by
  rintro rfl
  rw [hexDigit?_digitChar h] at hc
  cases hc

/-- Four digits are enough for a number that fits into two bytes. -/
theorem exists_hexDigits_fourHexDigits {n : Nat} (h : n < 65536) :
    ∃ ds, HexDigits (fourHexDigits n) ds ∧ Nat.ofDigits 16 ds.reverse = n := by
  have digit (k : Nat) : IsHexDigit (k % 16).digitChar (k % 16) :=
    ⟨Nat.mod_lt _ (by decide), .inl rfl⟩
  refine ⟨_, .cons (digit _) (.cons (digit _) (.cons (digit _) (.cons (digit _) .nil))), ?_⟩
  simp only [List.reverse_cons, List.reverse_nil, List.nil_append, List.cons_append,
    Nat.ofDigits_cons, Nat.ofDigits_nil]
  omega

/-- Control characters have small code points. -/
theorem toNat_lt_of_isControl {c : Char} (h : isControl c = true) : c.toNat < 65536 := by
  simp only [isControl, Bool.or_eq_true, Bool.and_eq_true, decide_eq_true_eq] at h
  rw [Char.toNat]
  rcases h with h | ⟨-, h⟩
  · exact Nat.lt_trans h (by decide)
  · exact Nat.lt_of_le_of_lt h (by decide)

namespace Literal

variable {l : Literal} {c : Char}

theorem letterFor_delimiter (l : Literal) : l.letterFor l.delimiter = some l.delimiter := by
  cases l <;> rfl

theorem letterFor_backslash (l : Literal) : l.letterFor '\\' = some '\\' := by cases l <;> rfl

theorem delimiter_ne_backslash (l : Literal) : l.delimiter ≠ '\\' := by cases l <;> decide

theorem hexDigit?_delimiter (l : Literal) : hexDigit? l.delimiter = none := by cases l <;> rfl

/-- The three ways to write a character. -/
theorem escapeChar_cases (l : Literal) (c : Char) :
    (∃ e, l.escapeChar c = ['\\', e] ∧ (e, c) ∈ l.escapes) ∨
    (l.escapeChar c = '\\' :: 'u' :: fourHexDigits c.toNat ∧ l = string ∧ c.toNat < 65536) ∨
    (l.escapeChar c = [c] ∧ c ≠ '\\' ∧ c ≠ l.delimiter ∧
      (l.hasCodeEscapes && isControl c) = false) := by
  cases he : l.letterFor c with
  | some e =>
    refine .inl ⟨e, ?_, meaning_eq_some_iff_mem.1 ((meaning_eq_some_iff l e c).2 he)⟩
    rw [escapeChar, he]
  | none =>
    by_cases hcode : (l.hasCodeEscapes && isControl c) = true
    · refine .inr (.inl ⟨?_, ?_, ?_⟩)
      · rw [escapeChar, he]
        exact if_pos hcode
      · cases l with
        | string => rfl
        | path => cases hcode
      · exact toNat_lt_of_isControl (Bool.and_eq_true _ _ ▸ hcode).2
    · refine .inr (.inr ⟨?_, ?_, ?_, Bool.eq_false_iff.2 hcode⟩)
      · rw [escapeChar, he]
        exact if_neg hcode
      · rintro rfl
        rw [letterFor_backslash] at he
        cases he
      · rintro rfl
        rw [letterFor_delimiter] at he
        cases he

/-! ### Unescaping -/

/-- However a character is written, it is one of its spellings. -/
theorem spells_escapeChar (l : Literal) (c : Char) : l.Spells (l.escapeChar c) c := by
  rcases escapeChar_cases l c with ⟨e, he, hmem⟩ | ⟨he, hl, hc⟩ | ⟨he, hc, -, -⟩
  · rw [he]
    exact .letter hmem
  · obtain ⟨ds, hhex, hn⟩ := exists_hexDigits_fourHexDigits hc
    rw [he]
    exact .code hl hhex rfl hn.symm
  · rw [he]
    exact .plain hc

theorem denotes_escape (l : Literal) (s : List Char) : l.Denotes (l.escape s) s := by
  induction s with
  | nil => exact .nil
  | cons c s ih => exact .cons (l.spells_escapeChar c) ih

/-- Unescaping undoes escaping. -/
theorem unescape_escape (l : Literal) (s : List Char) : l.unescape (l.escape s) = .ok s :=
  (l.denotes_escape s).unescape_eq

end Literal

/-! ### Scanning -/

namespace Literal

/-- What may stand between the delimiters: any character that does not hide the next one or close
the literal, and any character behind a backslash. -/
inductive IsBody (l : Literal) : List Char → Prop
  | nil : IsBody l []
  | plain {c : Char} {cs : List Char} (hd : c ≠ l.delimiter) (hc : c ≠ '\\') (h : IsBody l cs) :
      IsBody l (c :: cs)
  | pair {c : Char} {cs : List Char} (h : IsBody l cs) : IsBody l ('\\' :: c :: cs)

variable {l : Literal} {body body' : List Char}

theorem IsBody.append (h : l.IsBody body) (h' : l.IsBody body') : l.IsBody (body ++ body') := by
  induction h with
  | nil => exact h'
  | plain hd hc _ ih => exact .plain hd hc ih
  | pair _ ih => exact .pair ih

theorem isBody_escapeChar (l : Literal) (c : Char) : l.IsBody (l.escapeChar c) := by
  rcases escapeChar_cases l c with ⟨e, he, -⟩ | ⟨he, -, -⟩ | ⟨he, hc, hd, -⟩
  · rw [he]
    exact .pair .nil
  · have digit (k : Nat) {cs : List Char} (h : l.IsBody cs) : l.IsBody ((k % 16).digitChar :: cs) :=
      .plain (digitChar_ne (Nat.mod_lt _ (by decide)) l.hexDigit?_delimiter)
        (digitChar_ne (Nat.mod_lt _ (by decide)) rfl) h
    rw [he]
    exact .pair (digit _ (digit _ (digit _ (digit _ .nil))))
  · rw [he]
    exact .plain hd hc .nil

theorem isBody_escape (l : Literal) (s : List Char) : l.IsBody (l.escape s) := by
  induction s with
  | nil => exact .nil
  | cons c s ih => exact (l.isBody_escapeChar c).append ih

end Literal

namespace Lexer

variable {l : Literal} {body cs rest : List Char} {n m : Nat}

theorem closingIndex?_delimiter : closingIndex? l.delimiter n (l.delimiter :: rest) = some n := by
  rw [closingIndex?.eq_def]
  exact if_pos rfl

/-- A body ends at the next delimiter. -/
theorem closingIndex?_body (h : l.IsBody body) :
    closingIndex? l.delimiter n (body ++ l.delimiter :: rest) = some (n + body.length) := by
  induction h generalizing n with
  | nil => exact closingIndex?_delimiter
  | @plain c body hd hc _ ih =>
    have hlen : n + (c :: body).length = n + 1 + body.length := by
      rw [List.length_cons]
      omega
    rw [List.cons_append, closingIndex?.eq_def]
    simp only [hd, hc, if_false, ih, hlen]
  | @pair c body _ ih =>
    have hlen : n + ('\\' :: c :: body).length = n + 2 + body.length := by
      rw [List.length_cons, List.length_cons]
      omega
    rw [List.cons_append, List.cons_append, closingIndex?.eq_def]
    simp only [l.delimiter_ne_backslash.symm, if_false, if_true, ih, hlen]

/-- What precedes the closing delimiter is a body. -/
theorem isBody_take (h : closingIndex? l.delimiter n cs = some m) :
    ∃ k, m = n + k ∧ l.IsBody (cs.take k) := by
  fun_induction closingIndex? l.delimiter n cs with
  | case1 | case3 => cases h
  | case2 => exact ⟨0, (Option.some.inj h).symm, .nil⟩
  | case4 n _ c cs ih =>
    obtain ⟨k, rfl, hk⟩ := ih h
    exact ⟨k + 2, by omega, .pair hk⟩
  | case5 n c cs hd hc ih =>
    obtain ⟨k, rfl, hk⟩ := ih h
    exact ⟨k + 1, by omega, .plain hd hc hk⟩

/-- The rule of a literal: a body between delimiters. -/
theorem quoted?_eq_some_iff :
    quoted? l cs = some (body, rest) ↔ l.IsBody body ∧ cs = enclose l body ++ rest := by
  constructor
  · intro h
    refine ⟨?_, (quoted?_eq h).symm⟩
    cases cs with
    | nil => cases h
    | cons c cs =>
      simp only [quoted?, Option.ite_none_right_eq_some, Option.map_eq_some_iff, Prod.mk.injEq] at h
      obtain ⟨-, n, hn, rfl, -⟩ := h
      obtain ⟨k, rfl, hk⟩ := isBody_take hn
      rwa [Nat.zero_add]
  · rintro ⟨hbody, rfl⟩
    rw [enclose, List.cons_append, List.append_assoc, List.singleton_append, quoted?, if_pos rfl,
      closingIndex?_body hbody, Nat.zero_add]
    simp

/-- A literal is delimited as it was quoted, whatever follows. -/
theorem quoted?_quote (l : Literal) (s rest : List Char) :
    quoted? l (l.quote s ++ rest) = some (l.escape s, rest) :=
  quoted?_eq_some_iff.2 ⟨l.isBody_escape s, rfl⟩

end Lexer

/-! ### Quoting -/

namespace Literal

theorem isControl_of_mem_fourHexDigits {e : Char} {n : Nat} (h : e ∈ fourHexDigits n) :
    isControl e = false := by
  have hall : ∀ d < 16, isControl d.digitChar = false := by decide
  have hlt : ∀ d ∈ [n / 4096 % 16, n / 256 % 16, n / 16 % 16, n % 16], d < 16 := by
    simp [Nat.mod_lt]
  obtain ⟨d, hd, rfl⟩ := List.mem_map.1 h
  exact hall d (hlt d hd)

theorem isControl_of_mem_escapeChar {c e : Char} (h : e ∈ string.escapeChar c) :
    isControl e = false := by
  rcases escapeChar_cases string c with ⟨e', he, hmem⟩ | ⟨he, -, -⟩ | ⟨he, -, -, hc⟩
  · have hall : ∀ p ∈ string.escapes, isControl p.1 = false := by decide
    rw [he] at h
    rcases h with _ | ⟨_, h⟩
    · rfl
    · exact List.mem_singleton.1 h ▸ hall (e', c) hmem
  · rw [he] at h
    rcases h with _ | ⟨_, _ | ⟨_, h⟩⟩
    · rfl
    · rfl
    · exact isControl_of_mem_fourHexDigits h
  · rw [he] at h
    exact List.mem_singleton.1 h ▸ hc

/-- A text survives its quotation. The body between the delimiters is unescaped to the text and, in
strings, has no control characters; whatever follows, the rule of the literal takes this body and
the closing delimiter, and there is no other way to match it. -/
theorem quote_readsBack (l : Literal) (s rest : List Char) :
    ∃ body, l.quote s = l.delimiter :: (body ++ [l.delimiter]) ∧
      l.unescape body = .ok s ∧
      (l = string → ∀ c ∈ body, isControl c = false) ∧
      Lexer.quoted? l (l.quote s ++ rest) = some (body, rest) ∧
      ∀ body' rest', (l.IsBody body' ∧ l.quote s ++ rest = Lexer.enclose l body' ++ rest') ↔
        body' = body ∧ rest' = rest := by
  have hquoted := Lexer.quoted?_quote l s rest
  refine ⟨l.escape s, rfl, l.unescape_escape s, ?_, hquoted, fun body' rest' => ?_⟩
  · rintro rfl c hc
    obtain ⟨a, -, hca⟩ := List.mem_flatMap.1 hc
    exact isControl_of_mem_escapeChar hca
  · rw [← Lexer.quoted?_eq_some_iff, hquoted, Option.some.injEq, Prod.mk.injEq, eq_comm,
      @eq_comm _ rest]

end Literal

end ValueAlgebra
