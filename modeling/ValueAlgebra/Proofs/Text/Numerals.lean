import Mathlib.Data.List.Basic
import ValueAlgebra.Codec.Scan
import ValueAlgebra.Number.Integer

/-!
# Integers are read back

The digits of a number, read by the longest match, end where no digit follows, and denote the
number.
-/

namespace ValueAlgebra

/-- The text that follows does not start with a character out of `p`. -/
def Stops (p : Char → Bool) (rest : List Char) : Prop := ∀ c ∈ rest.head?, p c = false

namespace Stops

variable {p : Char → Bool} {c : Char} {cs rest : List Char}

theorem nil : Stops p [] := nofun

theorem cons (h : p c = false) : Stops p (c :: cs) := by
  rintro d ⟨⟩
  exact h

theorem takeWhile_append (h : Stops p rest) (hcs : ∀ c ∈ cs, p c = true) :
    (cs ++ rest).takeWhile p = cs := by
  rw [List.takeWhile_append_of_pos hcs]
  cases rest with
  | nil => simp
  | cons c rest => simp [h c rfl]

theorem dropWhile_append (h : Stops p rest) (hcs : ∀ c ∈ cs, p c = true) :
    (cs ++ rest).dropWhile p = rest := by
  rw [List.dropWhile_append_of_pos hcs]
  cases rest with
  | nil => rfl
  | cons c rest => simp [h c rfl]

end Stops

/-! ### Digits -/

theorem isDigit_of_mem_digitsOf {n : Nat} {c : Char} (h : c ∈ digitsOf n) : c.isDigit = true :=
  Nat.isDigit_of_mem_toDigits (by decide) (by decide) h

theorem digitsOf_ne_nil (n : Nat) : digitsOf n ≠ [] := Nat.toDigits_ne_nil

theorem ne_minus_of_isDigit {c : Char} (h : c.isDigit = true) : c ≠ '-' := by
  rintro rfl
  exact absurd h (by decide)

/-- Digits are not mistaken for a negative numeral. -/
theorem intOfNumeral_of_digits {cs : List Char} (h : ∀ c ∈ cs, c.isDigit = true) :
    intOfNumeral cs = natOfDigits cs := by
  unfold intOfNumeral
  split
  · exact (ne_minus_of_isDigit (h '-' List.mem_cons_self) rfl).elim
  · rfl

theorem intOfNumeral_numeralOf (i : Int) : intOfNumeral (numeralOf i) = i := by
  unfold numeralOf
  split
  · rw [intOfNumeral, natOfDigits_digitsOf]
    omega
  · rw [intOfNumeral_of_digits fun _ => isDigit_of_mem_digitsOf, natOfDigits_digitsOf]
    omega

theorem int64OfNumeral_numeralOf (n : Int64) : int64OfNumeral (numeralOf n.toInt) = .ok n := by
  have hlow : ¬ n.toInt < Int64.minValue.toInt := Int.not_lt.2 n.minValue_le_toInt
  have hhigh : ¬ Int64.maxValue.toInt < n.toInt := Int.not_lt.2 n.toInt_le
  rw [int64OfNumeral]
  simp only [intOfNumeral_numeralOf, hlow, hhigh, if_false, Int64.ofInt_toInt]

theorem uint64OfDigits_digitsOf (x : UInt64) : uint64OfDigits (digitsOf x.toNat) = .ok x := by
  have hlt : ¬ UInt64.size ≤ x.toNat := Nat.not_le.2 x.toNat_lt
  rw [uint64OfDigits]
  simp only [natOfDigits_digitsOf, hlt, if_false, UInt64.ofNat_toNat]

/-! ### Scanning -/

namespace Lexer

/-- Digits with an optional minus sign. -/
def IsNumeral (cs : List Char) : Prop :=
  ∃ minus digits, cs = minus ++ digits ∧ (minus = [] ∨ minus = ['-']) ∧ digits ≠ [] ∧
    ∀ c ∈ digits, c.isDigit = true

theorem isNumeral_numeralOf (i : Int) : IsNumeral (numeralOf i) := by
  unfold numeralOf
  split
  · exact ⟨['-'], _, rfl, .inr rfl, digitsOf_ne_nil _, fun _ => isDigit_of_mem_digitsOf⟩
  · exact ⟨[], _, rfl, .inl rfl, digitsOf_ne_nil _, fun _ => isDigit_of_mem_digitsOf⟩

/-- A numeral is taken whole if no digit follows it. -/
theorem signed?_append {cs rest : List Char} (h : IsNumeral cs)
    (hrest : Stops Char.isDigit rest) : signed? ['-'] (cs ++ rest) = some (cs, rest) := by
  obtain ⟨minus, digits, rfl, hminus, hne, hdigits⟩ := h
  have hsign : sign ['-'] (minus ++ (digits ++ rest)) = (minus, digits ++ rest) := by
    rcases hminus with rfl | rfl
    · obtain ⟨d, ds, rfl⟩ := List.exists_cons_of_ne_nil hne
      have hd := ne_minus_of_isDigit (hdigits d List.mem_cons_self)
      simp [sign, hd]
    · simp [sign]
  rw [List.append_assoc, signed?]
  simp only [hsign, hrest.takeWhile_append hdigits, hrest.dropWhile_append hdigits, hne, if_false]

end Lexer

end ValueAlgebra
