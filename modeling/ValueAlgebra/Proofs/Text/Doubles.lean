import ValueAlgebra.Proofs.Text.Numerals
import ValueAlgebra.Proofs.Text.Rounding

/-!
# The text of a double

A finite double is printed as an optional sign, digits, a point and maybe more digits. The numeral
denotes the decimal that was chosen for the double, so the double is read back from it, bit by bit.
-/

namespace ValueAlgebra

theorem natOfDigits_append (cs ds : List Char) :
    natOfDigits (cs ++ ds) = Nat.ofDigitChars 10 ds (natOfDigits cs) := by
  rw [natOfDigits_eq, natOfDigits_eq, Nat.ofDigitChars_append]

theorem natOfDigits_append_zeros (cs : List Char) (n : Nat) :
    natOfDigits (cs ++ List.replicate n '0') = natOfDigits cs * 10 ^ n := by
  rw [natOfDigits_append, Nat.ofDigitChars_replicate_zero, Nat.mul_comm]

theorem natOfDigits_zeros_append (cs : List Char) (n : Nat) :
    natOfDigits (List.replicate n '0' ++ cs) = natOfDigits cs := by
  rw [natOfDigits_append, natOfDigits_eq, natOfDigits_eq, Nat.ofDigitChars_replicate_zero,
    Nat.mul_zero]

theorem isDigit_of_mem_zeros {n : Nat} {c : Char} (h : c ∈ List.replicate n '0') :
    c.isDigit = true := by
  rw [List.eq_of_mem_replicate h]
  rfl

/-- Digits, a point and maybe more digits, which make up the number `digits` with so many decimal
places. -/
structure Positional (cs : List Char) (digits places : Nat) : Prop where
  split : ∃ whole fraction, cs = whole ++ '.' :: fraction ∧ whole ≠ [] ∧
    (∀ c ∈ whole, c.isDigit = true) ∧ (∀ c ∈ fraction, c.isDigit = true) ∧
    natOfDigits (whole ++ fraction) = digits ∧ fraction.length = places

namespace Decimal

theorem positional_withPoint {cs : List Char} (h : ∀ c ∈ cs, c.isDigit = true) (places : Nat) :
    Positional (withPoint cs places) (natOfDigits cs) places := by
  unfold withPoint
  generalize hpadded : List.replicate (places + 1 - cs.length) '0' ++ cs = padded
  have hdigits : ∀ c ∈ padded, c.isDigit = true := by
    intro c hc
    rw [← hpadded, List.mem_append] at hc
    rcases hc with hc | hc
    · exact isDigit_of_mem_zeros hc
    · exact h c hc
  have hlen : places + 1 ≤ padded.length := by
    rw [← hpadded, List.length_append, List.length_replicate]
    omega
  refine ⟨_, _, rfl, ?_, fun c hc => hdigits c (List.mem_of_mem_take hc),
    fun c hc => hdigits c (List.mem_of_mem_drop hc), ?_, ?_⟩
  · rw [ne_eq, List.take_eq_nil_iff]
    rintro (h0 | rfl)
    · omega
    · simp at hlen
  · rw [List.take_append_drop, ← hpadded, natOfDigits_zeros_append]
  · rw [List.length_drop]
    omega

theorem positional_spec (d : Decimal) :
    Positional d.positional (d.digits * 10 ^ d.exponent.toNat) (-d.exponent).toNat := by
  obtain ⟨digits, exponent⟩ := d
  cases exponent with
  | ofNat e =>
    refine ⟨_, [], rfl, ?_, ?_, nofun, ?_, ?_⟩
    · simp [digitsOf_ne_nil]
    · intro c hc
      rcases List.mem_append.1 hc with hc | hc
      · exact isDigit_of_mem_digitsOf hc
      · exact isDigit_of_mem_zeros hc
    · rw [List.append_nil, natOfDigits_append_zeros, natOfDigits_digitsOf]
      by_cases h0 : digits = 0
      · simp [h0]
      · simp [h0]
    · simp
  | negSucc e =>
    have h := positional_withPoint (fun _ => isDigit_of_mem_digitsOf (n := digits)) (e + 1)
    rw [natOfDigits_digitsOf] at h
    show Positional (withPoint (digitsOf digits) (e + 1)) (digits * 10 ^ 0) (e + 1)
    rw [Nat.pow_zero, Nat.mul_one]
    exact h

end Decimal

namespace Positional

variable {cs : List Char} {digits places : Nat}

theorem decimalOfNumeral_eq (h : Positional cs digits places) :
    Double.decimalOfNumeral cs = Double.fixed digits places := by
  obtain ⟨whole, fraction, rfl, -, hwhole, hfraction, rfl, rfl⟩ := h
  have hpoint : Stops Char.isDigit ('.' :: fraction) := .cons rfl
  have htail : fraction.takeWhile Char.isDigit = fraction ∧
      fraction.dropWhile Char.isDigit = [] := by
    have htake := Stops.nil.takeWhile_append hfraction
    have hdrop := Stops.nil.dropWhile_append hfraction
    rw [List.append_nil] at htake hdrop
    exact ⟨htake, hdrop⟩
  simp only [Double.decimalOfNumeral, hpoint.takeWhile_append hwhole,
    hpoint.dropWhile_append hwhole, List.drop_succ_cons, List.drop_zero, htail, List.drop_nil]
  simp [Double.exponentOfNumeral, Double.exponentOfDigits]

theorem exists_cons (h : Positional cs digits places) :
    ∃ d rest, cs = d :: rest ∧ d.isDigit = true := by
  obtain ⟨whole, fraction, rfl, hne, hwhole, -⟩ := h
  obtain ⟨d, ds, rfl⟩ := List.exists_cons_of_ne_nil hne
  exact ⟨d, _, rfl, hwhole d List.mem_cons_self⟩

end Positional

namespace Double

/-! ### Bits -/

theorem ofRank_rank (d : Double) : ofRank d.isNegative d.rank = d := by
  obtain ⟨bits⟩ := d
  have hlt := bits.toNat_lt
  -- The sign is the top bit, and the rank is what the other bits say.
  have hshift : (bits >>> 63).toNat = bits.toNat / signBit := by
    rw [UInt64.toNat_shiftRight]
    exact Nat.shiftRight_eq_div_pow _ _
  have hsign : (isNegative ⟨bits⟩ = true) ↔ bits.toNat / signBit = 1 := by
    rw [isNegative, beq_iff_eq, ← UInt64.toNat_inj, hshift]
    rfl
  have hsum : bits.toNat % signBit + (if isNegative ⟨bits⟩ then signBit else 0) = bits.toNat := by
    have hdiv := Nat.div_add_mod bits.toNat signBit
    have hcases : bits.toNat / signBit < 2 := by
      rw [signBit]
      omega
    split
    · next hneg =>
      rw [hsign] at hneg
      rw [hneg] at hdiv
      omega
    · next hpos =>
      rw [hsign] at hpos
      have hzero : bits.toNat / signBit = 0 := by omega
      rw [hzero] at hdiv
      omega
  rw [ofRank, rank, hsum, UInt64.ofNat_toNat]

/-! ### Reading back -/

/-- What is printed for a finite double. -/
theorem text_of_finite {d : Double} (hnan : d.isNaN = false) (hinf : d.isInfinite = false) :
    d.text = (if d.isNegative then ['-'] else []) ++ (shortestMagnitude d.rank).positional := by
  simp [text, hnan, hinf]

theorem rank_lt_of_finite {d : Double} (hnan : d.isNaN = false) (hinf : d.isInfinite = false) :
    d.rank < infinityRank := by
  simp only [isNaN, decide_eq_false_iff_not, Nat.not_lt] at hnan
  simp only [isInfinite, beq_eq_false_iff_ne] at hinf
  omega

theorem ofNumeral_positional {cs : List Char} {digits places : Nat}
    (h : Positional cs digits places) (negative : Bool) :
    ofNumeral ((if negative then ['-'] else []) ++ cs) =
      ofRank negative (nearestRank (fixed digits places)) := by
  rw [← h.decimalOfNumeral_eq]
  obtain ⟨c, rest, rfl, hdigit⟩ := h.exists_cons
  -- A numeral starts with a digit, so it is not taken for an infinity.
  have hi : c ≠ 'i' := by
    rintro rfl
    exact absurd hdigit (by decide)
  have hminus := ne_minus_of_isDigit hdigit
  cases negative with
  | true =>
    rw [if_pos rfl, List.singleton_append]
    unfold ofNumeral
    split
    · next h => exact (hi (List.cons.inj (List.cons.inj h).2).1).elim
    · next h => rw [← (List.cons.inj h).2]
    · next h => exact (h _ rfl).elim
  | false =>
    rw [if_neg Bool.false_ne_true, List.nil_append]
    unfold ofNumeral
    split
    · next h => exact (hminus (List.cons.inj h).1).elim
    · next h => exact (hminus (List.cons.inj h).1).elim
    · rfl

/-- A finite double is read back from its text. -/
theorem ofNumeral_text {d : Double} (hnan : d.isNaN = false) (hinf : d.isInfinite = false) :
    ofNumeral d.text = d := by
  rw [text_of_finite hnan hinf, ofNumeral_positional (Decimal.positional_spec _)]
  show ofRank d.isNegative (nearestRank (settled (shortestMagnitude d.rank))) = d
  rw [nearestRank_settled (rank_lt_of_finite hnan hinf), ofRank_rank]

end Double

end ValueAlgebra
