/-!
# Decimal integers

Signed and unsigned 64-bit integers as decimal text. Reading refuses a numeral outside the range
and says on which side it lies.
-/

namespace ValueAlgebra

/-- The side on which a numeral leaves its range. -/
inductive RangeError
  | tooLarge
  | tooSmall
  deriving DecidableEq, Repr

namespace RangeError

def message : RangeError → String
  | tooLarge => "number too large to fit in target type"
  | tooSmall => "number too small to fit in target type"

end RangeError

/-- Joins neighbouring blocks of a number in the given base, least first. -/
def joinPairs (base : Nat) : List Nat → List Nat
  | b :: c :: rest => (b + base * c) :: joinPairs base rest
  | short => short

theorem length_joinPairs_le (base : Nat) : ∀ blocks : List Nat,
    (joinPairs base blocks).length ≤ blocks.length
  | [] | [_] => Nat.le_refl _
  | _ :: _ :: rest => by
    have := length_joinPairs_le base rest
    simp [joinPairs]
    omega

/-- The number with the given digits in some base, least first. Joining neighbours squares the base
and halves the digits, so that even long numerals are read quickly. -/
def ofBlocks (base : Nat) (blocks : List Nat) : Nat :=
  match blocks with
  | [] => 0
  | [b] => b
  | b :: c :: rest => ofBlocks (base * base) ((b + base * c) :: joinPairs base rest)
termination_by blocks.length
decreasing_by
  have := length_joinPairs_le base rest
  simp
  omega

theorem foldr_joinPairs (base : Nat) : ∀ blocks : List Nat,
    (joinPairs base blocks).foldr (fun b n => b + base * base * n) 0
      = blocks.foldr (fun b n => b + base * n) 0
  | [] | [_] => by simp [joinPairs]
  | b :: c :: rest => by
    simp only [joinPairs, List.foldr_cons, foldr_joinPairs base rest]
    simp [Nat.mul_add, Nat.mul_assoc, Nat.add_assoc]

theorem ofBlocks_eq (base : Nat) (blocks : List Nat) :
    ofBlocks base blocks = blocks.foldr (fun b n => b + base * n) 0 := by
  fun_induction ofBlocks base blocks with
  | case1 => rfl
  | case2 => simp
  | case3 base b c rest ih => rw [ih, ← foldr_joinPairs base (b :: c :: rest), joinPairs]

/-- The natural number written by decimal digits. -/
def natOfDigits (digits : List Char) : Nat :=
  ofBlocks 10 (digits.reverse.map fun c => c.toNat - '0'.toNat)

/-- The decimal digits of `n`, without leading zeros. -/
def digitsOf (n : Nat) : List Char := Nat.toDigits 10 n

theorem natOfDigits_eq (digits : List Char) :
    natOfDigits digits = Nat.ofDigitChars 10 digits 0 := by
  simp [natOfDigits, ofBlocks_eq, Nat.ofDigitChars, List.foldl_map, Nat.add_comm]

theorem natOfDigits_digitsOf (n : Nat) : natOfDigits (digitsOf n) = n := by
  rw [natOfDigits_eq]
  exact Nat.ofDigitChars_toDigits (by decide) (by decide)

/-- An optional minus sign and digits. -/
def intOfNumeral : List Char → Int
  | '-' :: digits => -(natOfDigits digits : Int)
  | digits => natOfDigits digits

/-- The shortest numeral of `i`. -/
def numeralOf (i : Int) : List Char :=
  if i < 0 then '-' :: digitsOf i.natAbs else digitsOf i.natAbs

/-- The 64-bit signed integer with the given numeral. -/
def int64OfNumeral (numeral : List Char) : Except RangeError Int64 :=
  let i := intOfNumeral numeral
  if i < Int64.minValue.toInt then .error .tooSmall
  else if Int64.maxValue.toInt < i then .error .tooLarge
  else .ok (Int64.ofInt i)

/-- The 64-bit unsigned integer with the given digits. -/
def uint64OfDigits (digits : List Char) : Except RangeError UInt64 :=
  let n := natOfDigits digits
  if UInt64.size ≤ n then .error .tooLarge else .ok (UInt64.ofNat n)

end ValueAlgebra
