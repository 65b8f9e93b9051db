import ValueAlgebra.Number.Double
import ValueAlgebra.Number.Integer

/-!
# Doubles and decimals

The decimal text of a double has the fewest digits that read back to it and is closest to it among
those; an exact tie goes to the larger. Reading rounds to the nearest double, ties to even. Both
are exact arithmetic on natural numbers over the same rounding intervals: a decimal belongs to a
double if it lies between the midpoints to the neighbours, the midpoints included where the rank
is even.

## Main definitions

- `Decimal`: digits times a power of ten
- `Decimal.positional`: a decimal written without an exponent
- `Double.Interval`: a magnitude and what rounds to it
- `Double.shortestMagnitude`: the decimal that stands for a rank
- `Double.nearestRank`: the rank that a decimal rounds to
- `Double.text`, `Double.ofNumeral`: a double as text, and back
-/

namespace ValueAlgebra

/-- The number `digits * 10 ^ exponent`. -/
structure Decimal where
  digits : Nat
  exponent : Int
  deriving DecidableEq, Repr

namespace Decimal

/-- Digits with a point before the last `places`, padded so that a digit precedes the point. -/
def withPoint (digits : List Char) (places : Nat) : List Char :=
  let padded := List.replicate (places + 1 - digits.length) '0' ++ digits
  padded.take (padded.length - places) ++ '.' :: padded.drop (padded.length - places)

/-- The decimal written with a point and without an exponent. -/
def positional (d : Decimal) : List Char :=
  match d.exponent with
  | .ofNat e => digitsOf d.digits ++ List.replicate (if d.digits = 0 then 0 else e) '0' ++ ['.']
  | .negSucc e => withPoint (digitsOf d.digits) (e + 1)

end Decimal

namespace Double

/-! ### From a double to a decimal -/

/-- The power of five by which a whole number of units becomes a whole number of `10 ^ -1074`. -/
def unitScale : Nat := Nat.pow 5 1074

/-- A magnitude, with twice the midpoints to its neighbours. The midpoints belong to the magnitude
if `closed`. All numbers are in units of `10 ^ -1074`. -/
structure Interval where
  exact : Nat
  twiceLow : Nat
  twiceHigh : Nat
  closed : Bool

namespace Interval

/-- What reads as the given rank. -/
def ofRank (rank : Nat) : Interval where
  exact := unitsOfRank rank * unitScale
  twiceLow := if rank = 0 then 0 else doubledMidpoint (rank - 1) * unitScale
  twiceHigh := doubledMidpoint rank * unitScale
  closed := rank % 2 = 0

def contains (i : Interval) (n : Nat) : Bool :=
  if i.closed then i.twiceLow ≤ 2 * n && 2 * n ≤ i.twiceHigh
  else i.twiceLow < 2 * n && 2 * n < i.twiceHigh

/-- The multiple of `step` closest to the magnitude among those in the interval, as a number of
steps. Only the two multiples next to the magnitude can be closest. -/
def gridPoint? (i : Interval) (step : Nat) : Option Nat :=
  let below := i.exact / step
  let up := below + 1
  match i.contains (below * step), i.contains (up * step) with
  | true, true => some (if i.exact - below * step < up * step - i.exact then below else up)
  | true, false => some below
  | false, true => some up
  | false, false => none

/-- Searches the multiples of `10 ^ n`, then those of smaller powers, for one in the interval. The
finest grid holds the magnitude itself. -/
def shortestFrom (i : Interval) : Nat → Decimal
  | 0 => ⟨i.exact, -1074⟩
  | n + 1 =>
    match i.gridPoint? (Nat.pow 10 (n + 1)) with
    | some c => ⟨c, (n + 1 : Nat) - 1074⟩
    | none => i.shortestFrom n

/-- An `n` for which `10 ^ n` exceeds the magnitude, since `2 ^ 93 < 10 ^ 28`. -/
def coarsestGrid (i : Interval) : Nat := (Nat.log2 i.exact + 1) * 28 / 93 + 1

end Interval

/-- The decimal with the fewest digits that reads as the rank. -/
def shortestMagnitude (rank : Nat) : Decimal :=
  if rank = 0 then ⟨0, 0⟩
  else
    let i := Interval.ofRank rank
    i.shortestFrom i.coarsestGrid

/-- The text of a double. It has a point, so that it never reads as an integer. -/
def text (d : Double) : List Char :=
  if d.isNaN then ['n', 'a', 'n']
  else
    (if d.isNegative then ['-'] else []) ++
      if d.isInfinite then ['i', 'n', 'f'] else (shortestMagnitude d.rank).positional

/-! ### From a decimal to a double -/

/-- Whether the decimal lies at or below the midpoint above the rank, as ties go. -/
def roundsWithin (d : Decimal) (rank : Nat) : Bool :=
  let numerator := 2 * d.digits * Nat.pow 10 d.exponent.toNat * Nat.pow 2 1074
  let bound := doubledMidpoint rank * Nat.pow 10 (-d.exponent).toNat
  if rank % 2 = 0 then numerator ≤ bound else numerator < bound

/-- The least number from `base` on with `p`, for a `p` that stays true once it is true and
becomes so within `2 ^ bits` numbers. -/
def leastFrom (p : Nat → Bool) (base : Nat) : Nat → Nat
  | 0 => base
  | bits + 1 =>
    let half := Nat.pow 2 bits
    if p (base + half - 1) then leastFrom p base bits else leastFrom p (base + half) bits

/-- The rank of the greatest magnitude that a decimal reaches. -/
def rankBelow (d : Decimal) : Nat :=
  let units := d.digits * Nat.pow 10 d.exponent.toNat * Nat.pow 2 1074
    / Nat.pow 10 (-d.exponent).toNat
  let dropped := Nat.log2 units - 52
  dropped * fractionBound + units / Nat.pow 2 dropped

/-- The least number for which `p` holds, where `p` stays true once it is true. The search is
short if the answer is `guess` or next to it. -/
def leastNear (p : Nat → Bool) (guess bits : Nat) : Nat :=
  if (guess == 0 || !p (guess - 1)) && p (guess + 1) then leastFrom p guess 1
  else leastFrom p 0 bits

/-- The rank of the double nearest to a decimal. Decimals whose size alone decides are settled
without computing powers: above `10 ^ 400` all is infinite, and below `10 ^ -400` all is zero. -/
def nearestRank (d : Decimal) : Nat :=
  if d.digits = 0 then 0
  else if 400 < d.exponent then infinityRank
  else if d.exponent + Nat.log2 d.digits + 400 < 0 then 0
  else leastNear (fun r => infinityRank ≤ r || roundsWithin d r) (rankBelow d) 63

/-- An exponent of this size takes no further digits. -/
def exponentLimit : Nat := 65536

/-- The size of an exponent with the given digits. Digits after it has reached the limit do not
count. -/
def exponentOfDigits (digits : List Char) : Nat :=
  digits.foldl (fun e c => if e < exponentLimit then 10 * e + (c.toNat - '0'.toNat) else e) 0

/-- An exponent with an optional sign, zero if there is none. -/
def exponentOfNumeral : List Char → Int
  | '-' :: digits => -(exponentOfDigits digits : Int)
  | '+' :: digits => exponentOfDigits digits
  | digits => exponentOfDigits digits

/-- The decimal written by digits, a point, digits and an optional exponent. -/
def decimalOfNumeral (numeral : List Char) : Decimal :=
  let whole := numeral.takeWhile Char.isDigit
  let rest := (numeral.dropWhile Char.isDigit).drop 1
  let fraction := rest.takeWhile Char.isDigit
  let exponent := exponentOfNumeral ((rest.dropWhile Char.isDigit).drop 1)
  ⟨natOfDigits (whole ++ fraction), exponent - fraction.length⟩

/-- The double nearest to a numeral, which may be `-inf`. -/
def ofNumeral (numeral : List Char) : Double :=
  match numeral with
  | '-' :: 'i' :: _ => negInfinity
  | '-' :: magnitude => ofRank true (nearestRank (decimalOfNumeral magnitude))
  | magnitude => ofRank false (nearestRank (decimalOfNumeral magnitude))

end Double

end ValueAlgebra
