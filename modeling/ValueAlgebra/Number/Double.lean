/-!
# Doubles

A double is the 64 bits of an IEEE 754 binary64 number. The bits below the sign, read as a number,
are the *rank* of its magnitude: ranks grow with the magnitudes they stand for, the finite ones
lie below `infinityRank` and the NaNs above it. Finite magnitudes are whole multiples of the least
positive one, 2⁻¹⁰⁷⁴, and `unitsOfRank` counts them.
-/

namespace ValueAlgebra

structure Double where
  bits : UInt64
  deriving DecidableEq, Repr

namespace Double

def isNegative (d : Double) : Bool := d.bits >>> 63 == 1

/-- The weight of the sign bit. -/
def signBit : Nat := 0x8000000000000000

/-- The weight of the lowest exponent bit, which the fraction lies below. -/
def fractionBound : Nat := 0x10000000000000

/-- The place of the magnitude among all magnitudes. -/
def rank (d : Double) : Nat := d.bits.toNat % signBit

/-- The rank of infinity. -/
def infinityRank : Nat := 0x7ff0000000000000

def isNaN (d : Double) : Bool := infinityRank < d.rank

def isInfinite (d : Double) : Bool := d.rank == infinityRank

/-- The double with the given sign and rank. -/
def ofRank (negative : Bool) (rank : Nat) : Double :=
  ⟨UInt64.ofNat (rank + if negative then signBit else 0)⟩

def infinity : Double := ofRank false infinityRank

def negInfinity : Double := ofRank true infinityRank

/-- The quiet NaN without payload or sign. -/
def nan : Double := ⟨0x7ff8000000000000⟩

/-- The bits that count for equality: all NaNs are one, and the two zeros are two. -/
def canonicalBits (d : Double) : UInt64 := if d.isNaN then nan.bits else d.bits

/-- How many units of 2⁻¹⁰⁷⁴ the magnitude of a rank has. The low 52 bits are the fraction, to
which all but the lowest exponent add a leading one. -/
def unitsOfRank (rank : Nat) : Nat :=
  let fraction := rank % fractionBound
  match rank / fractionBound with
  | 0 => fraction
  | e + 1 => (fraction + fractionBound) * Nat.pow 2 e

/-- Twice the midpoint between a rank and the next, in units. -/
def doubledMidpoint (rank : Nat) : Nat := unitsOfRank rank + unitsOfRank (rank + 1)

end Double

end ValueAlgebra
