import IntervalHdl.Number.Fraction

/-!
# Binary floating point, read exactly

A finite double-precision number is an integer times a power of two. `Binary64.value?` reads the
64 bits of one as the fraction it denotes, in lowest terms; the words of infinities and of NaN
denote none.
-/

namespace IntervalHdl
set_option autoImplicit false

-- powers, of a typed exponent, are the core library's, whatever other instances are in scope
attribute [local instance (high)] instPowNat

namespace Binary64

/-- The 11 exponent bits. -/
def exponent (bits : UInt64) : Nat := bits.toNat / 2 ^ (52 : Nat) % 2 ^ (11 : Nat)

/-- The 52 bits after the binary point of the significand. -/
def trailing (bits : UInt64) : Nat := bits.toNat % 2 ^ (52 : Nat)

/-- The top bit marks a negative number. -/
def isNegative (bits : UInt64) : Bool := 2 ^ (63 : Nat) ≤ bits.toNat

/-- Infinities and NaN have all exponent bits set. -/
def isFinite (bits : UInt64) : Bool := exponent bits != 2047

/-- The significand as an integer: normal numbers have a leading one above the trailing bits. -/
def significand (bits : UInt64) : Int :=
  let magnitude : Nat := if exponent bits = 0 then trailing bits else 2 ^ (52 : Nat) + trailing bits
  if isNegative bits then -magnitude else magnitude

/-- The exponent, counted so that the weight of the significand is `2 ^ (scale - 1075)`. -/
def scale (bits : UInt64) : Nat := max (exponent bits) 1

/-- The number that the bits denote, if it is finite. -/
def value? (bits : UInt64) : Option Fraction :=
  if isFinite bits then
    some <| if 1075 ≤ scale bits then
      .ofInt (significand bits * 2 ^ (scale bits - 1075))
    else
      .reduce (significand bits) (2 ^ (1075 - scale bits)) (Int.ne_of_gt (Int.pow_pos (by decide)))
  else none

/-- Infinities and what is no number share the greatest exponent, and have no value. -/
theorem value?_eq_none_iff {bits : UInt64} : value? bits = none ↔ exponent bits = 2047 := by
  by_cases h : exponent bits = 2047 <;> simp [value?, isFinite, h]

end Binary64

end IntervalHdl
