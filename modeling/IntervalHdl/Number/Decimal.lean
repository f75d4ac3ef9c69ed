import IntervalHdl.Number.Fraction

/-!
# Decimal text of numbers

Integers in decimal, and exact text of fractions: a denominator that is a power of two `2 ^ k`
gives a decimal with exactly `k` places, since `n / 2 ^ k = n * 5 ^ k / 10 ^ k`; any other
denominator stays a quotient.
-/

namespace IntervalHdl
set_option autoImplicit false

-- powers, of a typed exponent, are the core library's, whatever other instances are in scope
attribute [local instance (high)] instPowNat

namespace Decimal

/-- The decimal digits of `n`, without leading zeros. -/
def digits (n : Nat) : List Char := Nat.toDigits 10 n

/-- A minus sign before a negative number. -/
def sign (negative : Bool) : List Char := if negative then ['-'] else []

/-- The decimal text of an integer. -/
def ofInt (v : Int) : List Char := sign (v < 0) ++ digits v.natAbs

/-- The digits of `n`, with zeros in front up to `least` digits. -/
def padded (least n : Nat) : List Char :=
  List.replicate (least - (digits n).length) '0' ++ digits n

/-- The text of `n / 10 ^ places`, with exactly `places` digits after the point and at least one
before it. -/
def fixed (places n : Nat) : List Char :=
  let all := padded (places + 1) n
  all.take (all.length - places) ++ '.' :: all.drop (all.length - places)

/-- The exponent of a power of two. -/
def log2? (d : Nat) : Option Nat := if 2 ^ d.log2 = d then some d.log2 else none

/-- The exact text of a fraction. -/
def ofFraction (f : Fraction) : List Char :=
  if f.den = 1 then ofInt f.num
  else match log2? f.den.natAbs with
    | some places => sign (f.num * f.den < 0) ++ fixed places (f.num.natAbs * 5 ^ places)
    | none => ofInt f.num ++ '/' :: ofInt f.den

theorem log2?_eq_some_iff {d k : Nat} : log2? d = some k ↔ d = 2 ^ k := by
  unfold log2?
  split
  · rename_i power
    simp only [Option.some.injEq]
    constructor
    · rintro rfl; exact power.symm
    · rintro rfl; exact Nat.log2_two_pow
  · rename_i other
    simp only [reduceCtorEq, false_iff]
    rintro rfl
    exact other (by rw [Nat.log2_two_pow])

theorem length_padded (least n : Nat) : (padded least n).length = max least (digits n).length := by
  simp [padded]; omega

end Decimal

/-- The decimal text of an integer, as a string. -/
def intText (v : Int) : String := String.ofList (Decimal.ofInt v)

/-- The decimal text of a natural number, as a string. -/
def natText (n : Nat) : String := String.ofList (Decimal.digits n)

end IntervalHdl
