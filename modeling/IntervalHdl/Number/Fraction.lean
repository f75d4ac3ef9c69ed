/-!
# Exact fractions

A fraction is a pair of integers as written: neither reduced nor sign-normalised, so that what was
read can be given back unchanged. `reduce` gives the form in lowest terms with a positive
denominator, and `equal` compares values rather than spellings.
-/

namespace IntervalHdl
set_option autoImplicit false

-- powers, of a typed exponent, are the core library's, whatever other instances are in scope
attribute [local instance (high)] instPowNat

/-- A numerator over a nonzero denominator. -/
structure Fraction where
  num : Int
  den : Int
  den_ne_zero : den ≠ 0
deriving DecidableEq

namespace Fraction

/-- The integer `n`, over one. -/
def ofInt (n : Int) : Fraction := ⟨n, 1, by decide⟩

/-- The fraction `n / d` in lowest terms, its denominator positive. -/
def reduce (n d : Int) (h : d ≠ 0) : Fraction where
  num := n * d.sign / Int.gcd n d
  den := d.natAbs / Int.gcd n d
  den_ne_zero := by
    have le : Int.gcd n d ≤ d.natAbs := Nat.gcd_le_right _ (Int.natAbs_pos.mpr h)
    have pos : 0 < Int.gcd n d := Nat.gcd_pos_of_pos_right _ (Int.natAbs_pos.mpr h)
    have : 0 < d.natAbs / Int.gcd n d := Nat.div_pos le pos
    omega

/-- Lowest terms over a positive denominator. -/
structure Reduced (f : Fraction) : Prop where
  den_pos : 0 < f.den
  coprime : Int.gcd f.num f.den = 1

/-- Both spell one rational number. -/
def equal (a b : Fraction) : Bool := a.num * b.den == b.num * a.den

/-- The largest integer not above the fraction times `2 ^ p`. -/
def scaledFloor (f : Fraction) (p : Nat) : Int := (f.num * 2 ^ p).fdiv f.den

theorem equal_iff {a b : Fraction} : a.equal b = true ↔ a.num * b.den = b.num * a.den := by
  simp [equal]

@[simp] theorem equal_refl (a : Fraction) : a.equal a = true := equal_iff.mpr rfl

@[simp] theorem scaledFloor_ofInt (n : Int) (p : Nat) : (ofInt n).scaledFloor p = n * 2 ^ p := by
  simp [scaledFloor, ofInt, Int.fdiv_eq_ediv_of_nonneg]

/-- The integers not above the scaled fraction are those not above its floor. -/
theorem le_scaledFloor_iff {f : Fraction} (pos : 0 < f.den) {p : Nat} {k : Int} :
    k ≤ f.scaledFloor p ↔ k * f.den ≤ f.num * 2 ^ p := by
  unfold scaledFloor
  rw [Int.fdiv_eq_ediv_of_nonneg _ (Int.le_of_lt pos)]
  exact Int.le_ediv_iff_mul_le pos

/-- The integers above the scaled fraction are those above its floor. -/
theorem scaledFloor_lt_iff {f : Fraction} (pos : 0 < f.den) {p : Nat} {k : Int} :
    f.scaledFloor p < k ↔ f.num * 2 ^ p < k * f.den := by
  rw [← Int.not_le, ← Int.not_le, le_scaledFloor_iff pos]

end Fraction

end IntervalHdl
