import IntervalHdl.Width.Minimal
import IntervalHdl.Number.Binary64

/-!
# Interval types

An interval type says which range a value covers and how many fractional bits carry it. Its values
are held as integers scaled by `2 ^ point`; the bounds scaled the same way and rounded down are the
least and greatest of these encodings, and the intrinsic width is what both need in two's
complement.
-/

namespace IntervalHdl
set_option autoImplicit false

/-- One end of a range: a known number, or unbounded. -/
inductive Bound where
  | known (value : Fraction)
  | unbounded
deriving DecidableEq

namespace Bound

/-- The bound at the integer `n`. -/
def ofInt (n : Int) : Bound := .known (.ofInt n)

/-- The bound at a double-precision number; infinities and NaN leave the range unbounded. -/
def ofBinary64 (bits : UInt64) : Bound :=
  match Binary64.value? bits with
  | some f => .known f
  | none => .unbounded

/-- The number at the bound. -/
def value? : Bound → Option Fraction
  | .known f => some f
  | .unbounded => none

/-- Holds of a bound at a number. -/
def isKnown : Bound → Bool
  | .known _ => true
  | .unbounded => false

/-- The bound in units of `2 ^ -p`, rounded down. -/
def encoding? (b : Bound) (p : BitCount) : Option Int :=
  b.value?.map (·.scaledFloor p.toNat)

/-- Both bounds lie at one number, or both are absent. -/
def equal : Bound → Bound → Bool
  | .known a, .known b => a.equal b
  | .unbounded, .unbounded => true
  | _, _ => false

theorem isKnown_iff {b : Bound} : b.isKnown = true ↔ ∃ f, b = .known f := by
  cases b <;> simp [isKnown]

@[simp] theorem encoding?_known (f : Fraction) (p : BitCount) :
    encoding? (.known f) p = some (f.scaledFloor p.toNat) := rfl

@[simp] theorem encoding?_unbounded (p : BitCount) : encoding? .unbounded p = none := rfl

@[simp] theorem equal_refl (b : Bound) : b.equal b = true := by
  cases b <;> simp [equal]

end Bound

/-- A range with a binary point: the number of fractional bits. The recorded width is the intrinsic
one when the interval comes from `Interval.of`. -/
structure Interval where
  lower : Bound
  upper : Bound
  point : Width
  width : Width
deriving DecidableEq

namespace Interval

/-- The width that the encodings of both bounds need, where bounds and point are known. -/
def intrinsicWidth (lower upper : Bound) (point : Width) : Width :=
  match point.bits? with
  | none => .unknown
  | some p =>
    match lower.encoding? p, upper.encoding? p with
    | some lo, some hi => .known (max (signedWidth lo) (signedWidth hi))
    | _, _ => .unknown

/-- The interval type with the given bounds and point, at its intrinsic width. -/
def of (lower upper : Bound) (point : Width) : Interval :=
  ⟨lower, upper, point, intrinsicWidth lower upper point⟩

/-- The encoding of the lower bound. -/
def lowest? (t : Interval) : Option Int := t.point.bits?.bind t.lower.encoding?

/-- The encoding of the upper bound. -/
def highest? (t : Interval) : Option Int := t.point.bits?.bind t.upper.encoding?

/-- The encodings of both bounds. -/
def encodings? (t : Interval) : Option (Int × Int) :=
  match t.lowest?, t.highest? with
  | some lo, some hi => some (lo, hi)
  | _, _ => none

/-- Bounds and point are all known. -/
def isResolved (t : Interval) : Bool := t.lower.isKnown && t.upper.isKnown && t.point.isKnown

/-- Some end is unbounded. -/
def hasOpenBound (t : Interval) : Bool := !t.lower.isKnown || !t.upper.isKnown

/-- The same bounds at another point. -/
def atPoint (t : Interval) (p : BitCount) : Interval := of t.lower t.upper (.known p)

/-- The same bounds, point and width, whatever the spelling of the bounds. -/
def equal (a b : Interval) : Bool :=
  a.lower.equal b.lower && a.upper.equal b.upper && a.point == b.point && a.width == b.width

@[simp] theorem lower_of (lo hi : Bound) (p : Width) : (of lo hi p).lower = lo := rfl

@[simp] theorem upper_of (lo hi : Bound) (p : Width) : (of lo hi p).upper = hi := rfl

@[simp] theorem point_of (lo hi : Bound) (p : Width) : (of lo hi p).point = p := rfl

@[simp] theorem lower_atPoint (t : Interval) (p : BitCount) : (t.atPoint p).lower = t.lower := rfl

@[simp] theorem upper_atPoint (t : Interval) (p : BitCount) : (t.atPoint p).upper = t.upper := rfl

@[simp] theorem point_atPoint (t : Interval) (p : BitCount) :
    (t.atPoint p).point = .known p := rfl

/-- Only the last point counts, since the bounds are kept. -/
@[simp] theorem atPoint_atPoint (t : Interval) (p q : BitCount) :
    (t.atPoint p).atPoint q = t.atPoint q := rfl

@[simp] theorem equal_refl (t : Interval) : t.equal t = true := by
  simp [equal]

/-- An interval is resolved when its bounds and its point are known. -/
theorem isResolved_iff {t : Interval} :
    t.isResolved = true ↔
      ∃ lo hi p, t.lower = .known lo ∧ t.upper = .known hi ∧ t.point = .known p := by
  simp [isResolved, Bound.isKnown_iff, Width.isKnown_iff, and_assoc]

/-- No bound is open when both are known. -/
theorem hasOpenBound_eq_false_iff {t : Interval} :
    t.hasOpenBound = false ↔ ∃ lo hi, t.lower = .known lo ∧ t.upper = .known hi := by
  simp [hasOpenBound, Bound.isKnown_iff]

/-- The encodings exist exactly where the interval is resolved, and are its scaled bounds. -/
theorem encodings?_eq_some_iff {t : Interval} {a b : Int} :
    t.encodings? = some (a, b) ↔
      ∃ lo hi p, t.lower = .known lo ∧ t.upper = .known hi ∧ t.point = .known p ∧
        lo.scaledFloor p.toNat = a ∧ hi.scaledFloor p.toNat = b := by
  rcases t with ⟨lower, upper, point, width⟩
  cases lower <;> cases upper <;> cases point <;>
    simp [encodings?, lowest?, highest?, Width.bits?]

end Interval

end IntervalHdl
