/-!
# Range decisions

Which comparisons a saturation or a wrap needs, decided from the range a value is known to lie in
and the range it has to end up in. `SaturateAction.decide` looks at each side on its own;
`WrapAction.decide` also asks whether one correction by the size of the range suffices, and falls
back to a remainder where it does not.
-/

namespace IntervalHdl
set_option autoImplicit false

/-- The encodings of a target range and of the range of an incoming value. -/
structure RangeCheck where
  lo : Int
  hi : Int
  inLo : Int
  inHi : Int
deriving DecidableEq

/-- The sides on which something is done. -/
structure Sides where
  low : Bool
  high : Bool
deriving DecidableEq

namespace RangeCheck

/-- The distance between the ends of the target range. -/
def range (c : RangeCheck) : Int := c.hi - c.lo

/-- No incoming value lies above the target. -/
def fitsHigh (c : RangeCheck) : Bool := c.inHi ≤ c.hi

/-- No incoming value lies below the target. -/
def fitsLow (c : RangeCheck) : Bool := c.lo ≤ c.inLo

/-- The greatest incoming value less the range is not above the target. -/
def nearHigh (c : RangeCheck) : Bool := c.inHi - c.range ≤ c.hi

/-- The least incoming value plus the range is not below the target. -/
def nearLow (c : RangeCheck) : Bool := c.lo ≤ c.inLo + c.range

/-- The predicates that decide a wrap, in the order of its table. -/
def predicates (c : RangeCheck) : List Bool := [c.fitsHigh, c.fitsLow, c.nearHigh, c.nearLow]

end RangeCheck

/-- How a saturation is carried out. -/
inductive SaturateAction where
  | passThrough
  | clampLow
  | clampHigh
  | clampBoth
deriving DecidableEq

namespace SaturateAction

/-- A clamp on each side on which incoming values stick out. -/
def decide (c : RangeCheck) : SaturateAction :=
  match c.fitsHigh, c.fitsLow with
  | true, true => .passThrough
  | true, false => .clampLow
  | false, true => .clampHigh
  | false, false => .clampBoth

/-- The sides that are compared. -/
def sides : SaturateAction → Sides
  | .passThrough => ⟨false, false⟩
  | .clampLow => ⟨true, false⟩
  | .clampHigh => ⟨false, true⟩
  | .clampBoth => ⟨true, true⟩

/-- The name in logs. -/
def name : SaturateAction → String
  | .passThrough => "PassThrough"
  | .clampLow => "ClampLow"
  | .clampHigh => "ClampHigh"
  | .clampBoth => "ClampBoth"

end SaturateAction

/-- How a wrap is carried out. -/
inductive WrapAction where
  | passThrough
  | correctLow
  | correctHigh
  | correctBoth
  /-- One correction does not suffice. -/
  | remainder
deriving DecidableEq

namespace WrapAction

/-- A correction on each side on which incoming values stick out, if one correction brings them
near enough; else a remainder. -/
def decide (c : RangeCheck) : WrapAction :=
  match c.fitsHigh, c.fitsLow, c.nearHigh, c.nearLow with
  | true, true, _, _ => .passThrough
  | true, false, _, true => .correctLow
  | false, true, true, _ => .correctHigh
  | false, false, true, true => .correctBoth
  | _, _, _, _ => .remainder

/-- The sides that get a correction; a remainder has none. -/
def sides? : WrapAction → Option Sides
  | .passThrough => some ⟨false, false⟩
  | .correctLow => some ⟨true, false⟩
  | .correctHigh => some ⟨false, true⟩
  | .correctBoth => some ⟨true, true⟩
  | .remainder => none

/-- The name in logs. -/
def name : WrapAction → String
  | .passThrough => "PassThrough"
  | .correctLow => "CorrectLow"
  | .correctHigh => "CorrectHigh"
  | .correctBoth => "CorrectBoth"
  | .remainder => "Remainder"

end WrapAction

end IntervalHdl
