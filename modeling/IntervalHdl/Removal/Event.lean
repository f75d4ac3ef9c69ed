import IntervalHdl.Text
import IntervalHdl.Removal.Tally

/-!
# What a run tells

The events of a run in the order they happen, each with its level, its message and the text of its
fields.
-/

namespace IntervalHdl
set_option autoImplicit false

/-- How much an event matters, the gravest first. -/
inductive Level where
  | error
  | warn
  | info
  | debug
  | trace
deriving DecidableEq

namespace Level

/-- The name in logs. -/
def name : Level → String
  | .error => "ERROR"
  | .warn => "WARN"
  | .info => "INFO"
  | .debug => "DEBUG"
  | .trace => "TRACE"

/-- The position in order of gravity. -/
def rank : Level → Nat
  | .error => 0
  | .warn => 1
  | .info => 2
  | .debug => 3
  | .trace => 4

end Level

/-- An event of a run. -/
inductive Event where
  /-- Alignment takes up a module. -/
  | aligning (moduleName : String)
  /-- Alignment moves the binary point of an expression. -/
  | rescaled (e : Expr) (source target : BitCount)
  /-- Lowering takes up a module. -/
  | lowering (moduleName : String)
  /-- A saturation was decided. -/
  | clipped (check : RangeCheck) (action : SaturateAction)
  /-- A wrap was decided. -/
  | wrapped (check : RangeCheck) (action : WrapAction)
  /-- A wrap of this value takes a remainder. -/
  | remainderNeeded (value : Expr) (check : RangeCheck)
  /-- A run over that many modules succeeded. -/
  | removed (modules : Nat) (tally : Tally)

namespace Event

/-- The level of an event. -/
def level : Event → Level
  | .aligning _ | .lowering _ => .debug
  | .rescaled _ _ _ | .clipped _ _ | .wrapped _ _ => .trace
  | .remainderNeeded _ _ => .warn
  | .removed _ _ => .info

/-- The message of an event. -/
def message : Event → String
  | .aligning _ => "aligning binary points"
  | .rescaled _ source target =>
    "inserting " ++ (if source < target then Operator.incp else Operator.decp).name
  | .lowering _ => "lowering interval types"
  | .clipped _ _ => "clip"
  | .wrapped _ _ => "wrap"
  | .remainderNeeded _ _ => "wrap needs a remainder; input range spans more than one period"
  | .removed _ _ => "removed interval types"

/-- The fields that tell a range check. -/
def checkFields (check : RangeCheck) : List (String × String) :=
  [("lo", intText check.lo), ("hi", intText check.hi), ("in_lo", intText check.inLo),
    ("in_hi", intText check.inHi)]

/-- The fields of an event, by name. -/
def fields : Event → List (String × String)
  | .aligning name | .lowering name => [("module", name)]
  | .rescaled e source target =>
    [("expr", e.text), ("from", natText source.toNat), ("to", natText target.toNat)]
  | .clipped check action => checkFields check ++ [("action", action.name)]
  | .wrapped check action => checkFields check ++ [("action", action.name)]
  | .remainderNeeded value check =>
    [("value", value.text), ("lo", intText check.lo), ("hi", intText check.hi)]
  | .removed modules tally =>
    [("modules", natText modules), ("types", natText tally.types),
      ("rescales", natText tally.rescales), ("casts", natText tally.casts),
      ("clips", natText tally.saturates.total), ("wraps", natText tally.allWraps),
      ("remainder_wraps", natText tally.remainderWraps)]

end Event

end IntervalHdl
