/-!
# Primitive operators

The operators of the expression language. Six of them exist only for intervals; the others are the
integer operators that type inference knows.
-/

namespace IntervalHdl
set_option autoImplicit false

/-- The primitive operators. -/
inductive Operator where
  | add | sub | mul | div | rem
  | lt | leq | gt | geq | eq | neq
  | pad | asUInt | asSInt | shl | shr | dshl | dshr
  | cvt | neg | not | and | or | xor | andr | orr | xorr
  | cat | bits | head | tail
  /-- Reads raw bits as an interval value. -/
  | asInterval
  /-- Raises the binary point by a constant. -/
  | incp
  /-- Lowers the binary point by a constant. -/
  | decp
  /-- Sets the binary point to a constant. -/
  | setp
  /-- Reduces the first operand into the range of the second, modulo its size. -/
  | wrap
  /-- Saturates the first operand into the range of the second. -/
  | clip
deriving DecidableEq

namespace Operator

/-- All operators. -/
def all : List Operator :=
  [.add, .sub, .mul, .div, .rem, .lt, .leq, .gt, .geq, .eq, .neq, .pad, .asUInt, .asSInt, .shl,
    .shr, .dshl, .dshr, .cvt, .neg, .not, .and, .or, .xor, .andr, .orr, .xorr, .cat, .bits, .head,
    .tail, .asInterval, .incp, .decp, .setp, .wrap, .clip]

/-- The name in circuit text. -/
def name : Operator → String
  | .add => "add"
  | .sub => "sub"
  | .mul => "mul"
  | .div => "div"
  | .rem => "rem"
  | .lt => "lt"
  | .leq => "leq"
  | .gt => "gt"
  | .geq => "geq"
  | .eq => "eq"
  | .neq => "neq"
  | .pad => "pad"
  | .asUInt => "asUInt"
  | .asSInt => "asSInt"
  | .shl => "shl"
  | .shr => "shr"
  | .dshl => "dshl"
  | .dshr => "dshr"
  | .cvt => "cvt"
  | .neg => "neg"
  | .not => "not"
  | .and => "and"
  | .or => "or"
  | .xor => "xor"
  | .andr => "andr"
  | .orr => "orr"
  | .xorr => "xorr"
  | .cat => "cat"
  | .bits => "bits"
  | .head => "head"
  | .tail => "tail"
  | .asInterval => "asInterval"
  | .incp => "incp"
  | .decp => "decp"
  | .setp => "setp"
  | .wrap => "wrap"
  | .clip => "clip"

/-- The operator of that name. -/
def ofName? (name : String) : Option Operator := all.find? (·.name == name)

/-- The operators that exist only for intervals. -/
def isIntervalOnly : Operator → Bool
  | .asInterval | .incp | .decp | .setp | .wrap | .clip => true
  | _ => false

/-- The operators whose interval operands must share one binary point. A product has the sum of
its operands' points instead. -/
def needsCommonPoint : Operator → Bool
  | .add | .sub | .lt | .leq | .gt | .geq | .eq | .neq | .wrap | .clip => true
  | _ => false

/-- The list of operators is complete. -/
theorem mem_all (op : Operator) : op ∈ all := by
  cases op <;> decide

/-- An operator is found by its name. -/
theorem ofName?_name (op : Operator) : ofName? op.name = some op := by
  cases op <;> rfl

end Operator

end IntervalHdl
