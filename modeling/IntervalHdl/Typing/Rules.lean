import IntervalHdl.Typing.Error

/-!
# Result types

The type of an operator's result from the types of its operands and its constants, and the type of
a selection from those of its branches. Every width rule is one that holds each exact result; an
unknown operand width leaves the result width unknown where it depends on it.
-/

namespace IntervalHdl
set_option autoImplicit false

-- powers, of a typed exponent, are the core library's, whatever other instances are in scope
attribute [local instance (high)] instPowNat

/-- Whether an integer type has a sign. -/
inductive Signedness where
  | unsigned
  | signed
deriving DecidableEq

/-- The integer type of a width. -/
def Signedness.ty : Signedness → Width → Ty
  | .unsigned, w => .uint w
  | .signed, w => .sint w

namespace Operator

/-- The sign and width of an operand that has to be an integer. -/
def integer (op : Operator) : Ty → Except TypingError (Signedness × Width)
  | .uint w => .ok (.unsigned, w)
  | .sint w => .ok (.signed, w)
  | other => .error (.notInteger op other)

/-- The sign of two integer operands that have to share it, and their widths. -/
def sameSign (op : Operator) (a b : Ty) : Except TypingError (Signedness × Width × Width) := do
  let (s, wa) ← op.integer a
  let (r, wb) ← op.integer b
  if s = r then .ok (s, wa, wb) else .error (.mixedSigns op a b)

/-- A constant that has to be a bit count. -/
def bitCount (op : Operator) (value : Int) : Except TypingError BitCount :=
  match BitCount.ofInt? value with
  | some n => .ok n
  | none => .error (.constantRange op value)

/-- The width of a value whose bits are read anew. -/
def rawWidth (op : Operator) : Ty → Except TypingError Width
  | .uint w | .sint w => .ok w
  | .clock => .ok (.known (.ofNat 1))
  | other => .error (.notReinterpretable op other)

/-- The width of a computed shift amount. -/
def shiftWidth (op : Operator) : Ty → Except TypingError Width
  | .uint w => .ok w
  | other => .error (.shiftAmount op other)

/-- The largest amount that `n` bits can shift by, cut off before it leaves the bit counts. -/
def largestShift (n : BitCount) : BitCount :=
  .ofNat ((if n.toNat < 32 then 2 ^ n.toNat else BitCount.limit) - 1)

/-- The width of a value shifted left by a computed amount of width `amount`. -/
def shiftedWidth (value amount : Width) : Width :=
  match amount with
  | .known n => value.plus (largestShift n)
  | .unknown => .unknown

section Shapes

variable (op : Operator) (args : List Expr) (consts : List Int)

/-- The rule of an operator with one operand. -/
def unary (rule : Ty → Except TypingError Ty) : Except TypingError Ty :=
  match args, consts with
  | [a], [] => rule a.ty
  | _, _ => .error (.arity op 1 0 args.length consts.length)

/-- The rule of an operator with two operands. -/
def binary (rule : Ty → Ty → Except TypingError Ty) : Except TypingError Ty :=
  match args, consts with
  | [a, b], [] => rule a.ty b.ty
  | _, _ => .error (.arity op 2 0 args.length consts.length)

/-- The rule of an operator with one operand and one constant. -/
def unaryBy (rule : Ty → BitCount → Except TypingError Ty) : Except TypingError Ty :=
  match args, consts with
  | [a], [c] => do rule a.ty (← op.bitCount c)
  | _, _ => .error (.arity op 1 1 args.length consts.length)

end Shapes

/-- Bit `position` is known to lie outside a value of that width. -/
def liesOutside (width : Width) (position : BitCount) : Bool :=
  match width with
  | .known w => w ≤ position
  | .unknown => false

/-- The rule of bit selection: the bits from `lo` up to `hi`, all within the operand if its width is
known. The bits from 0 to `BitCount.limit` are one more than a bit count: the sum stays at the limit,
where a 32-bit one would overflow. -/
def bitsTy (args : List Expr) (consts : List Int) : Except TypingError Ty :=
  match args, consts with
  | [a], [hi, lo] => do
    let hi ← bits.bitCount hi
    let lo ← bits.bitCount lo
    let (_, w) ← bits.integer a.ty
    if hi < lo ∨ liesOutside w hi then .error (.bitsOutside a hi lo)
    else .ok (.uint (.known (hi - lo + .ofNat 1)))
  | _, _ => .error (.arity bits 1 2 args.length consts.length)

/-- The type of an operator's result. -/
def resultTy (op : Operator) (args : List Expr) (consts : List Int) : Except TypingError Ty :=
  match op with
  | .add | .sub => op.binary args consts fun a b => do
    let (s, wa, wb) ← op.sameSign a b
    return s.ty ((wa.max wb).plus (.ofNat 1))
  | .mul => op.binary args consts fun a b => do
    let (s, wa, wb) ← op.sameSign a b
    return s.ty (wa.sum wb)
  | .div => op.binary args consts fun a b => do
    let (s, wa, _) ← op.sameSign a b
    return match s with
      | .unsigned => .uint wa
      | .signed => .sint (wa.plus (.ofNat 1))
  | .rem => op.binary args consts fun a b => do
    let (s, wa, wb) ← op.sameSign a b
    return s.ty (wa.min wb)
  | .lt | .leq | .gt | .geq | .eq | .neq => op.binary args consts fun a b => do
    let _ ← op.sameSign a b
    return .uint (.known (.ofNat 1))
  | .pad => op.unaryBy args consts fun a n => do
    let (s, w) ← op.integer a
    return s.ty (w.max (.known n))
  | .asUInt => op.unary args consts fun a => do return .uint (← op.rawWidth a)
  | .asSInt => op.unary args consts fun a => do return .sint (← op.rawWidth a)
  | .shl => op.unaryBy args consts fun a n => do
    let (s, w) ← op.integer a
    return s.ty (w.plus n)
  | .shr => op.unaryBy args consts fun a n => do
    let (s, w) ← op.integer a
    return s.ty (w.minus n)
  | .dshl => op.binary args consts fun a b => do
    let (s, wa) ← op.integer a
    let wb ← op.shiftWidth b
    return s.ty (shiftedWidth wa wb)
  | .dshr => op.binary args consts fun a b => do
    let (s, wa) ← op.integer a
    let _ ← op.shiftWidth b
    return s.ty wa
  | .cvt => op.unary args consts fun a => do
    let (s, w) ← op.integer a
    return match s with
      | .unsigned => .sint (w.plus (.ofNat 1))
      | .signed => .sint w
  | .neg => op.unary args consts fun a => do
    let (_, w) ← op.integer a
    return .sint (w.plus (.ofNat 1))
  | .not => op.unary args consts fun a => do
    let (_, w) ← op.integer a
    return .uint w
  | .and | .or | .xor => op.binary args consts fun a b => do
    let (_, wa, wb) ← op.sameSign a b
    return .uint (wa.max wb)
  | .andr | .orr | .xorr => op.unary args consts fun a => do
    let _ ← op.integer a
    return .uint (.known (.ofNat 1))
  | .cat => op.binary args consts fun a b => do
    let (_, wa, wb) ← op.sameSign a b
    return .uint (wa.sum wb)
  | .bits => bitsTy args consts
  | .head => op.unaryBy args consts fun a n => do
    let _ ← op.integer a
    return .uint (.known n)
  | .tail => op.unaryBy args consts fun a n => do
    let (_, w) ← op.integer a
    return .uint (w.map (· - n))
  | .asInterval | .incp | .decp | .setp | .wrap | .clip => .error (.intervalOperator op)

end Operator

/-- The type of a selection between two branches. -/
def muxTy : Ty → Ty → Except TypingError Ty
  | .uint a, .uint b => .ok (.uint (a.max b))
  | .sint a, .sint b => .ok (.sint (a.max b))
  | a, b => if a.equal b then .ok a else .error (.muxBranches a b)

end IntervalHdl
