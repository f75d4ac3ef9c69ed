import IntervalHdl.Text

/-!
# Causes of typing failures

Each way in which type inference can fail, with what it was about. `message` words a cause and
`kind` sorts it.
-/

namespace IntervalHdl
set_option autoImplicit false

/-- The broad sort of a typing failure. -/
inductive TypingError.Kind where
  | typeMismatch
  | undeclaredReference
  | unsupportedOperation
  | invalidOperands
deriving DecidableEq

/-- Why an expression has no type. -/
inductive TypingError where
  /-- The name is not declared before its use. -/
  | undeclared (name : String)
  /-- The parent has no field of that name. -/
  | noField (parent : Expr) (name : String)
  /-- The parent is no vector, or too short a one. -/
  | notIndexable (parent : Expr) (position : UInt64)
  /-- The condition of a selection is no unsigned integer. -/
  | muxCondition (cond : Expr)
  /-- The branches of a selection have no common type. -/
  | muxBranches (tval fval : Ty)
  /-- The operator takes integers. -/
  | notInteger (op : Operator) (found : Ty)
  /-- One operand is signed and the other is not. -/
  | mixedSigns (op : Operator) (lhs rhs : Ty)
  /-- The operator reads the bits of integers and clocks. -/
  | notReinterpretable (op : Operator) (found : Ty)
  /-- A computed shift amount is no unsigned integer. -/
  | shiftAmount (op : Operator) (found : Ty)
  /-- The counts of operands and constants are not those of the operator. -/
  | arity (op : Operator) (args consts foundArgs foundConsts : Nat)
  /-- A constant is no bit count. -/
  | constantRange (op : Operator) (value : Int)
  /-- The selected bits are not all there. -/
  | bitsOutside (arg : Expr) (hi lo : BitCount)
  /-- Interval operators have no rule. -/
  | intervalOperator (op : Operator)
  /-- A cause outside these rules, for inferences other than the one of this library. -/
  | other (kind : TypingError.Kind) (detail : String)

namespace TypingError

/-- The sort of a cause. -/
def kind : TypingError → Kind
  | .undeclared _ => .undeclaredReference
  | .intervalOperator _ => .unsupportedOperation
  | .arity _ _ _ _ _ | .constantRange _ _ | .bitsOutside _ _ _ => .invalidOperands
  | .other kind _ => kind
  | _ => .typeMismatch

/-- How messages of a sort begin. -/
def Kind.heading : Kind → String
  | .typeMismatch => "Type error: "
  | .undeclaredReference => "Undeclared reference: "
  | .unsupportedOperation => "Unsupported operation: "
  | .invalidOperands => "Invalid operands: "

/-- What a cause says, without the heading. -/
def detail : TypingError → String
  | .undeclared name => name
  | .noField parent name =>
    parent.text ++ " has no field '" ++ name ++ "' in " ++ parent.ty.text
  | .notIndexable parent position =>
    "cannot index " ++ parent.text ++ "[" ++ natText position.toNat ++ "] of type " ++
      parent.ty.text
  | .muxCondition cond => "mux condition " ++ cond.text ++ " must be UInt, found " ++ cond.ty.text
  | .muxBranches tval fval =>
    "mux branches have incompatible types " ++ tval.text ++ " and " ++ fval.text
  | .notInteger op found => op.name ++ " expects integer operands, found " ++ found.text
  | .mixedSigns op lhs rhs =>
    op.name ++ " operands must share signedness, found " ++ lhs.text ++ " and " ++ rhs.text
  | .notReinterpretable op found => op.name ++ " cannot reinterpret " ++ found.text
  | .shiftAmount op found => op.name ++ " shift amount must be UInt, found " ++ found.text
  | .arity op args consts foundArgs foundConsts =>
    op.name ++ " takes " ++ natText args ++ " operand(s) and " ++ natText consts ++
      " constant(s), found " ++ natText foundArgs ++ " and " ++ natText foundConsts
  | .constantRange op value => op.name ++ " constant " ++ intText value ++ " is out of range"
  | .bitsOutside arg hi lo =>
    "bits(" ++ arg.text ++ ", " ++ natText hi.toNat ++ ", " ++ natText lo.toNat ++
      ") selects outside " ++ arg.ty.text
  | .intervalOperator op => op.name ++ " must be lowered before type inference"
  | .other _ detail => detail

/-- The message for a cause. -/
def message (e : TypingError) : String := e.kind.heading ++ e.detail

end TypingError

end IntervalHdl
