import IntervalHdl.Typing

/-!
# Causes of failure in interval removal

Each way in which removing intervals can fail, with what it was about, and its message.
-/

namespace IntervalHdl
set_option autoImplicit false

/-- Where a value has to be interval-typed. -/
inductive IntervalSite where
  /-- The operand of a rescale. -/
  | rescale (e : Expr)
  /-- A value that meets others at a common point. -/
  | meeting (e : Expr)
  /-- The result of a saturation. -/
  | clipResult

/-- The words for a site. -/
def IntervalSite.text : IntervalSite → String
  | .rescale e => "binary point rescale of " ++ e.text
  | .meeting e => "alignment of " ++ e.text
  | .clipResult => "clip result"

/-- An interval left where there should be none. -/
inductive Survivor where
  | port (name : String) (ty : Ty)
  | declaration (name : String) (ty : Ty)
  | operator (op : Operator) (e : Expr)
  | expression (e : Expr)

/-- The words for a survivor. -/
def Survivor.text : Survivor → String
  | .port name ty => "port " ++ name ++ " : " ++ ty.text
  | .declaration name ty => "declaration " ++ name ++ " : " ++ ty.text
  | .operator op e => "operator " ++ op.name ++ " in " ++ e.text
  | .expression e => "expression " ++ e.text ++ " : " ++ e.ty.text

/-- Why intervals could not be removed. -/
inductive RemovalError where
  /-- A bound of the interval is open, or its width is not known. -/
  | openBound (type : Interval)
  /-- The binary point of the interval is not known. -/
  | unknownPoint (type : Interval)
  /-- A value has to be interval-typed and is not. -/
  | notInterval (site : IntervalSite) (found : Ty)
  /-- The operator does not take an operand of that type. -/
  | unexpectedOperand (op : Operator) (found : Ty)
  /-- The constants do not begin with a binary point. -/
  | unexpectedPoint (consts : List Int)
  /-- The operator should be gone by now. -/
  | unexpectedOperator (op : Operator)
  /-- The operator takes another number of operands. -/
  | arity (op : Operator) (expected found : Nat)
  /-- An interval is left in the result. -/
  | survived (moduleName : String) (survivor : Survivor)
  /-- The result has no types. -/
  | inference (cause : TypingError)

namespace RemovalError

/-- A failure inside the stages; only that of inference is the fault of the circuit alone. -/
def isInternal : RemovalError → Bool
  | .inference _ => false
  | _ => true

/-- The message for a cause. -/
def message : RemovalError → String
  | .openBound type =>
    "Interval type " ++ type.text ++ " has an open bound; bounds must be resolved before lowering"
  | .unknownPoint type => "Interval type " ++ type.text ++ " has no known binary point"
  | .notInterval site found =>
    "Expected an interval-typed value in " ++ site.text ++ ", got " ++ found.text
  | .unexpectedOperand op found =>
    "Unexpected operand of type " ++ found.text ++ " for " ++ op.name
  | .unexpectedPoint consts =>
    "Unexpected operand of type binary point constant [" ++
      ", ".intercalate (consts.map intText) ++ "] for " ++ Operator.setp.name
  | .unexpectedOperator op => "Operator " ++ op.name ++ " cannot appear at this stage"
  | .arity op expected found =>
    op.name ++ " expects " ++ natText expected ++ " operand(s), got " ++ natText found
  | .survived moduleName survivor =>
    "Interval construct survived lowering in module " ++ moduleName ++ ": " ++ survivor.text
  | .inference cause => "Type inference failed: " ++ cause.message

end RemovalError

end IntervalHdl
