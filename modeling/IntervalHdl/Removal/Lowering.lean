import IntervalHdl.Removal.Error
import IntervalHdl.Removal.Report

/-!
# Lowering to signed integers

Replaces interval types by signed integers wide enough for their encodings, moves of the binary
point by shifts, and saturations and wraps by the comparisons that the ranges call for. The input
has to be aligned. Expressions made here have the unknown type until types are inferred again.
-/

namespace IntervalHdl
set_option autoImplicit false

-- powers, of a typed exponent, are the core library's, whatever other instances are in scope
attribute [local instance (high)] instPowNat

namespace Interval

/-- The encodings of both bounds, which have to exist. -/
def resolved (t : Interval) : Except RemovalError (Int × Int) :=
  if t.hasOpenBound then .error (.openBound t)
  else match t.encodings? with
    | some ends => .ok ends
    | none => .error (.unknownPoint t)

/-- The signed integer type that carries the encodings. It is never narrower than one bit above the
fractional field. Only for a field of `BitCount.limit` bits is there no such bit: the sum stays at
the limit, where a 32-bit one would overflow. -/
def lowered (t : Interval) : Except RemovalError Ty := do
  let _ ← t.resolved
  match t.point with
  | .unknown => .error (.unknownPoint t)
  | .known p =>
    match t.width with
    | .unknown => .error (.openBound t)
    | .known w => .ok (.sint (.known (max w (p + .ofNat 1))))

end Interval

namespace Ty

mutual

/-- The type with every interval replaced, at any depth. -/
def lower : Ty → Reported RemovalError Ty
  | .interval t => do
    .count { types := 1 }
    .ofExcept t.lowered
  | .bundle fields => return .bundle (← lowerFields fields)
  | .vector elem size => return .vector (← elem.lower) size
  | .uint w => return .uint w
  | .sint w => return .sint w
  | .clock => return .clock
  | .unknown => return .unknown

/-- The fields with every interval replaced. -/
def lowerFields : List (Field Ty) → Reported RemovalError (List (Field Ty))
  | [] => return []
  | ⟨name, flip, ty⟩ :: fields => do
    let ty ← ty.lower
    let fields ← lowerFields fields
    return ⟨name, flip, ty⟩ :: fields

end

end Ty

/-- The encodings of the range of an operand. -/
def Operator.operandRange (op : Operator) : Ty → Except RemovalError (Int × Int)
  | .interval t => t.resolved
  | other => .error (.unexpectedOperand op other)

/-- The encodings of the range that a saturation ends up in: that of its result type. -/
def Ty.clipRange : Ty → Except RemovalError (Int × Int)
  | .interval t => t.resolved
  | other => .error (.notInterval .clipResult other)

/-- An operand that was lowered, with the type it had before. -/
structure Operand where
  value : Expr
  recorded : Ty

namespace Expr

/-- An operator node whose type is left to inference. -/
def untyped (op : Operator) (args : List Expr) (consts : List Int) : Expr :=
  .prim op args consts .unknown

/-- A selection whose type is left to inference. -/
def select (cond tval fval : Expr) : Expr := .mux cond tval fval .unknown

/-- The lesser of two values is the first. -/
def less (a b : Expr) : Expr := untyped .lt [a, b] []

/-- The greater of two values is the first. -/
def greater (a b : Expr) : Expr := untyped .gt [a, b] []

/-- The sum of two values. -/
def plus (a b : Expr) : Expr := untyped .add [a, b] []

/-- The difference of two values. -/
def minus (a b : Expr) : Expr := untyped .sub [a, b] []

/-- `lo + ((value - lo) mod m)` with a residue that is not negative, from the remainder of truncated
division. -/
def floorMod (value lo m : Expr) : Expr :=
  let residue := untyped .rem [minus value lo, m] []
  plus (select (less residue (minimalSInt 0)) (plus residue m) residue) lo

/-- A saturation of the value, by the comparisons of the action. -/
def saturated (check : RangeCheck) (value : Expr) : SaturateAction → Expr
  | .passThrough => value
  | .clampLow => select (less value (minimalSInt check.lo)) (minimalSInt check.lo) value
  | .clampHigh => select (greater value (minimalSInt check.hi)) (minimalSInt check.hi) value
  | .clampBoth =>
    select (greater value (minimalSInt check.hi)) (minimalSInt check.hi)
      (select (less value (minimalSInt check.lo)) (minimalSInt check.lo) value)

/-- A wrap of the value, by the corrections of the action. -/
def wrapped (check : RangeCheck) (value : Expr) : WrapAction → Expr
  | .passThrough => value
  | .correctLow => select (less value (minimalSInt check.lo)) (plus value modulus) value
  | .correctHigh => select (greater value (minimalSInt check.hi)) (minus value modulus) value
  | .correctBoth =>
    select (greater value (minimalSInt check.hi)) (minus value modulus)
      (select (less value (minimalSInt check.lo)) (plus value modulus) value)
  | .remainder => floorMod value (minimalSInt check.lo) modulus
where
  /-- The size of the target range. -/
  modulus : Expr := minimalSInt (check.range + 1)

end Expr

namespace Operand

/-- Raw bits read as a signed integer; an unsigned one is first given room for a sign. One of
`BitCount.limit` bits has no room left: the sum stays at the limit, where a 32-bit one would
overflow. -/
def lowerCast : List Operand → Reported RemovalError Expr
  | [a] => do
    .count { casts := 1 }
    match a.recorded with
    | .uint (.known w) =>
      let wide := Expr.untyped .pad [a.value] [(w + .ofNat 1).toNat]
      return .untyped .asSInt [wide] []
    | .uint .unknown => .fail (.unexpectedOperand .asInterval a.recorded)
    | _ => return .untyped .asSInt [a.value] []
  | operands => .fail (.arity .asInterval 1 operands.length)

/-- A move of the binary point as a shift. -/
def lowerShift (shift : Operator) (consts : List Int) : List Operand → Reported RemovalError Expr
  | [a] => do
    .count { shifts := 1 }
    return .untyped shift [a.value] consts
  | operands => .fail (.arity shift 1 operands.length)

/-- A saturation into the range of the result type. -/
def lowerClip (result : Ty) : List Operand → Reported RemovalError Expr
  | [a, _] => do
    let (lo, hi) ← .ofExcept result.clipRange
    let (inLo, inHi) ← .ofExcept (Operator.clip.operandRange a.recorded)
    let check : RangeCheck := ⟨lo, hi, inLo, inHi⟩
    let action := SaturateAction.decide check
    .tell (.clipped check action)
    .count { saturates := .one action.sides }
    return .saturated check a.value action
  | operands => .fail (.arity .clip 2 operands.length)

/-- Counts a wrap by what it takes. One that takes a remainder is told too, if `warn` is set. -/
def countWrap (warn : Bool) (value : Expr) (check : RangeCheck) (action : WrapAction) :
    Reported RemovalError Unit :=
  match action.sides? with
  | some sides => .count { wraps := .one sides }
  | none =>
    if warn then do
      .tell (.remainderNeeded value check)
      .count { remainderWraps := 1 }
    else .count { remainderWraps := 1 }

/-- A wrap of an interval value into the range from `lo` to `hi`. -/
def lowerWrapInto (warn : Bool) (a : Operand) (lo hi : Int) : Reported RemovalError Expr := do
  let (inLo, inHi) ← .ofExcept (Operator.wrap.operandRange a.recorded)
  let check : RangeCheck := ⟨lo, hi, inLo, inHi⟩
  let action := WrapAction.decide check
  .tell (.wrapped check action)
  countWrap warn a.value check action
  return .wrapped check a.value action

/-- The low bits of a value, read as a signed integer of width `w`. -/
def lowerWidthWrap (a : Operand) (bound : Ty) (w : Width) : Reported RemovalError Expr :=
  match w with
  | .known n =>
    if n.toNat = 0 then .fail (.unexpectedOperand .wrap bound)
    else do
      .count { widthWraps := 1 }
      let low := Expr.untyped .bits [a.value] [(n.toNat - 1 : Nat), 0]
      return .untyped .asSInt [low] []
  | .unknown => .fail (.unexpectedOperand .wrap bound)

/-- A wrap into the range of the second operand's type. -/
def lowerWrap (warn : Bool) : List Operand → Reported RemovalError Expr
  | [a, b] =>
    match b.recorded with
    | .sint w => lowerWidthWrap a b.recorded w
    | .uint (.known w) => lowerWrapInto warn a 0 (2 ^ w.toNat - 1)
    | .interval t => do
      let (lo, hi) ← .ofExcept t.resolved
      lowerWrapInto warn a lo hi
    | other => .fail (.unexpectedOperand .wrap other)
  | operands => .fail (.arity .wrap 2 operands.length)

end Operand

/-- An operator on lowered operands. -/
def Operator.lower (warn : Bool) (op : Operator) (operands : List Operand) (consts : List Int)
    (ty : Ty) : Reported RemovalError Expr :=
  match op with
  | .asInterval => Operand.lowerCast operands
  | .incp => Operand.lowerShift .shl consts operands
  | .decp => Operand.lowerShift .shr consts operands
  | .clip => Operand.lowerClip ty operands
  | .wrap => Operand.lowerWrap warn operands
  | .setp => .fail (.unexpectedOperator .setp)
  | op => return .prim op (operands.map Operand.value) consts (← ty.lower)

namespace Expr

mutual

/-- The expression without intervals. -/
def lower (warn : Bool) : Expr → Reported RemovalError Expr
  | .ref name ty => return .ref name (← ty.lower)
  | .field parent name ty => do
    let parent ← parent.lower warn
    return .field parent name (← ty.lower)
  | .index parent position ty => do
    let parent ← parent.lower warn
    return .index parent position (← ty.lower)
  | .uint value width => return .uint value width
  | .sint value width => return .sint value width
  | .prim op args consts ty => do
    let operands ← lowerOperands warn args
    op.lower warn operands consts ty
  | .mux cond tval fval ty => do
    let cond ← cond.lower warn
    let tval ← tval.lower warn
    let fval ← fval.lower warn
    return .mux cond tval fval (← ty.lower)

/-- Lowers operands in order and keeps the types they had. -/
def lowerOperands (warn : Bool) : List Expr → Reported RemovalError (List Operand)
  | [] => return []
  | e :: es => do
    let value ← e.lower warn
    let operands ← lowerOperands warn es
    return ⟨value, e.ty⟩ :: operands

end

end Expr

namespace Stmt

mutual

/-- The statement without intervals: its declared type first, then the statements inside, then its
expressions. -/
def lower (warn : Bool) : Stmt → Reported RemovalError Stmt
  | .wire name ty => return .wire name (← ty.lower)
  | .reg name ty clock reset => do
    let ty ← ty.lower
    (Stmt.reg name ty clock reset).mapExprsM (Expr.lower warn)
  | .node name value => return .node name (← value.lower warn)
  | .connect loc value => do
    let loc ← loc.lower warn
    let value ← value.lower warn
    return .connect loc value
  | .partialConnect loc value => do
    let loc ← loc.lower warn
    let value ← value.lower warn
    return .partialConnect loc value
  | .when cond conseq alt => do
    let conseq ← conseq.lower warn
    let alt ← alt.lower warn
    let cond ← cond.lower warn
    return .when cond conseq alt
  | .block stmts => return .block (← lowerAll warn stmts)
  | .invalid loc => return .invalid (← loc.lower warn)
  | .skip => return .skip

/-- Lowers statements in order. -/
def lowerAll (warn : Bool) : List Stmt → Reported RemovalError (List Stmt)
  | [] => return []
  | s :: stmts => do
    let s ← s.lower warn
    let stmts ← lowerAll warn stmts
    return s :: stmts

end

theorem lowerAll_eq_mapM (warn : Bool) (stmts : List Stmt) :
    lowerAll warn stmts = stmts.mapM (lower warn) := by
  induction stmts with
  | nil => simp [lowerAll]
  | cons s stmts ih => simp [lowerAll, ih]

end Stmt

/-- The port without intervals. -/
def Port.lower (p : Port) : Reported RemovalError Port := p.mapTyM Ty.lower

/-- The module without intervals: its body first, then its ports. With `warn` set, a wrap that takes
a remainder is reported. -/
def Module.lower (warn : Bool) (d : Module) : Reported RemovalError Module := do
  .tell (.lowering d.name)
  let d ← d.mapBodyM (Stmt.lower warn)
  d.mapPortsM Port.lower

/-- The circuit without intervals. -/
def Circuit.lower (warn : Bool) (c : Circuit) : Reported RemovalError Circuit :=
  c.mapModulesM (Module.lower warn)

end IntervalHdl
