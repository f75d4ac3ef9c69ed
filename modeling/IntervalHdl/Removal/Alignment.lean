import IntervalHdl.Removal.Error
import IntervalHdl.Removal.Report

/-!
# Alignment of binary points

Inserts rescales so that interval operands meet at a common binary point: an operator that needs
one gets all its operands at the greatest of their points, a selection its branches likewise, and
a connection its value at the point of the location. `setp` gives way to a rescale. Expressions
are aligned bottom-up.
-/

namespace IntervalHdl
set_option autoImplicit false

/-- The point of an interval that has to have one. -/
def Interval.knownPoint (t : Interval) : Except RemovalError BitCount :=
  match t.point with
  | .known p => .ok p
  | .unknown => .error (.unknownPoint t)

/-- The operator and amount that move a point from `source` to `target`. -/
def rescaleStep (source target : BitCount) : Operator × BitCount :=
  if source < target then (.incp, target - source) else (.decp, source - target)

/-- The result type at a common point of the operands: saturations and wraps give a value at the
point of their aligned operands. -/
def Operator.repoint (op : Operator) (p : BitCount) (ty : Ty) : Ty :=
  match op, ty with
  | .wrap, .interval t | .clip, .interval t => .interval (t.atPoint p)
  | _, ty => ty

/-- The operand and the point of a `setp`. -/
def setPointOperands (args : List Expr) (consts : List Int) :
    Except RemovalError (Expr × BitCount) :=
  match args with
  | [arg] =>
    match consts.head?.bind BitCount.ofInt? with
    | some p => .ok (arg, p)
    | none => .error (.unexpectedPoint consts)
  | _ => .error (.arity .setp 1 args.length)

namespace Expr

/-- The recorded point of a value that meets others. -/
def recordedPoint (e : Expr) : Except RemovalError BitCount :=
  match e.ty with
  | .interval t => t.knownPoint
  | other => .error (.notInterval (.meeting e) other)

/-- The value at another point, its bounds kept. -/
def rescale (target : BitCount) (e : Expr) : Reported RemovalError Expr :=
  match e.ty with
  | .interval t => do
    let source ← .ofExcept t.knownPoint
    if source = target then
      return e
    else
      let (op, amount) := rescaleStep source target
      .tell (.rescaled e source target)
      .count { rescales := 1 }
      return .prim op [e] [amount.toNat] (.interval (t.atPoint target))
  | other => .fail (.notInterval (.rescale e) other)

/-- The operands meet at one point. -/
def meets (op : Operator) (args : List Expr) : Bool :=
  op.needsCommonPoint && !args.isEmpty && args.all (·.ty.isInterval)

/-- Aligns an operator whose operands are aligned. -/
def alignPrim (op : Operator) (args : List Expr) (consts : List Int) (ty : Ty) :
    Reported RemovalError Expr :=
  if op = .setp then do
    let (arg, p) ← .ofExcept (setPointOperands args consts)
    arg.rescale p
  else if meets op args then do
    let points ← .ofExcept (args.mapM recordedPoint)
    let common := points.foldl max (.ofNat 0)
    let args ← args.mapM (rescale common)
    return .prim op args consts (op.repoint common ty)
  else
    return .prim op args consts ty

/-- Aligns an interval-typed selection whose branches are aligned. -/
def alignMux (cond tval fval : Expr) (t : Interval) : Reported RemovalError Expr := do
  let p ← .ofExcept tval.recordedPoint
  let q ← .ofExcept fval.recordedPoint
  let tval ← tval.rescale (max p q)
  let fval ← fval.rescale (max p q)
  return .mux cond tval fval (.interval (t.atPoint (max p q)))

/-- Aligns a node whose subexpressions are aligned. -/
def alignNode : Expr → Reported RemovalError Expr
  | .prim op args consts ty => alignPrim op args consts ty
  | .mux cond tval fval (.interval t) => alignMux cond tval fval t
  | other => return other

/-- The expression with all points aligned. -/
def align (e : Expr) : Reported RemovalError Expr := e.replaceUpM alignNode

/-- The value at the point of a location, if the location is interval-typed. -/
def fitTo (loc value : Expr) : Reported RemovalError Expr :=
  match loc.ty with
  | .interval t => do
    let p ← .ofExcept t.knownPoint
    value.rescale p
  | _ => return value

end Expr

namespace Stmt

mutual

/-- The statement with all points aligned, and values at the points of the locations that they are
connected to. -/
def align : Stmt → Reported RemovalError Stmt
  | .wire name ty => return .wire name ty
  | .reg name ty clock reset => (Stmt.reg name ty clock reset).mapExprsM Expr.align
  | .node name value => return .node name (← value.align)
  | .connect loc value => do
    let loc ← loc.align
    let value ← value.align
    return .connect loc (← loc.fitTo value)
  | .partialConnect loc value => do
    let loc ← loc.align
    let value ← value.align
    return .partialConnect loc (← loc.fitTo value)
  | .when cond conseq alt => do
    let cond ← cond.align
    let conseq ← conseq.align
    let alt ← alt.align
    return .when cond conseq alt
  | .block stmts => return .block (← alignAll stmts)
  | .invalid loc => return .invalid (← loc.align)
  | .skip => return .skip

/-- Aligns statements in order. -/
def alignAll : List Stmt → Reported RemovalError (List Stmt)
  | [] => return []
  | s :: stmts => do
    let s ← s.align
    let stmts ← alignAll stmts
    return s :: stmts

end

theorem alignAll_eq_mapM (stmts : List Stmt) : alignAll stmts = stmts.mapM align := by
  induction stmts with
  | nil => simp [alignAll]
  | cons s stmts ih => simp [alignAll, ih]

end Stmt

/-- The module with its body aligned. -/
def Module.align (d : Module) : Reported RemovalError Module := do
  .tell (.aligning d.name)
  d.mapBodyM Stmt.align

/-- The circuit with every module aligned. -/
def Circuit.align (c : Circuit) : Reported RemovalError Circuit := c.mapModulesM Module.align

end IntervalHdl
