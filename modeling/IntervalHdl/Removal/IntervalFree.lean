import IntervalHdl.Removal.Error

/-!
# Freedom from intervals

The search for the first interval type or interval operator in a circuit: modules in order, ports
before the body, a declared type before the expressions of its statement, these before the
statements inside, and an expression before its subexpressions.
-/

namespace IntervalHdl
set_option autoImplicit false

/-- A survivor, if the type contains an interval. -/
def Ty.survivor? (ty : Ty) (survivor : Survivor) : Option Survivor :=
  if ty.containsInterval then some survivor else none

/-- A survivor, if the operator exists only for intervals. -/
def Operator.survivor? (op : Operator) (survivor : Survivor) : Option Survivor :=
  if op.isIntervalOnly then some survivor else none

namespace Expr

mutual

/-- The first interval in an expression. -/
def survivor? : Expr → Option Survivor
  | .ref name ty => ty.survivor? (.expression (.ref name ty))
  | .field parent name ty =>
    (ty.survivor? (.expression (.field parent name ty))).or parent.survivor?
  | .index parent position ty =>
    (ty.survivor? (.expression (.index parent position ty))).or parent.survivor?
  | .uint _ _ => none
  | .sint _ _ => none
  | .prim op args consts ty =>
    (op.survivor? (.operator op (.prim op args consts ty))).or
      ((ty.survivor? (.expression (.prim op args consts ty))).or (firstSurvivor? args))
  | .mux cond tval fval ty =>
    (ty.survivor? (.expression (.mux cond tval fval ty))).or
      (cond.survivor?.or (tval.survivor?.or fval.survivor?))

/-- The first interval in a list of expressions. -/
def firstSurvivor? : List Expr → Option Survivor
  | [] => none
  | e :: es => e.survivor?.or (firstSurvivor? es)

end

end Expr

namespace Stmt

/-- A survivor, if the statement declares a type with an interval. -/
def declarationSurvivor? (s : Stmt) : Option Survivor :=
  match s.declaredName?, s.declaredTy? with
  | some name, some ty => ty.survivor? (.declaration name ty)
  | _, _ => none

/-- The first interval in the declared type and the expressions of the statement itself. -/
def ownSurvivor? (s : Stmt) : Option Survivor :=
  s.declarationSurvivor?.or (Expr.firstSurvivor? s.exprs)

mutual

/-- The first interval in a statement. -/
def survivor? : Stmt → Option Survivor
  | .when cond conseq alt =>
    (ownSurvivor? (.when cond conseq alt)).or (conseq.survivor?.or alt.survivor?)
  | .block stmts => firstSurvivor? stmts
  | .wire name ty => ownSurvivor? (.wire name ty)
  | .reg name ty clock reset => ownSurvivor? (.reg name ty clock reset)
  | .node name value => ownSurvivor? (.node name value)
  | .connect loc value => ownSurvivor? (.connect loc value)
  | .partialConnect loc value => ownSurvivor? (.partialConnect loc value)
  | .invalid loc => ownSurvivor? (.invalid loc)
  | .skip => none

/-- The first interval in a list of statements. -/
def firstSurvivor? : List Stmt → Option Survivor
  | [] => none
  | s :: stmts => s.survivor?.or (firstSurvivor? stmts)

end

end Stmt

/-- A survivor, if the type of the port contains an interval. -/
def Port.survivor? (p : Port) : Option Survivor := p.ty.survivor? (.port p.name p.ty)

/-- The first interval in a module. -/
def Module.survivor? (d : Module) : Option Survivor :=
  (d.ports.findSome? Port.survivor?).or (d.body?.bind Stmt.survivor?)

/-- Fails on the first interval in a module. -/
def Module.checkIntervalFree (d : Module) : Except RemovalError Unit :=
  match d.survivor? with
  | some survivor => .error (.survived d.name survivor)
  | none => .ok ()

/-- Fails on the first interval in a circuit. -/
def Circuit.checkIntervalFree (c : Circuit) : Except RemovalError Unit :=
  c.modules.forM Module.checkIntervalFree

end IntervalHdl
