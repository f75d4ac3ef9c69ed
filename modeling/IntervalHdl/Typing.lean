import IntervalHdl.Typing.Rules

/-!
# Type inference

Recomputes the recorded type of every expression from declarations and operand types, bottom-up.
Declarations and ports keep their types. A scope lists the declared names with the most recent one
in front; ports come first, wires and registers are declared where they stand, and a node after
its value. What a block or a branch declares stays declared behind it.
-/

namespace IntervalHdl
set_option autoImplicit false

/-- Declared names with their types, the most recent declaration in front. -/
abbrev Scope := List (String × Ty)

namespace Scope

/-- Adds a declaration. -/
def declare (s : Scope) (name : String) (ty : Ty) : Scope := (name, ty) :: s

/-- The type of the most recent declaration of a name. -/
def resolve (s : Scope) (name : String) : Except TypingError Ty :=
  match s.lookup name with
  | some ty => .ok ty
  | none => .error (.undeclared name)

/-- The scope of a module body: its ports, declared in order. -/
def ofPorts (ports : List Port) : Scope :=
  ports.foldl (fun s p => s.declare p.name p.ty) []

end Scope

namespace Expr

/-- The node with the type that its typed subexpressions give it. -/
def inferNode (s : Scope) : Expr → Except TypingError Expr
  | .ref name _ => do return .ref name (← s.resolve name)
  | .field parent name _ =>
    match parent.ty.field? name with
    | some found => .ok (.field parent name found.ty)
    | none => .error (.noField parent name)
  | .index parent position _ =>
    match parent.ty with
    | .vector elem size =>
      if position < size then .ok (.index parent position elem)
      else .error (.notIndexable parent position)
    | _ => .error (.notIndexable parent position)
  | .uint value width => .ok (.uint value width)
  | .sint value width => .ok (.sint value width)
  | .prim op args consts _ => do return .prim op args consts (← op.resultTy args consts)
  | .mux cond tval fval _ =>
    match cond.ty with
    | .uint _ => do return .mux cond tval fval (← muxTy tval.ty fval.ty)
    | _ => .error (.muxCondition cond)

/-- The expression with every type inferred in a scope. -/
def infer (s : Scope) (e : Expr) : Except TypingError Expr := e.replaceUpM (inferNode s)

end Expr

namespace Stmt

mutual

/-- The statement with every expression typed, and the scope behind it. -/
def infer (s : Scope) : Stmt → Except TypingError (Stmt × Scope)
  | .wire name ty => .ok (.wire name ty, s.declare name ty)
  | .reg name ty clock none => do
    let s := s.declare name ty
    let clock ← clock.infer s
    return (.reg name ty clock none, s)
  | .reg name ty clock (some reset) => do
    let s := s.declare name ty
    let clock ← clock.infer s
    let signal ← reset.signal.infer s
    let init ← reset.init.infer s
    return (.reg name ty clock (some ⟨signal, init⟩), s)
  | .node name value => do
    let value ← value.infer s
    return (.node name value, s.declare name value.ty)
  | .connect loc value => do
    let loc ← loc.infer s
    let value ← value.infer s
    return (.connect loc value, s)
  | .partialConnect loc value => do
    let loc ← loc.infer s
    let value ← value.infer s
    return (.partialConnect loc value, s)
  | .when cond conseq alt => do
    let cond ← cond.infer s
    let (conseq, s) ← conseq.infer s
    let (alt, s) ← alt.infer s
    return (.when cond conseq alt, s)
  | .block stmts => do
    let (stmts, s) ← inferAll s stmts
    return (.block stmts, s)
  | .invalid loc => do return (.invalid (← loc.infer s), s)
  | .skip => .ok (.skip, s)

/-- Statements in order, each in the scope that the one before leaves. -/
def inferAll (s : Scope) : List Stmt → Except TypingError (List Stmt × Scope)
  | [] => .ok ([], s)
  | stmt :: stmts => do
    let (stmt, s) ← stmt.infer s
    let (stmts, s) ← inferAll s stmts
    return (stmt :: stmts, s)

end

end Stmt

/-- The module with its body typed in the scope of its ports. -/
def Module.infer (d : Module) : Except TypingError Module :=
  d.mapBodyM fun body => do
    let (body, _) ← body.infer (Scope.ofPorts d.ports)
    return body

/-- The circuit with every module typed. -/
def Circuit.infer (c : Circuit) : Except TypingError Circuit := c.mapModulesM Module.infer

end IntervalHdl
