import IntervalHdl.Expr

/-!
# Statements

Declarations of wires, registers and nodes; connections; conditionals and blocks. `Stmt.ind` is
the induction principle that reaches the statements of a block.
-/

namespace IntervalHdl
set_option autoImplicit false

/-- When a register is reset, and to what. -/
structure Reset where
  signal : Expr
  init : Expr

/-- Statements of a module body. -/
inductive Stmt where
  | wire (name : String) (ty : Ty)
  | reg (name : String) (ty : Ty) (clock : Expr) (reset : Option Reset)
  | node (name : String) (value : Expr)
  | connect (loc value : Expr)
  | partialConnect (loc value : Expr)
  | when (cond : Expr) (conseq alt : Stmt)
  | block (stmts : List Stmt)
  | invalid (loc : Expr)
  | skip
deriving Inhabited

namespace Stmt

/-- Induction over statements, with a hypothesis for every statement of a block. -/
@[elab_as_elim, induction_eliminator]
theorem ind {motive : Stmt → Prop}
    (wire : ∀ name ty, motive (.wire name ty))
    (reg : ∀ name ty clock reset, motive (.reg name ty clock reset))
    (node : ∀ name value, motive (.node name value))
    (connect : ∀ loc value, motive (.connect loc value))
    (partialConnect : ∀ loc value, motive (.partialConnect loc value))
    (when : ∀ cond conseq alt, motive conseq → motive alt → motive (.when cond conseq alt))
    (block : ∀ stmts, (∀ s ∈ stmts, motive s) → motive (.block stmts))
    (invalid : ∀ loc, motive (.invalid loc))
    (skip : motive .skip) (s : Stmt) : motive s :=
  @Stmt.rec motive (fun stmts => ∀ s ∈ stmts, motive s)
    wire reg node connect partialConnect when block invalid skip
    (fun _ absent => nomatch absent)
    (fun _ _ head tail _ found => by
      rcases List.mem_cons.mp found with rfl | found
      · exact head
      · exact tail _ found) s

/-- The name that a declaration introduces. -/
def declaredName? : Stmt → Option String
  | .wire name _ | .reg name _ _ _ | .node name _ => some name
  | _ => none

/-- The declared type of a wire or register. -/
def declaredTy? : Stmt → Option Ty
  | .wire _ ty | .reg _ ty _ _ => some ty
  | _ => none

/-- The expressions of the statement itself, in order. -/
def exprs : Stmt → List Expr
  | .reg _ _ clock none => [clock]
  | .reg _ _ clock (some reset) => [clock, reset.signal, reset.init]
  | .node _ value => [value]
  | .connect loc value | .partialConnect loc value => [loc, value]
  | .when cond _ _ => [cond]
  | .invalid loc => [loc]
  | .wire _ _ | .block _ | .skip => []

/-- The statements directly inside. -/
def stmts : Stmt → List Stmt
  | .when _ conseq alt => [conseq, alt]
  | .block stmts => stmts
  | _ => []

section Replacing

variable {m : Type → Type} [Monad m]

/-- Replaces the declared type of a wire or register. -/
def mapTyM (f : Ty → m Ty) : Stmt → m Stmt
  | .wire name ty => do return .wire name (← f ty)
  | .reg name ty clock reset => do return .reg name (← f ty) clock reset
  | other => pure other

/-- Replaces the expressions of the statement itself, in order. -/
def mapExprsM (f : Expr → m Expr) : Stmt → m Stmt
  | .reg name ty clock none => do return .reg name ty (← f clock) none
  | .reg name ty clock (some reset) => do
    let clock ← f clock
    let signal ← f reset.signal
    let init ← f reset.init
    return .reg name ty clock (some ⟨signal, init⟩)
  | .node name value => do return .node name (← f value)
  | .connect loc value => do
    let loc ← f loc
    let value ← f value
    return .connect loc value
  | .partialConnect loc value => do
    let loc ← f loc
    let value ← f value
    return .partialConnect loc value
  | .when cond conseq alt => do return .when (← f cond) conseq alt
  | .invalid loc => do return .invalid (← f loc)
  | other => pure other

/-- Replaces the statements directly inside, in order. -/
def mapStmtsM (f : Stmt → m Stmt) : Stmt → m Stmt
  | .when cond conseq alt => do
    let conseq ← f conseq
    let alt ← f alt
    return .when cond conseq alt
  | .block stmts => do return .block (← stmts.mapM f)
  | other => pure other

end Replacing

end Stmt

end IntervalHdl
