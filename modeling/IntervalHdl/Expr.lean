import IntervalHdl.Ty
import IntervalHdl.Operator

/-!
# Expressions

Every expression carries a recorded result type, except literals, whose type follows from their
width. `Expr.ind` is the induction principle that reaches the operands of an operator; the
replacing functions take their step in any monad.
-/

namespace IntervalHdl
set_option autoImplicit false

/-- Expressions over the declared names of a module. -/
inductive Expr where
  | ref (name : String) (ty : Ty)
  | field (parent : Expr) (name : String) (ty : Ty)
  | index (parent : Expr) (position : UInt64) (ty : Ty)
  | uint (value : Int) (width : Width)
  | sint (value : Int) (width : Width)
  | prim (op : Operator) (args : List Expr) (consts : List Int) (ty : Ty)
  | mux (cond tval fval : Expr) (ty : Ty)
deriving Inhabited

namespace Expr

/-- Induction over expressions, with a hypothesis for every operand of an operator. -/
@[elab_as_elim, induction_eliminator]
theorem ind {motive : Expr → Prop}
    (ref : ∀ name ty, motive (.ref name ty))
    (field : ∀ parent name ty, motive parent → motive (.field parent name ty))
    (index : ∀ parent position ty, motive parent → motive (.index parent position ty))
    (uint : ∀ value width, motive (.uint value width))
    (sint : ∀ value width, motive (.sint value width))
    (prim : ∀ op args consts ty, (∀ arg ∈ args, motive arg) → motive (.prim op args consts ty))
    (mux : ∀ cond tval fval ty,
      motive cond → motive tval → motive fval → motive (.mux cond tval fval ty))
    (e : Expr) : motive e :=
  @Expr.rec motive (fun args => ∀ arg ∈ args, motive arg)
    ref field index uint sint prim mux
    (fun _ absent => nomatch absent)
    (fun _ _ head tail _ found => by
      rcases List.mem_cons.mp found with rfl | found
      · exact head
      · exact tail _ found) e

/-- The unsigned literal `v` at its minimal width. -/
def minimalUInt (v : Int) : Expr := .uint v (.known (unsignedWidth v))

/-- The signed literal `v` at its minimal width. -/
def minimalSInt (v : Int) : Expr := .sint v (.known (signedWidth v))

/-- The recorded result type. -/
def ty : Expr → Ty
  | .ref _ ty | .field _ _ ty | .index _ _ ty | .prim _ _ _ ty | .mux _ _ _ ty => ty
  | .uint _ width => .uint width
  | .sint _ width => .sint width

/-- The direct subexpressions, in order. -/
def children : Expr → List Expr
  | .ref _ _ | .uint _ _ | .sint _ _ => []
  | .field parent _ _ | .index parent _ _ => [parent]
  | .prim _ args _ _ => args
  | .mux cond tval fval _ => [cond, tval, fval]

section Replacing

variable {m : Type → Type} [Monad m]

/-- Replaces each direct subexpression, in order. -/
def mapChildrenM (f : Expr → m Expr) : Expr → m Expr
  | .field parent name ty => do return .field (← f parent) name ty
  | .index parent position ty => do return .index (← f parent) position ty
  | .prim op args consts ty => do return .prim op (← args.mapM f) consts ty
  | .mux cond tval fval ty => do
    let cond ← f cond
    let tval ← f tval
    let fval ← f fval
    return .mux cond tval fval ty
  | leaf => pure leaf

/-- Replaces the recorded result type; a literal stays. -/
def mapTyM (f : Ty → m Ty) : Expr → m Expr
  | .ref name ty => do return .ref name (← f ty)
  | .field parent name ty => do return .field parent name (← f ty)
  | .index parent position ty => do return .index parent position (← f ty)
  | .prim op args consts ty => do return .prim op args consts (← f ty)
  | .mux cond tval fval ty => do return .mux cond tval fval (← f ty)
  | literal => pure literal

mutual

/-- Replaces bottom-up: `f` sees each node once, after its subexpressions were replaced. -/
def replaceUpM (f : Expr → m Expr) : Expr → m Expr
  | .ref name ty => f (.ref name ty)
  | .field parent name ty => do
    let parent ← parent.replaceUpM f
    f (.field parent name ty)
  | .index parent position ty => do
    let parent ← parent.replaceUpM f
    f (.index parent position ty)
  | .uint value width => f (.uint value width)
  | .sint value width => f (.sint value width)
  | .prim op args consts ty => do
    let args ← replaceAllUpM f args
    f (.prim op args consts ty)
  | .mux cond tval fval ty => do
    let cond ← cond.replaceUpM f
    let tval ← tval.replaceUpM f
    let fval ← fval.replaceUpM f
    f (.mux cond tval fval ty)

/-- Replaces a list of expressions bottom-up, in order. -/
def replaceAllUpM (f : Expr → m Expr) : List Expr → m (List Expr)
  | [] => pure []
  | e :: es => do
    let e ← e.replaceUpM f
    let es ← replaceAllUpM f es
    return e :: es

end

end Replacing

theorem replaceAllUpM_eq_mapM {m : Type → Type} [Monad m] [LawfulMonad m] (f : Expr → m Expr)
    (es : List Expr) : replaceAllUpM f es = es.mapM (replaceUpM f) := by
  induction es with
  | nil => simp [replaceAllUpM]
  | cons e es ih => simp [replaceAllUpM, ih]

end Expr

end IntervalHdl
