import IntervalHdl.Proofs.Lowering.Success

/-!
# The nodes of a circuit

The expressions of a circuit with everything inside them, listed node by node, and the types that it
declares. An operator is counted over such a list (`Expr.uses`), and the intervals that a list of
nodes carries are those in the types that stay with a node; the type of an operator that is reserved
for intervals does not, since its result is typed anew.
-/

namespace IntervalHdl
set_option autoImplicit false

namespace Expr

mutual

/-- The expressions inside, from the leaves up, with the expression itself last. -/
def nodes : Expr → List Expr
  | .ref name ty => [.ref name ty]
  | .field parent name ty => parent.nodes ++ [.field parent name ty]
  | .index parent position ty => parent.nodes ++ [.index parent position ty]
  | .uint value width => [.uint value width]
  | .sint value width => [.sint value width]
  | .prim op args consts ty => allNodes args ++ [.prim op args consts ty]
  | .mux cond tval fval ty =>
    cond.nodes ++ (tval.nodes ++ fval.nodes) ++ [.mux cond tval fval ty]

/-- The nodes of a list of expressions. -/
def allNodes : List Expr → List Expr
  | [] => []
  | e :: es => e.nodes ++ allNodes es

end

theorem allNodes_eq_flatMap (es : List Expr) : allNodes es = es.flatMap nodes := by
  induction es with
  | nil => rfl
  | cons e es ih => rw [allNodes, ih, List.flatMap_cons]

theorem nodes_eq (e : Expr) : e.nodes = e.children.flatMap nodes ++ [e] := by
  cases e <;> simp [nodes, children, allNodes_eq_flatMap]

/-- The nodes of an expression are those of its children and the root. -/
theorem mem_nodes_iff {x y : Expr} :
    y ∈ x.nodes ↔ (∃ child ∈ x.children, y ∈ child.nodes) ∨ y = x := by
  rw [nodes_eq, List.mem_append, List.mem_flatMap, List.mem_singleton]

/-- Induction by the subexpressions. -/
@[elab_as_elim]
theorem ind_children {motive : Expr → Prop}
    (step : ∀ e, (∀ child ∈ e.children, motive child) → motive e) (e : Expr) : motive e := by
  induction e with
  | ref | uint | sint => exact step _ nofun
  | field _ _ _ parent | index _ _ _ parent => exact step _ (List.forall_mem_singleton.mpr parent)
  | prim _ _ _ _ args => exact step _ args
  | mux _ _ _ _ cond tval fval =>
    refine step _ ?_
    simp only [children, List.forall_mem_cons]
    exact ⟨cond, tval, fval, List.forall_mem_nil _⟩

/-- What is inside an expression has no more nodes. -/
theorem length_nodes_le_of_mem {x y : Expr} (present : y ∈ x.nodes) :
    y.nodes.length ≤ x.nodes.length := by
  induction x using ind_children with
  | step x ih =>
    rcases mem_nodes_iff.mp present with ⟨child, among, present⟩ | rfl
    · have part : child.nodes.Sublist (x.children.flatMap nodes) := by
        rw [List.flatMap_def]
        exact List.sublist_flatten_of_mem (List.mem_map_of_mem among)
      rw [nodes_eq x, List.length_append]
      have shorter := ih child among present
      have shorter' := part.length_le
      omega
    · exact le_refl _

/-- What holds everywhere in an expression holds of its nodes. -/
theorem everywhere_iff_nodes {P : Expr → Prop} {e : Expr} :
    e.Everywhere P ↔ ∀ x ∈ e.nodes, P x := by
  induction e using ind_children with
  | step e ih =>
    rw [everywhere_iff, nodes_eq, List.forall_mem_append, List.forall_mem_flatMap,
      List.forall_mem_singleton, and_comm]
    exact and_congr_left fun _ => forall₂_congr ih

/-- The intervals in the type that is recorded on the node and stays there. -/
def carried : Expr → List Interval
  | .ref _ ty | .field _ _ ty | .index _ _ ty | .mux _ _ _ ty => ty.intervals
  | .prim op _ _ ty => if op.isIntervalOnly then [] else ty.intervals
  | .uint _ _ | .sint _ _ => []

/-- How many of the nodes are uses of the operator. -/
def uses (op : Operator) (nodes : List Expr) : Nat := nodes.countP (·.operator? == some op)

@[simp] theorem uses_append (op : Operator) (ns ms : List Expr) :
    uses op (ns ++ ms) = uses op ns + uses op ms := List.countP_append

end Expr

namespace Stmt

mutual

/-- The statements inside, with the statement itself last. -/
def all : Stmt → List Stmt
  | .when cond conseq alt => conseq.all ++ alt.all ++ [.when cond conseq alt]
  | .block stmts => allOf stmts ++ [.block stmts]
  | s => [s]

/-- The statements of a list, with those inside them. -/
def allOf : List Stmt → List Stmt
  | [] => []
  | s :: stmts => s.all ++ allOf stmts

end

theorem allOf_eq_flatMap (ss : List Stmt) : allOf ss = ss.flatMap all := by
  induction ss with
  | nil => rfl
  | cons s ss ih => rw [allOf, ih, List.flatMap_cons]

theorem all_eq (s : Stmt) : s.all = s.stmts.flatMap all ++ [s] := by
  cases s <;> simp [all, stmts, allOf_eq_flatMap]

/-- Induction by the statements directly inside. -/
@[elab_as_elim]
theorem ind_stmts {motive : Stmt → Prop}
    (step : ∀ s, (∀ inner ∈ s.stmts, motive inner) → motive s) (s : Stmt) : motive s := by
  induction s with
  | wire | reg | node | connect | partialConnect | invalid | skip => exact step _ nofun
  | when _ _ _ conseq alt =>
    exact step _ (List.forall_mem_cons.mpr ⟨conseq, List.forall_mem_singleton.mpr alt⟩)
  | block _ stmts => exact step _ stmts

/-- What holds everywhere in a statement holds of the statements in it. -/
theorem everywhere_iff_all {P : Stmt → Prop} {s : Stmt} :
    s.Everywhere P ↔ ∀ t ∈ s.all, P t := by
  induction s using ind_stmts with
  | step s ih =>
    rw [everywhere_iff, all_eq, List.forall_mem_append, List.forall_mem_flatMap,
      List.forall_mem_singleton, and_comm]
    exact and_congr_left fun _ => forall₂_congr ih

/-- The nodes of all expressions in the statement. -/
def nodes (s : Stmt) : List Expr := s.all.flatMap fun s => s.exprs.flatMap Expr.nodes

/-- The types that wires and registers in the statement are declared with. -/
def declaredTys (s : Stmt) : List Ty := s.all.filterMap declaredTy?

/-- The nodes of a statement are those of the statements inside and then of its expressions. -/
theorem nodes_eq (s : Stmt) : s.nodes = s.stmts.flatMap nodes ++ s.exprs.flatMap Expr.nodes := by
  rw [nodes, all_eq, List.flatMap_append, List.flatMap_singleton, List.flatMap_assoc]
  rfl

/-- What holds everywhere in the expressions of a statement holds of its nodes. -/
theorem everywhere_exprs_iff {P : Expr → Prop} {s : Stmt} :
    (s.Everywhere fun inner => ∀ e ∈ inner.exprs, e.Everywhere P) ↔ ∀ x ∈ s.nodes, P x := by
  simp only [everywhere_iff_all, nodes, List.forall_mem_flatMap, Expr.everywhere_iff_nodes]

/-- The declared types of a statement are those of the statements inside and then its own. -/
theorem declaredTys_eq (s : Stmt) :
    s.declaredTys = s.stmts.flatMap declaredTys ++ s.declaredTy?.toList := by
  rw [declaredTys, all_eq, List.filterMap_append, List.filterMap_flatMap]
  cases declared : s.declaredTy? <;> simp [declared] <;> rfl

end Stmt

namespace Module

/-- The nodes of the body, if there is one. -/
def nodes (m : Module) : List Expr := m.body?.toList.flatMap Stmt.nodes

/-- The nodes of a module are those of its body. -/
theorem mem_nodes_iff {m : Module} {x : Expr} :
    x ∈ m.nodes ↔ ∃ body, m.body? = some body ∧ x ∈ body.nodes := by
  simp only [nodes, List.mem_flatMap, Option.mem_toList]

/-- The types that the body declares, and those of the ports. -/
def declaredTys (m : Module) : List Ty :=
  m.body?.toList.flatMap Stmt.declaredTys ++ m.ports.map Port.ty

end Module

namespace Circuit

/-- The nodes of all bodies. -/
def nodes (c : Circuit) : List Expr := c.modules.flatMap Module.nodes

/-- The types of all ports, wires and registers. -/
def declaredTys (c : Circuit) : List Ty := c.modules.flatMap Module.declaredTys

/-- How many nodes of the circuit are uses of the operator. -/
def uses (c : Circuit) (op : Operator) : Nat := Expr.uses op c.nodes

/-- The intervals in the types of ports, wires and registers, and in those recorded on nodes, but
for the operators that are reserved for intervals. -/
def recordedIntervals (c : Circuit) : List Interval :=
  c.declaredTys.flatMap Ty.intervals ++ c.nodes.flatMap Expr.carried

end Circuit

end IntervalHdl
