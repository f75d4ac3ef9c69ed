import IntervalHdl.Proofs.Alignment.Steps

/-!
# Coherence of recorded types under alignment

A circuit is coherent when its sums and differences are recorded at the greatest point of their
operands and its references to nodes carry the types of the nodes' values. Alignment gives
selections, saturations, wraps and `setp` new points, but neither the sums over them nor the
references to them: these keep the types they were recorded with. So coherence is not kept in
general. What alignment makes of recorded types can be read off an expression beforehand
(`Expr.alignedTy`), and the aligned circuit is coherent exactly when the circuit is coherent read by
these types (`Circuit.coherent_align_iff`). They are the recorded ones where every node is settled,
that is recorded where its operands meet (`Expr.alignedTy_of_settled`).
-/

namespace IntervalHdl
set_option autoImplicit false

open Reported

/-! ## Types after alignment -/

namespace Ty

/-- The recorded point of an interval type. -/
def point? : Ty → Option BitCount
  | .interval t => t.point.bits?
  | _ => none

/-- An interval at the point `p`, its bounds kept; one that is there already stays. -/
def movedTo (p : BitCount) : Ty → Ty
  | .interval t => .interval (if t.point = .known p then t else t.atPoint p)
  | other => other

/-- The type of an aligned selection recorded at a type, by the types of its branches. -/
def selected (tval fval : Ty) : Ty → Ty
  | .interval t =>
    match tval.point?, fval.point? with
    | some p, some q => .interval (t.atPoint (max p q))
    | _, _ => .interval t
  | other => other

/-- The recorded point of a type is computed where it has one. -/
theorem point?_eq_some_iff {t : Ty} {p : BitCount} : t.point? = some p ↔ t.HasPoint p := by
  cases t with
  | interval i => simp [point?, Width.bits?_eq_some_iff, hasPoint_interval_iff]
  | _ => simp [point?, HasPoint]

end Ty

/-- The type of an aligned operator recorded at `ty`, by the types of its operands. -/
def Operator.alignedTy (op : Operator) (tys : List Ty) (consts : List Int) (ty : Ty) : Ty :=
  if op = .setp then
    match tys, consts.head?.bind BitCount.ofInt? with
    | [arg], some p => arg.movedTo p
    | _, _ => ty
  else if op.needsCommonPoint && !tys.isEmpty && tys.all Ty.isInterval then
    op.repoint (commonPoint (tys.filterMap Ty.point?)) ty
  else ty

namespace Expr

mutual

/-- The type that alignment leaves an expression at, if it succeeds. -/
def alignedTy : Expr → Ty
  | .ref _ ty => ty
  | .field _ _ ty => ty
  | .index _ _ ty => ty
  | .uint _ width => .uint width
  | .sint _ width => .sint width
  | .prim op args consts ty => op.alignedTy (alignedTys args) consts ty
  | .mux _ tval fval ty => .selected tval.alignedTy fval.alignedTy ty

/-- The types that alignment leaves the expressions of a list at. -/
def alignedTys : List Expr → List Ty
  | [] => []
  | e :: es => e.alignedTy :: alignedTys es

end

theorem alignedTys_eq_map (es : List Expr) : alignedTys es = es.map alignedTy := by
  induction es with
  | nil => rfl
  | cons e es ih => rw [alignedTys, ih, List.map_cons]

/-- A moved expression has its type moved. -/
theorem Rescaled.ty_eq {target : BitCount} {e e' : Expr} (moved : Rescaled target e e') :
    e'.ty = e.ty.movedTo target := by
  cases moved with
  | same recorded =>
    obtain ⟨t, ty, point⟩ := recorded
    simp [ty, Ty.movedTo, point]
  | moved ty point apart =>
    simp only [ty, Ty.movedTo, point, Width.known.injEq, if_neg apart]
    rfl

/-- Whether operands have to meet is read off their types. -/
theorem meets_eq_of_tys {op : Operator} {args : List Expr} :
    meets op args =
      (op.needsCommonPoint && !(args.map ty).isEmpty && (args.map ty).all Ty.isInterval) := by
  simp [meets, List.all_map, Function.comp_def]

/-- Operands with points have just these. -/
theorem filterMap_point?_of_recorded {args : List Expr} {points : List BitCount}
    (recorded : List.Forall₂ (fun e p => e.ty.HasPoint p) args points) :
    (args.map ty).filterMap Ty.point? = points := by
  induction recorded with
  | nil => rfl
  | cons head _ ih => simp [Ty.point?_eq_some_iff.mpr head, ih]

/-- The type of an aligned operator comes from those of its aligned operands. -/
theorem ty_of_nodeAligned_prim {op : Operator} {args : List Expr} {consts : List Int} {ty : Ty}
    {e' : Expr} (aligned : NodeAligned (.prim op args consts ty) e') :
    e'.ty = op.alignedTy (args.map Expr.ty) consts ty := by
  unfold Operator.alignedTy
  cases aligned with
  | setp _ amount moved =>
    rw [if_pos rfl, amount]
    exact moved.ty_eq
  | meet _ _ common recorded moved =>
    have stays : op ≠ .setp := by
      rintro rfl
      cases (meets_setp args).symm.trans common
    rw [if_neg stays, ← meets_eq_of_tys, if_pos common, filterMap_point?_of_recorded recorded]
    rfl
  | keep _ _ stays apart =>
    rw [if_neg stays, ← meets_eq_of_tys, apart]
    rfl
  | other plain => cases plain

/-- The type of an aligned selection comes from those of its aligned branches. -/
theorem ty_of_nodeAligned_mux {cond tval fval e' : Expr} {ty : Ty}
    (aligned : NodeAligned (.mux cond tval fval ty) e') :
    e'.ty = .selected tval.ty fval.ty ty := by
  cases aligned with
  | select _ t left right _ _ =>
    simp only [Ty.selected, Ty.point?_eq_some_iff.mpr left, Ty.point?_eq_some_iff.mpr right]
    rfl
  | other _ unmoved =>
    cases ty with
    | interval t => exact (unmoved trivial).elim
    | _ => rfl

/-- A node over subexpressions at the types foretold is itself aligned to the type foretold. -/
theorem ty_of_nodeAligned {e node e' : Expr}
    (rebuilt : Rebuilt (fun e e' => e'.ty = e.alignedTy) e node) (aligned : NodeAligned node e') :
    e'.ty = e.alignedTy := by
  cases rebuilt with
  | ref | field | index | uint | sint =>
    cases aligned
    simp only [alignedTy]
    rfl
  | @prim args args' op consts ty each =>
    have tys : args'.map Expr.ty = args.map alignedTy := by
      clear aligned
      induction each with
      | nil => rfl
      | cons head _ ih => rw [List.map_cons, List.map_cons, head, ih]
    rw [ty_of_nodeAligned_prim aligned, alignedTy, alignedTys_eq_map, tys]
  | mux ty condTy tvalTy fvalTy =>
    rw [ty_of_nodeAligned_mux aligned, alignedTy, tvalTy, fvalTy]

/-- Alignment leaves an expression at the type foretold. -/
theorem ty_of_align {e e' : Expr} (done : e.align.outcome = .ok e') : e'.ty = e.alignedTy :=
  align_rel (R := fun e e' => e'.ty = e.alignedTy) (fun _ _ _ => ty_of_nodeAligned) done

end Expr

/-! ## Coherence -/

/-- Declared names, the most recent in front: the type of its value for a node, nothing for any
other declaration. A name that is not found belongs to a port. -/
abbrev NodeTypes := List (String × Option Ty)

/-- The type of the value of the node that a name refers to. -/
def NodeTypes.nodeTy? (declared : NodeTypes) (name : String) : Option Ty :=
  (declared.lookup name).join

namespace Expr

/-- The node itself agrees with what it is over, operand types read by `τ`: a sum or difference of
interval operands is recorded at the greatest of their points, and a reference to a node at the type
of the node's value. -/
def NodeCoherent (τ : Expr → Ty) (declared : NodeTypes) : Expr → Prop
  | .ref name ty => ∀ t, declared.nodeTy? name = some t → ty.equal t = true
  | .prim op args _ ty =>
    op = .add ∨ op = .sub → ∀ points, args ≠ [] →
      List.Forall₂ (fun arg p => (τ arg).HasPoint p) args points → ty.HasPoint (commonPoint points)
  | _ => True

/-- Coherence at every position of an expression. -/
def CoherentBy (τ : Expr → Ty) (declared : NodeTypes) (e : Expr) : Prop :=
  e.Everywhere (NodeCoherent τ declared)

end Expr

namespace Stmt

mutual

/-- The declared names behind a statement. -/
def declare (τ : Expr → Ty) (declared : NodeTypes) : Stmt → NodeTypes
  | .wire name _ => (name, none) :: declared
  | .reg name _ _ _ => (name, none) :: declared
  | .node name value => (name, some (τ value)) :: declared
  | .when _ conseq alt => alt.declare τ (conseq.declare τ declared)
  | .block stmts => declareAll τ declared stmts
  | .connect _ _ => declared
  | .partialConnect _ _ => declared
  | .invalid _ => declared
  | .skip => declared

/-- The declared names behind statements in order. -/
def declareAll (τ : Expr → Ty) (declared : NodeTypes) : List Stmt → NodeTypes
  | [] => declared
  | s :: stmts => declareAll τ (s.declare τ declared) stmts

end

mutual

/-- Coherence of every expression, with the names declared before it. A register is declared before
its own expressions, a node after its value. -/
def CoherentBy (τ : Expr → Ty) (declared : NodeTypes) : Stmt → Prop
  | .wire _ _ => True
  | .reg name ty clock reset =>
    ∀ e ∈ (Stmt.reg name ty clock reset).exprs, e.CoherentBy τ ((name, none) :: declared)
  | .node _ value => value.CoherentBy τ declared
  | .connect loc value => loc.CoherentBy τ declared ∧ value.CoherentBy τ declared
  | .partialConnect loc value => loc.CoherentBy τ declared ∧ value.CoherentBy τ declared
  | .when cond conseq alt =>
    cond.CoherentBy τ declared ∧ conseq.CoherentBy τ declared ∧
      alt.CoherentBy τ (conseq.declare τ declared)
  | .block stmts => AllCoherentBy τ declared stmts
  | .invalid loc => loc.CoherentBy τ declared
  | .skip => True

/-- Coherence of statements in order. -/
def AllCoherentBy (τ : Expr → Ty) (declared : NodeTypes) : List Stmt → Prop
  | [] => True
  | s :: stmts => s.CoherentBy τ declared ∧ AllCoherentBy τ (s.declare τ declared) stmts

end

end Stmt

namespace Circuit

/-- Coherence of every module, types of operands and of the values of nodes read by `τ`. -/
def CoherentBy (τ : Expr → Ty) (c : Circuit) : Prop :=
  ∀ m ∈ c.modules, ∀ body ∈ m.body?, body.CoherentBy τ []

/-- Coherence by the types that the circuit records. -/
def Coherent (c : Circuit) : Prop := c.CoherentBy Expr.ty

end Circuit

/-! ## Coherence after alignment -/

namespace Expr

/-- Coherence of an expression is coherence of its root and of its children. -/
theorem coherentBy_iff {τ : Expr → Ty} {declared : NodeTypes} {e : Expr} :
    e.CoherentBy τ declared ↔
      e.NodeCoherent τ declared ∧ ∀ child ∈ e.children, child.CoherentBy τ declared :=
  everywhere_iff

section Nodes

variable {τ : Expr → Ty} {declared : NodeTypes}

@[simp] theorem coherentBy_ref_iff {name : String} {ty : Ty} :
    (ref name ty).CoherentBy τ declared ↔
      ∀ t, declared.nodeTy? name = some t → ty.equal t = true := by
  rw [coherentBy_iff]
  simp [NodeCoherent, children]

@[simp] theorem coherentBy_field_iff {parent : Expr} {name : String} {ty : Ty} :
    (field parent name ty).CoherentBy τ declared ↔ parent.CoherentBy τ declared := by
  rw [coherentBy_iff]
  simp [NodeCoherent, children]

@[simp] theorem coherentBy_index_iff {parent : Expr} {position : UInt64} {ty : Ty} :
    (index parent position ty).CoherentBy τ declared ↔ parent.CoherentBy τ declared := by
  rw [coherentBy_iff]
  simp [NodeCoherent, children]

@[simp] theorem coherentBy_uint (value : Int) (width : Width) :
    (uint value width).CoherentBy τ declared :=
  ⟨trivial, nofun⟩

@[simp] theorem coherentBy_sint (value : Int) (width : Width) :
    (sint value width).CoherentBy τ declared :=
  ⟨trivial, nofun⟩

@[simp] theorem coherentBy_mux_iff {cond tval fval : Expr} {ty : Ty} :
    (mux cond tval fval ty).CoherentBy τ declared ↔
      cond.CoherentBy τ declared ∧ tval.CoherentBy τ declared ∧ fval.CoherentBy τ declared := by
  rw [coherentBy_iff]
  simp [NodeCoherent, children]

/-- Operators other than sums and differences ask for nothing themselves. -/
theorem coherentBy_prim_iff {op : Operator} {args : List Expr} {consts : List Int} {ty : Ty} :
    (prim op args consts ty).CoherentBy τ declared ↔
      (prim op args consts ty).NodeCoherent τ declared ∧
        ∀ arg ∈ args, arg.CoherentBy τ declared :=
  coherentBy_iff

end Nodes

/-- A rescale on top makes no difference. -/
theorem coherentBy_rescaled_iff {target : BitCount} {declared : NodeTypes} {e e' : Expr}
    (moved : Rescaled target e e') : e'.CoherentBy ty declared ↔ e.CoherentBy ty declared := by
  cases moved with
  | same => rfl
  | @moved t p ty point apart =>
    have shift : (rescaleStep p target).1 ≠ .add ∧ (rescaleStep p target).1 ≠ .sub := by
      unfold rescaleStep
      split <;> simp
    simp [coherentBy_prim_iff, NodeCoherent, shift]

/-- Fitting a value to its location makes no difference to its coherence. -/
theorem coherentBy_fitted_iff {declared : NodeTypes} {loc value value' : Expr}
    (fitted : Fitted loc value value') :
    value'.CoherentBy ty declared ↔ value.CoherentBy ty declared := by
  cases fitted with
  | interval target moved => exact coherentBy_rescaled_iff moved
  | plain => rfl

/-- The common point of values that are all at one point is that point. -/
theorem commonPoint_of_forall {p : BitCount} {points : List BitCount} (nonempty : points ≠ [])
    (all : ∀ q ∈ points, q = p) : commonPoint points = p :=
  all _ (commonPoint_mem nonempty)

/-- Operands recorded at the points that alignment foretells. -/
theorem recorded_iff {args aligned : List Expr} {points : List BitCount}
    (tys : List.Forall₂ (fun e e' => e'.ty = e.alignedTy) args aligned) :
    List.Forall₂ (fun e p => e.ty.HasPoint p) aligned points ↔
      List.Forall₂ (fun e p => e.alignedTy.HasPoint p) args points := by
  induction tys generalizing points with
  | nil => cases points <;> simp
  | cons head _ ih => cases points <;> simp [head, ih]

/-- The relation that alignment establishes, carried from the subexpressions to the node. -/
structure KeepsCoherence (declared : NodeTypes) (e e' : Expr) : Prop where
  ty_eq : e'.ty = e.alignedTy
  iff : e'.CoherentBy ty declared ↔ e.CoherentBy alignedTy declared

/-- A sum or difference keeps its type, and its aligned operands are all at the point that is the
greatest one of them. -/
theorem nodeCoherent_meet_iff {declared : NodeTypes} {op : Operator} {consts : List Int} {ty : Ty}
    {args aligned moved : List Expr} {points : List BitCount}
    (tys : List.Forall₂ (fun e e' => e'.ty = e.alignedTy) args aligned)
    (recorded : List.Forall₂ (fun e p => e.ty.HasPoint p) aligned points)
    (rescaled : List.Forall₂ (Rescaled (commonPoint points)) aligned moved) :
    NodeCoherent Expr.ty declared
        (.prim op moved consts (op.repoint (commonPoint points) ty)) ↔
      NodeCoherent alignedTy declared (.prim op args consts ty) := by
  have args_recorded := (recorded_iff tys).mp recorded
  refine imp_congr_right fun sum => ?_
  have stays : op.repoint (commonPoint points) ty = ty := by
    rcases sum with rfl | rfl <;> rfl
  rw [stays]
  have moved_at : ∀ e ∈ moved, e.ty.HasPoint (commonPoint points) :=
    forall_mem_of_forall₂ rescaled fun _ _ _ => Rescaled.hasPoint
  constructor
  · intro kept points' nonempty recorded'
    obtain rfl : points' = points := by
      rw [← recorded_iff tys] at recorded'
      rw [← filterMap_point?_of_recorded recorded, ← filterMap_point?_of_recorded recorded']
    have moved_nonempty : moved ≠ [] := by
      rintro rfl
      cases rescaled
      cases tys
      exact nonempty rfl
    have moved_points : List.Forall₂ (fun e p => e.ty.HasPoint p) moved
        (moved.map fun _ => commonPoint points') := by
      rw [List.forall₂_map_right_iff, List.forall₂_same]
      exact moved_at
    have at_common := kept _ moved_nonempty moved_points
    rwa [commonPoint_of_forall (p := commonPoint points') (by simpa using moved_nonempty)
      (by simp)] at at_common
  · intro kept points' nonempty recorded'
    have same : commonPoint points' = commonPoint points := by
      refine commonPoint_of_forall ?_ ?_
      · rintro rfl
        cases recorded'
        exact nonempty rfl
      · exact forall_mem_of_forall₂ recorded' fun e found q at_q => at_q.unique (moved_at e found)
    rw [same]
    refine kept points ?_ args_recorded
    rintro rfl
    cases tys
    cases rescaled
    exact nonempty rfl

/-- An aligned node is coherent exactly when the node is read by the types foretold, if this is so
of what is below it. -/
theorem keepsCoherence_of_nodeAligned {declared : NodeTypes} {e node e' : Expr}
    (rebuilt : Rebuilt (KeepsCoherence declared) e node) (aligned : NodeAligned node e') :
    e'.CoherentBy ty declared ↔ e.CoherentBy alignedTy declared := by
  cases rebuilt with
  | ref | uint | sint =>
    cases aligned
    simp
  | field name ty parent | index position ty parent =>
    cases aligned
    simp [parent.iff]
  | @prim args args' op consts ty each =>
    have tys : List.Forall₂ (fun e e' => e'.ty = e.alignedTy) args args' :=
      each.imp fun _ _ => KeepsCoherence.ty_eq
    have inside := forall_mem_iff_of_forall₂ each fun _ _ => KeepsCoherence.iff
    rw [coherentBy_prim_iff (τ := alignedTy)]
    cases aligned with
    | setp ty amount moved =>
      rw [coherentBy_rescaled_iff moved]
      simpa [NodeCoherent] using inside
    | meet consts ty common recorded moved =>
      rw [coherentBy_prim_iff, nodeCoherent_meet_iff tys recorded moved]
      refine and_congr_right fun _ => ?_
      exact (forall_mem_iff_of_forall₂ moved fun _ _ => coherentBy_rescaled_iff).trans inside
    | keep consts ty stays apart =>
      rw [coherentBy_prim_iff]
      refine and_congr (imp_congr_right fun sum => ?_) inside
      have nil_iff : args' = [] ↔ args = [] := by
        rw [← List.length_eq_zero_iff, ← List.length_eq_zero_iff, each.length_eq]
      simp only [ne_eq, nil_iff, recorded_iff tys]
    | other plain => cases plain
  | mux ty condKeeps tvalKeeps fvalKeeps =>
    cases aligned with
    | select _ t left right tmoved fmoved =>
      simp [coherentBy_rescaled_iff tmoved, coherentBy_rescaled_iff fmoved, condKeeps.iff,
        tvalKeeps.iff, fvalKeeps.iff]
    | other plain unmoved => simp [condKeeps.iff, tvalKeeps.iff, fvalKeeps.iff]

/-- An aligned expression is coherent exactly when the expression is, read by the types that
alignment leaves its subexpressions at. -/
theorem coherentBy_align_iff {declared : NodeTypes} {e e' : Expr}
    (done : e.align.outcome = .ok e') :
    e'.CoherentBy ty declared ↔ e.CoherentBy alignedTy declared := by
  refine (align_rel (R := KeepsCoherence declared) (fun e node e' rebuilt aligned => ?_) done).iff
  exact ⟨ty_of_nodeAligned (rebuilt.imp fun _ _ => KeepsCoherence.ty_eq) aligned,
    keepsCoherence_of_nodeAligned rebuilt aligned⟩

end Expr

namespace Stmt

/-- Two statements, read by one reading of types each, declare nodes at the same types and are
coherent in the same scopes. -/
structure CoherentAlike (σ τ : Expr → Ty) (s' s : Stmt) : Prop where
  declare_eq : ∀ declared, s'.declare σ declared = s.declare τ declared
  iff : ∀ declared, s'.CoherentBy σ declared ↔ s.CoherentBy τ declared

/-- Blocks are coherent alike if their statements are, one after the other. -/
theorem CoherentAlike.block {σ τ : Expr → Ty} {stmts' stmts : List Stmt}
    (each : List.Forall₂ (CoherentAlike σ τ) stmts' stmts) :
    CoherentAlike σ τ (.block stmts') (.block stmts) := by
  induction each with
  | nil => exact ⟨fun _ => by simp only [declare, declareAll], fun _ => Iff.rfl⟩
  | cons head _ ih =>
    constructor
    · intro declared
      have tail := ih.declare_eq
      simp only [declare] at tail
      simp only [declare, declareAll, head.declare_eq, tail]
    · intro declared
      have tail := ih.iff
      simp only [CoherentBy] at tail
      simp only [CoherentBy, AllCoherentBy, head.iff, head.declare_eq, tail]

/-- An aligned statement declares nodes at the types foretold, and is coherent exactly when the
statement is, read by these types. -/
theorem coherentAlike_of_align {s s' : Stmt} (done : s.align.outcome = .ok s') :
    CoherentAlike Expr.ty Expr.alignedTy s' s := by
  induction s generalizing s' with
  | wire name ty =>
    cases stmtAligned_of_align done
    exact ⟨fun _ => by simp only [declare], fun _ => by simp only [CoherentBy]⟩
  | reg name ty clock reset =>
    cases stmtAligned_of_align done with
    | reg _ _ clockDone =>
      refine ⟨fun _ => by simp only [declare], fun _ => ?_⟩
      simp [CoherentBy, exprs, Expr.coherentBy_align_iff clockDone]
    | regReset _ _ clockDone signalDone initDone =>
      refine ⟨fun _ => by simp only [declare], fun _ => ?_⟩
      simp [CoherentBy, exprs, Expr.coherentBy_align_iff clockDone,
        Expr.coherentBy_align_iff signalDone, Expr.coherentBy_align_iff initDone]
  | node name value =>
    cases stmtAligned_of_align done with
    | node _ valueDone =>
      refine ⟨fun _ => by simp only [declare, Expr.ty_of_align valueDone], fun _ => ?_⟩
      simp only [CoherentBy, Expr.coherentBy_align_iff valueDone]
  | connect loc value =>
    cases stmtAligned_of_align done with
    | connect locDone valueDone fitted =>
      refine ⟨fun _ => by simp only [declare], fun _ => ?_⟩
      simp only [CoherentBy, Expr.coherentBy_fitted_iff fitted, Expr.coherentBy_align_iff locDone,
        Expr.coherentBy_align_iff valueDone]
  | partialConnect loc value =>
    cases stmtAligned_of_align done with
    | partialConnect locDone valueDone fitted =>
      refine ⟨fun _ => by simp only [declare], fun _ => ?_⟩
      simp only [CoherentBy, Expr.coherentBy_fitted_iff fitted, Expr.coherentBy_align_iff locDone,
        Expr.coherentBy_align_iff valueDone]
  | when cond conseq alt conseqIh altIh =>
    cases stmtAligned_of_align done with
    | when condDone conseqDone altDone =>
      have conseqKeeps := conseqIh conseqDone
      have altKeeps := altIh altDone
      refine ⟨fun _ => ?_, fun _ => ?_⟩
      · simp only [declare, conseqKeeps.declare_eq, altKeeps.declare_eq]
      · simp only [CoherentBy, Expr.coherentBy_align_iff condDone, conseqKeeps.iff,
          conseqKeeps.declare_eq, altKeeps.iff]
  | block stmts ih =>
    cases stmtAligned_of_align done with
    | block each =>
      exact .block (forall₂_imp_of_mem (fun s found _ step => ih s found step) each).flip
  | invalid loc =>
    cases stmtAligned_of_align done with
    | invalid locDone =>
      refine ⟨fun _ => by simp only [declare], fun _ => ?_⟩
      simp only [CoherentBy, Expr.coherentBy_align_iff locDone]
  | skip =>
    cases stmtAligned_of_align done
    exact ⟨fun _ => by simp only [declare], fun _ => by simp only [CoherentBy]⟩

end Stmt

/-! ## Circuits that stay coherent -/

namespace Expr

/-- The node is recorded where alignment would leave it if its subexpressions stayed. -/
def NodeSettled : Expr → Prop
  | .prim op args consts ty => op.alignedTy (args.map Expr.ty) consts ty = ty
  | .mux _ tval fval ty => .selected tval.ty fval.ty ty = ty
  | _ => True

/-- Where every node is settled alignment foretells the recorded types. -/
theorem alignedTy_of_settled {e : Expr} (settled : e.Everywhere NodeSettled) :
    e.alignedTy = e.ty := by
  induction e with
  | ref | field | index | uint | sint => simp only [alignedTy, Expr.ty]
  | prim op args consts ty ih =>
    have same : args.map alignedTy = args.map Expr.ty :=
      List.map_congr_left fun arg found => ih arg found (settled.inside arg found)
    rw [alignedTy, alignedTys_eq_map, same]
    exact settled.here
  | mux cond tval fval ty condIh tvalIh fvalIh =>
    rw [alignedTy, tvalIh (settled.inside tval (by simp [children])),
      fvalIh (settled.inside fval (by simp [children]))]
    exact settled.here

/-- Where every node is settled coherence by the types foretold is coherence as recorded. -/
theorem coherentBy_of_settled {declared : NodeTypes} {e : Expr}
    (settled : e.Everywhere NodeSettled) :
    e.CoherentBy alignedTy declared ↔ e.CoherentBy ty declared := by
  induction e with
  | ref | uint | sint => simp
  | field parent name ty ih | index parent position ty ih =>
    simpa using ih (settled.inside parent List.mem_cons_self)
  | prim op args consts ty ih =>
    rw [coherentBy_prim_iff, coherentBy_prim_iff]
    refine and_congr (imp_congr_right fun sum => ?_)
      (forall₂_congr fun arg found => ih arg found (settled.inside arg found))
    have recorded (points : List BitCount) :
        List.Forall₂ (fun arg p => arg.alignedTy.HasPoint p) args points ↔
          List.Forall₂ (fun arg p => arg.ty.HasPoint p) args points := by
      constructor <;> refine forall₂_imp_of_mem fun arg found p at_p => ?_
      · rwa [← alignedTy_of_settled (settled.inside arg found)]
      · rwa [alignedTy_of_settled (settled.inside arg found)]
    simp only [recorded]
  | mux cond tval fval ty condIh tvalIh fvalIh =>
    simp [condIh (settled.inside cond (by simp [children])),
      tvalIh (settled.inside tval (by simp [children])),
      fvalIh (settled.inside fval (by simp [children]))]

end Expr

/-- A statement of settled expressions declares the same and is coherent alike by both readings. -/
theorem Stmt.coherentAlike_of_settled {s : Stmt}
    (settled : s.Everywhere fun s => ∀ e ∈ s.exprs, e.Everywhere Expr.NodeSettled) :
    CoherentAlike Expr.alignedTy Expr.ty s s := by
  induction s with
  | wire | skip =>
    exact ⟨fun _ => by simp only [declare], fun _ => by simp only [CoherentBy]⟩
  | reg name ty clock reset =>
    refine ⟨fun _ => by simp only [declare], fun _ => ?_⟩
    simp only [CoherentBy]
    exact forall₂_congr fun e found => Expr.coherentBy_of_settled (settled.here e found)
  | node name value =>
    have valueSettled := settled.here value List.mem_cons_self
    refine ⟨fun _ => ?_, fun _ => ?_⟩
    · simp only [declare, Expr.alignedTy_of_settled valueSettled]
    · simp only [CoherentBy, Expr.coherentBy_of_settled valueSettled]
  | connect loc value | partialConnect loc value =>
    have locSettled := settled.here loc (by simp [exprs])
    have valueSettled := settled.here value (by simp [exprs])
    refine ⟨fun _ => by simp only [declare], fun _ => ?_⟩
    simp only [CoherentBy, Expr.coherentBy_of_settled locSettled,
      Expr.coherentBy_of_settled valueSettled]
  | when cond conseq alt conseqIh altIh =>
    have condSettled := settled.here cond (by simp [exprs])
    have conseqAlike := conseqIh (settled.inside conseq (by simp [stmts]))
    have altAlike := altIh (settled.inside alt (by simp [stmts]))
    refine ⟨fun _ => ?_, fun _ => ?_⟩
    · simp only [declare, conseqAlike.declare_eq, altAlike.declare_eq]
    · simp only [CoherentBy, Expr.coherentBy_of_settled condSettled, conseqAlike.iff,
        conseqAlike.declare_eq, altAlike.iff]
  | block stmts ih =>
    exact .block (List.forall₂_same.mpr fun s found => ih s found (settled.inside s found))
  | invalid loc =>
    have locSettled := settled.here loc (by simp [exprs])
    refine ⟨fun _ => by simp only [declare], fun _ => ?_⟩
    simp only [CoherentBy, Expr.coherentBy_of_settled locSettled]

/-- The aligned body of a module is coherent exactly when the body is, read by the types that
alignment leaves its expressions at. -/
theorem Module.coherentBy_body_iff {m m' : Module}
    (body : Option.Rel (fun body body' => body.align.outcome = .ok body') m.body? m'.body?) :
    (∀ body ∈ m'.body?, body.CoherentBy Expr.ty []) ↔
      ∀ body ∈ m.body?, body.CoherentBy Expr.alignedTy [] := by
  generalize m.body? = before, m'.body? = after at body ⊢
  cases body with
  | none => simp
  | some done => simp [(Stmt.coherentAlike_of_align done).iff]

namespace Circuit

/-- An aligned circuit is coherent exactly when the circuit is, read by the types that alignment
leaves its expressions at. -/
theorem coherent_iff_of_align {c c' : Circuit} (done : c.align.outcome = .ok c') :
    c'.Coherent ↔ c.CoherentBy Expr.alignedTy :=
  forall_mem_iff_of_forall₂ (align_eq_ok_iff.mp done).2 fun _ _ ⟨_, _, body⟩ =>
    Module.coherentBy_body_iff body

/-- Where every expression is settled these types are the recorded ones. -/
theorem coherentBy_of_settled {c : Circuit} (settled : c.EveryExpr Expr.NodeSettled) :
    c.CoherentBy Expr.alignedTy ↔ c.Coherent := by
  refine forall₂_congr fun m found => forall₂_congr fun body present => ?_
  exact (Stmt.coherentAlike_of_settled (settled m found body present)).iff []

/-- An aligned circuit is coherent exactly when the circuit is coherent read by the types that
alignment leaves its expressions at: every sum and difference is recorded at the greatest of these
points of its operands, and every reference to a node at this type of the node's value. So coherence
is neither lost nor gained where every node, selections, saturations, wraps and `setp` in
particular, is recorded where its operands as recorded meet. -/
theorem coherent_align_iff {c c' : Circuit} (done : c.align.outcome = .ok c') :
    (c'.Coherent ↔ c.CoherentBy Expr.alignedTy) ∧
      (c.EveryExpr Expr.NodeSettled → (c'.Coherent ↔ c.Coherent)) := by
  have foretold := coherent_iff_of_align done
  exact ⟨foretold, fun settled => foretold.trans (coherentBy_of_settled settled)⟩

/-- Ports for the examples: a flag, and two values from 0 to 1 at the points 1 and 2. -/
def unsettledPorts : List Port :=
  [⟨"s", .input, .uint (.known (.ofNat 1))⟩,
    ⟨"a", .input, .interval (.of (.ofInt 0) (.ofInt 1) (.known (.ofNat 1)))⟩,
    ⟨"b", .input, .interval (.of (.ofInt 0) (.ofInt 1) (.known (.ofNat 2)))⟩]

/-- A selection between the values recorded at the point 1: in a node of its own, and under a sum
with a reference to that node. -/
def unsettled : Circuit :=
  let ty (hi : Int) (p : Nat) : Ty := .interval (.of (.ofInt 0) (.ofInt hi) (.known (.ofNat p)))
  let chosen : Expr := .mux (.ref "s" (.uint (.known (.ofNat 1)))) (.ref "a" (ty 1 1))
    (.ref "b" (ty 1 2)) (ty 1 1)
  let sum : Expr := .prim .add [chosen, .ref "m" (ty 1 1)] [] (ty 2 1)
  ⟨"Top", [⟨"Top", unsettledPorts, some (.block [.node "m" chosen, .node "t" sum])⟩]⟩

/-- The same circuit aligned: the selection is at the point 2, the reference to its node and the sum
are where they were. -/
def unsettledAligned : Circuit :=
  let ty (hi : Int) (p : Nat) : Ty := .interval (.of (.ofInt 0) (.ofInt hi) (.known (.ofNat p)))
  let raised (name : String) : Expr := .prim .incp [.ref name (ty 1 1)] [1] (ty 1 2)
  let chosen : Expr := .mux (.ref "s" (.uint (.known (.ofNat 1)))) (raised "a")
    (.ref "b" (ty 1 2)) (ty 1 2)
  let sum : Expr := .prim .add [chosen, raised "m"] [] (ty 2 1)
  ⟨"Top", [⟨"Top", unsettledPorts, some (.block [.node "m" chosen, .node "t" sum])⟩]⟩

/-- A selection between the same values, recorded where they meet. -/
def settled : Circuit :=
  let ty (p : Nat) : Ty := .interval (.of (.ofInt 0) (.ofInt 1) (.known (.ofNat p)))
  let chosen : Expr := .mux (.ref "s" (.uint (.known (.ofNat 1)))) (.ref "a" (ty 1))
    (.ref "b" (ty 2)) (ty 2)
  ⟨"Top", [⟨"Top", unsettledPorts, some (.node "m" chosen)⟩]⟩

theorem everyExpr_settled : settled.EveryExpr Expr.NodeSettled := by
  intro m found body present
  obtain rfl := List.mem_singleton.mp found
  cases present
  have leaf (name : String) (ty : Ty) : (Expr.ref name ty).Everywhere Expr.NodeSettled :=
    Expr.everywhere_ref_iff.mpr trivial
  refine ⟨fun e found => ?_, fun inner found => absurd found List.not_mem_nil⟩
  obtain rfl := List.mem_singleton.mp found
  exact Expr.everywhere_mux_iff.mpr ⟨rfl, leaf _ _, leaf _ _, leaf _ _⟩

/-- Both readings of the criterion: by the types foretold, and by the recorded ones. -/
theorem coherent_align_iff_unsettled :
    unsettled.align.outcome = .ok unsettledAligned ∧
      (unsettledAligned.Coherent ↔ unsettled.CoherentBy Expr.alignedTy) ∧
      settled.EveryExpr Expr.NodeSettled ∧
      ∃ aligned, settled.align.outcome = .ok aligned ∧ (aligned.Coherent ↔ settled.Coherent) :=
  ⟨rfl, (coherent_align_iff rfl).1, everyExpr_settled, _, rfl,
    (coherent_align_iff rfl).2 everyExpr_settled⟩

/-- As recorded every sum and every reference of the circuit agrees with what it is over. -/
theorem coherent_unsettled : unsettled.Coherent := by
  intro m found body present
  obtain rfl := List.mem_singleton.mp found
  cases present
  simp [Stmt.CoherentBy, Stmt.AllCoherentBy, Stmt.declare, Expr.coherentBy_prim_iff,
    NodeTypes.nodeTy?, List.lookup_cons, Expr.NodeCoherent, List.forall₂_cons_left_iff,
    Ty.hasPoint_interval_iff, Expr.ty]
  rfl

/-- Alignment does not keep every coherent circuit coherent. -/
theorem coherent_not_kept :
    unsettled.Coherent ∧ unsettled.align.outcome = .ok unsettledAligned ∧
      ¬ unsettledAligned.Coherent := by
  refine ⟨coherent_unsettled, rfl, fun coherent => ?_⟩
  have body := coherent _ List.mem_cons_self _ rfl
  simp only [Stmt.CoherentBy, Stmt.AllCoherentBy, Stmt.declare, Expr.coherentBy_prim_iff] at body
  obtain ⟨-, ⟨sum, -⟩, -⟩ := body
  obtain ⟨t, same, point⟩ := sum (.inl rfl) [.ofNat 2, .ofNat 2] nofun
    (.cons ⟨_, rfl, rfl⟩ (.cons ⟨_, rfl, rfl⟩ .nil))
  cases same
  exact absurd point (by decide)

end Circuit

end IntervalHdl
