import IntervalHdl.Proofs.IntervalFreedom
import IntervalHdl.Proofs.Nodes

/-!
# Lowering leaves no interval

Lowering gives a circuit without intervals whenever it succeeds. Operands are lowered before their
operator, and an operator reserved for intervals is replaced by nodes over lowered operands, so the
property holds everywhere in a result as soon as it holds everywhere in the operands.
-/

namespace IntervalHdl
set_option autoImplicit false

open Reported

/-- A lowered type has no interval at any depth. -/
theorem Ty.not_hasInterval_of_lower {t t' : Ty} (done : t.lower.outcome = .ok t') :
    ¬ t'.HasInterval := by
  induction t generalizing t' with
  | uint | sint | clock | unknown =>
    simp only [lower, outcome_pure, Except.ok.injEq] at done
    subst done
    simp
  | interval t =>
    rw [lower_interval_outcome, Interval.lowered_eq_ok_iff] at done
    obtain ⟨_, _, _, -, -, -, rfl⟩ := done
    simp
  | bundle fields ih =>
    obtain ⟨fields', each, rfl⟩ := lower_bundle_eq_ok_iff.mp done
    rw [hasInterval_bundle_iff]
    rintro ⟨f', found, occurs⟩
    exact forall_mem_of_forall₂ (P := fun f' => ¬ f'.ty.HasInterval)
      (lowerFields_outcome_eq_ok_iff.mp each) (fun f found f' step => ih f found step.2.2)
      f' found occurs
  | vector elem size ih =>
    obtain ⟨elem', elemDone, rfl⟩ := lower_vector_eq_ok_iff.mp done
    rw [hasInterval_vector_iff]
    exact ih elemDone

/-! ## Nodes that lowering makes -/

namespace Expr

/-- The expression is put together from given ones by operators for integers and selections, at
types without intervals, and by signed literals of a certain kind. -/
inductive MadeOver (literal : Int → Width → Prop) (given : List Expr) : Expr → Prop where
  | given {e : Expr} (present : e ∈ given) : MadeOver literal given e
  | literal {v : Int} {w : Width} (kind : literal v w) : MadeOver literal given (.sint v w)
  | prim {op : Operator} {args : List Expr} {ty : Ty} (generic : op.isIntervalOnly = false)
    (free : ¬ ty.HasInterval) (consts : List Int)
    (each : ∀ arg ∈ args, MadeOver literal given arg) :
    MadeOver literal given (.prim op args consts ty)
  | mux {cond tval fval : Expr} {ty : Ty} (free : ¬ ty.HasInterval)
    (madeCond : MadeOver literal given cond) (madeTval : MadeOver literal given tval)
    (madeFval : MadeOver literal given fval) : MadeOver literal given (.mux cond tval fval ty)

namespace MadeOver

variable {literal : Int → Width → Prop} {given : List Expr} {a b : Expr}

/-- An operator of one made operand is made. -/
theorem unary {op : Operator} {consts : List Int} (generic : op.isIntervalOnly = false)
    (madeA : MadeOver literal given a) : MadeOver literal given (untyped op [a] consts) :=
  .prim generic (by nofun) _ (List.forall_mem_singleton.mpr madeA)

/-- An operator of two made operands is made. -/
theorem binary {op : Operator} (generic : op.isIntervalOnly = false)
    (madeA : MadeOver literal given a) (madeB : MadeOver literal given b) :
    MadeOver literal given (untyped op [a, b] []) :=
  .prim generic (by nofun) _ (by simpa using ⟨madeA, madeB⟩)

/-- A selection between made expressions is made. -/
theorem select {cond tval fval : Expr} (madeCond : MadeOver literal given cond)
    (madeTval : MadeOver literal given tval) (madeFval : MadeOver literal given fval) :
    MadeOver literal given (Expr.select cond tval fval) :=
  .mux (by nofun) madeCond madeTval madeFval

theorem less (madeA : MadeOver literal given a) (madeB : MadeOver literal given b) :
    MadeOver literal given (Expr.less a b) := binary rfl madeA madeB

theorem greater (madeA : MadeOver literal given a) (madeB : MadeOver literal given b) :
    MadeOver literal given (Expr.greater a b) := binary rfl madeA madeB

theorem plus (madeA : MadeOver literal given a) (madeB : MadeOver literal given b) :
    MadeOver literal given (Expr.plus a b) := binary rfl madeA madeB

theorem minus (madeA : MadeOver literal given a) (madeB : MadeOver literal given b) :
    MadeOver literal given (Expr.minus a b) := binary rfl madeA madeB

/-- A saturation is made over its value, with literals of least width. -/
theorem saturated (minimal : ∀ v, literal v (.known (signedWidth v))) {check : RangeCheck}
    {value : Expr} (made : MadeOver literal given value) (action : SaturateAction) :
    MadeOver literal given (Expr.saturated check value action) := by
  have lo : MadeOver literal given (minimalSInt check.lo) := .literal (minimal _)
  have hi : MadeOver literal given (minimalSInt check.hi) := .literal (minimal _)
  have low := select (made.less lo) lo made
  cases action with
  | passThrough => exact made
  | clampLow => exact low
  | clampHigh => exact select (made.greater hi) hi made
  | clampBoth => exact select (made.greater hi) hi low

/-- A wrap is made over its value, with literals of least width. -/
theorem wrapped (minimal : ∀ v, literal v (.known (signedWidth v))) {check : RangeCheck}
    {value : Expr} (made : MadeOver literal given value) (action : WrapAction) :
    MadeOver literal given (Expr.wrapped check value action) := by
  have lo : MadeOver literal given (minimalSInt check.lo) := .literal (minimal _)
  have hi : MadeOver literal given (minimalSInt check.hi) := .literal (minimal _)
  have modulus : MadeOver literal given (wrapped.modulus check) := .literal (minimal _)
  have low := select (made.less lo) (made.plus modulus) made
  cases action with
  | passThrough => exact made
  | correctLow => exact low
  | correctHigh => exact select (made.greater hi) (made.minus modulus) made
  | correctBoth => exact select (made.greater hi) (made.minus modulus) low
  | remainder =>
    have residue : MadeOver literal given
        (untyped .rem [Expr.minus value (minimalSInt check.lo), wrapped.modulus check] []) :=
      binary rfl (made.minus lo) modulus
    have negative := residue.less (.literal (minimal 0))
    exact plus (select negative (residue.plus modulus) residue) lo

end MadeOver

end Expr

namespace Operand

variable {literal : Int → Width → Prop} {warn : Bool} {operands : List Operand} {e : Expr}

theorem madeOver_head (a : Operand) (rest : List Operand) :
    Expr.MadeOver literal ((a :: rest).map Operand.value) a.value :=
  .given List.mem_cons_self

/-- A lowered cast is made over its operand. -/
theorem madeOver_lowerCast (done : (lowerCast operands).outcome = .ok e) :
    Expr.MadeOver literal (operands.map Operand.value) e := by
  obtain ⟨a, rfl, -, rfl⟩ := lowerCast_eq_ok_iff.mp done
  apply Expr.MadeOver.unary rfl
  split
  · exact .unary rfl (madeOver_head a [])
  · exact madeOver_head a []

/-- A lowered move of the point is made over its operand. -/
theorem madeOver_lowerShift {shift : Operator} {consts : List Int}
    (generic : shift.isIntervalOnly = false)
    (done : (lowerShift shift consts operands).outcome = .ok e) :
    Expr.MadeOver literal (operands.map Operand.value) e := by
  obtain ⟨a, rfl, rfl⟩ := lowerShift_eq_ok_iff.mp done
  exact .unary generic (madeOver_head a [])

variable (minimal : ∀ v, literal v (.known (signedWidth v)))
include minimal

/-- A lowered saturation is made over its first operand. -/
theorem madeOver_lowerClip {result : Ty} (done : (lowerClip result operands).outcome = .ok e) :
    Expr.MadeOver literal (operands.map Operand.value) e := by
  obtain ⟨a, b, lo, hi, inLo, inHi, rfl, -, -, rfl⟩ := lowerClip_eq_ok_iff.mp done
  exact .saturated minimal (madeOver_head a [b]) _

/-- A lowered wrap is made over its first operand. -/
theorem madeOver_lowerWrap (done : (lowerWrap warn operands).outcome = .ok e) :
    Expr.MadeOver literal (operands.map Operand.value) e := by
  obtain ⟨a, b, rfl, form⟩ := lowerWrap_eq_ok_iff.mp done
  rcases form with ⟨w, -, done⟩ | ⟨lo, hi, -, done⟩
  · obtain ⟨n, -, -, rfl⟩ := lowerWidthWrap_eq_ok_iff.mp done
    exact .unary rfl (.unary rfl (madeOver_head a [b]))
  · obtain ⟨inLo, inHi, -, rfl⟩ := lowerWrapInto_eq_ok_iff.mp done
    exact .wrapped minimal (madeOver_head a [b]) _

end Operand

/-- A lowered operator is put together from the operands, with literals at their minimal widths. -/
theorem Operator.madeOver_lower {literal : Int → Width → Prop}
    (minimal : ∀ v, literal v (.known (signedWidth v))) {warn : Bool} {op : Operator}
    {operands : List Operand} {consts : List Int} {ty : Ty} {e : Expr}
    (done : (op.lower warn operands consts ty).outcome = .ok e) :
    Expr.MadeOver literal (operands.map Operand.value) e := by
  cases reserved : op.isIntervalOnly with
  | false =>
    rw [lower_of_generic reserved] at done
    simp only [bind_outcome_eq_ok_iff, outcome_pure, Except.ok.injEq] at done
    obtain ⟨ty', tyDone, rfl⟩ := done
    exact .prim reserved (Ty.not_hasInterval_of_lower tyDone) _ fun arg present => .given present
  | true =>
    cases op with
    | asInterval => exact Operand.madeOver_lowerCast done
    | incp | decp => exact Operand.madeOver_lowerShift rfl done
    | clip => exact Operand.madeOver_lowerClip minimal done
    | wrap => exact Operand.madeOver_lowerWrap minimal done
    | setp => cases done
    | _ => cases reserved

/-- The property holds of the nodes that lowering makes besides the ones it rewrites: literals,
operators for integers and selections, at types without intervals. -/
structure Expr.HoldsOfMade (P : Expr → Prop) : Prop where
  literal (v : Int) : P (minimalSInt v)
  prim {op : Operator} {ty : Ty} (generic : op.isIntervalOnly = false) (free : ¬ ty.HasInterval)
    (args : List Expr) (consts : List Int) : P (.prim op args consts ty)
  mux {ty : Ty} (free : ¬ ty.HasInterval) (cond tval fval : Expr) : P (.mux cond tval fval ty)

/-- What holds of all that is made, and throughout the given expressions, holds throughout what is
made over them. -/
theorem Expr.MadeOver.everywhere {P : Expr → Prop} (holds : HoldsOfMade P) {given : List Expr}
    {e : Expr} (made : MadeOver (fun v w => .known (signedWidth v) = w) given e)
    (inside : ∀ x ∈ given, x.Everywhere P) : e.Everywhere P := by
  induction made with
  | given present => exact inside _ present
  | literal kind => exact everywhere_sint_iff.mpr (kind ▸ holds.literal _)
  | prim generic free consts _ ih =>
    exact everywhere_prim_iff.mpr ⟨holds.prim generic free _ _, ih⟩
  | mux free _ _ _ cond tval fval =>
    exact everywhere_mux_iff.mpr ⟨holds.mux free _ _ _, cond, tval, fval⟩

/-- What holds everywhere in the operands holds everywhere in the lowered operator. -/
theorem Operator.everywhere_lower {P : Expr → Prop} (made : Expr.HoldsOfMade P) {warn : Bool}
    {op : Operator} {operands : List Operand} {consts : List Int} {ty : Ty} {e : Expr}
    (inside : ∀ o ∈ operands, o.value.Everywhere P)
    (done : (op.lower warn operands consts ty).outcome = .ok e) : e.Everywhere P :=
  Expr.MadeOver.everywhere made (madeOver_lower (fun _ => rfl) done)
    (List.forall_mem_map.mpr inside)

/-! ## Freedom -/

/-- No interval anywhere in the expression. -/
abbrev Expr.Free (e : Expr) : Prop := e.Everywhere NodeFree

/-- What is made shows no interval. -/
theorem Expr.holdsOfMade_nodeFree : HoldsOfMade NodeFree where
  literal _ := ⟨nofun, nofun⟩
  prim generic free _ _ := ⟨free, fun _ same => Option.some.inj same ▸ generic⟩
  mux free _ _ _ := ⟨free, nofun⟩

/-- Lowering an expression that it accepts leaves no interval at any position. -/
theorem Expr.free_lower {warn : Bool} {e e' : Expr} (done : (e.lower warn).outcome = .ok e') :
    e'.Free := by
  induction e generalizing e' with
  | uint | sint =>
    cases done
    exact ⟨.plain rfl (by simp [Expr.ty]), by simp [children]⟩
  | ref name ty =>
    simp only [lower, bind_outcome_eq_ok_iff, outcome_pure, Except.ok.injEq] at done
    obtain ⟨ty', tyDone, rfl⟩ := done
    exact ⟨.plain rfl (Ty.not_hasInterval_of_lower tyDone), by simp [children]⟩
  | field parent name ty ih | index parent name ty ih =>
    simp only [lower, bind_outcome_eq_ok_iff, outcome_pure, Except.ok.injEq] at done
    obtain ⟨parent', parentDone, ty', tyDone, rfl⟩ := done
    refine ⟨.plain rfl (Ty.not_hasInterval_of_lower tyDone), ?_⟩
    simpa [children] using ih parentDone
  | prim op args consts ty ih =>
    simp only [lower, bind_outcome_eq_ok_iff] at done
    obtain ⟨operands, argsDone, done⟩ := done
    refine Operator.everywhere_lower holdsOfMade_nodeFree ?_ done
    exact forall_mem_of_forall₂ (lowerOperands_outcome_eq_ok_iff.mp argsDone)
      fun arg found _ step => ih arg found step.1
  | mux cond tval fval ty condIh tvalIh fvalIh =>
    simp only [lower, bind_outcome_eq_ok_iff, outcome_pure, Except.ok.injEq] at done
    obtain ⟨cond', condDone, tval', tvalDone, fval', fvalDone, ty', tyDone, rfl⟩ := done
    refine ⟨.plain rfl (Ty.not_hasInterval_of_lower tyDone), ?_⟩
    simpa [children] using ⟨condIh condDone, tvalIh tvalDone, fvalIh fvalDone⟩

/-- Lowering a statement that it accepts leaves no interval in it, at any nesting. -/
theorem Stmt.free_lower {warn : Bool} {s s' : Stmt} (done : (s.lower warn).outcome = .ok s') :
    s'.Everywhere NodeFree := by
  induction s using ind_stmts generalizing s' with
  | step s ih =>
    have lowered := loweredTo_of_lower done
    refine ⟨⟨fun ty' declared => ?_, ?_⟩, ?_⟩
    · have related := lowered.ty
      rw [Option.mem_def.mp declared] at related
      generalize s.declaredTy? = ty? at related
      cases related with
      | some tyDone => exact Ty.not_hasInterval_of_lower tyDone
    · exact forall_mem_of_forall₂ lowered.exprs fun _ _ _ exprDone => Expr.free_lower exprDone
    · exact forall_mem_of_forall₂ lowered.stmts fun inner found _ step => ih inner found step

/-- Lowering leaves no interval in a circuit, whatever the circuit was. -/
theorem Circuit.intervalFree_of_lower {warn : Bool} {c c' : Circuit}
    (done : (c.lower warn).outcome = .ok c') : c'.IntervalFree := by
  refine forall_mem_of_forall₂ (Circuit.lower_eq_ok_iff.mp done).2 fun m _ m' done => ?_
  obtain ⟨-, ports, body⟩ := Module.lower_eq_ok_iff.mp done
  constructor
  · refine forall_mem_of_forall₂ ports fun p _ p' done => ?_
    exact Ty.not_hasInterval_of_lower (Port.lower_eq_ok_iff.mp done).2.2
  · intro body' present
    rw [Option.mem_def.mp present] at body
    generalize m.body? = body? at body
    cases body with
    | some done => exact Stmt.free_lower done

end IntervalHdl
