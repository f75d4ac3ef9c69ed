import IntervalHdl.Proofs.Alignment.Steps
import IntervalHdl.Proofs.Lowering.Steps
import IntervalHdl.Proofs.Removal.Verification
import IntervalHdl.Proofs.Typing.Bodies

/-!
# Where expressions go

A removal is a translation of circuits: statements stay, declared types are lowered, and every
expression becomes what alignment, lowering and inference make of it in its scope
(`Circuit.translated_of_removeIntervals`). The same holds inside an expression. Each subexpression
that is not dropped, as the second operand of a saturation or a wrap is, occurs in the result as
what the three make of it alone (`Expr.Becomes.within`).
-/

namespace IntervalHdl
set_option autoImplicit false

open Reported

namespace Expr

/-- The first expression occurs in the second. -/
inductive Within (x : Expr) : Expr → Prop where
  | here : Within x x
  | inside {e child : Expr} (present : child ∈ e.children) (within : Within x child) : Within x e

/-- The subexpressions that a removal keeps. Saturations and wraps need only the recorded type of
their second operand. -/
def keptChildren : Expr → List Expr
  | .prim op args consts ty =>
    if op = .clip ∨ op = .wrap then args.take 1 else (Expr.prim op args consts ty).children
  | e => e.children

/-- The first expression occurs in the second, where a removal keeps it. -/
inductive Kept (x : Expr) : Expr → Prop where
  | here : Kept x x
  | inside {e child : Expr} (present : child ∈ e.keptChildren) (kept : Kept x child) : Kept x e

/-- What lies within a part lies within the whole. -/
theorem Within.trans {x y z : Expr} (inner : x.Within y) (outer : y.Within z) : x.Within z := by
  induction outer with
  | here => exact inner
  | inside present _ ih => exact .inside present ih

/-- What holds throughout an expression holds throughout what lies within it. -/
theorem Within.of_everywhere {P : Expr → Prop} {x e : Expr} (within : x.Within e)
    (all : e.Everywhere P) : x.Everywhere P := by
  induction within with
  | here => exact all
  | inside present _ ih => exact ih (all.inside _ present)

/-- What is kept of a part is kept of the whole. -/
theorem Kept.trans {x y z : Expr} (inner : x.Kept y) (outer : y.Kept z) : x.Kept z := by
  induction outer with
  | here => exact inner
  | inside present _ ih => exact .inside present ih

/-! ## Alignment -/

/-- The children that survive lowering are rebuilt in their places. -/
theorem Rebuilt.keptChildren {R : Expr → Expr → Prop} {e e' : Expr} (rebuilt : Rebuilt R e e') :
    List.Forall₂ R e.keptChildren e'.keptChildren := by
  cases rebuilt with
  | prim op consts ty args =>
    simp only [Expr.keptChildren]
    split
    · exact List.forall₂_take 1 args
    · exact args
  | ref | uint | sint => exact .nil
  | field _ _ parent | index _ _ parent => exact .cons parent .nil
  | mux _ cond tval fval => exact .cons cond (.cons tval (.cons fval .nil))

/-- A value that is moved to another point is kept in what it becomes. -/
theorem Rescaled.kept {p : BitCount} {e e' : Expr} (moved : Rescaled p e e') : e.Kept e' := by
  cases moved with
  | same => exact .here
  | moved =>
    refine .inside ?_ .here
    unfold rescaleStep
    split <;> exact List.mem_singleton_self e

/-- An aligned node keeps what the node keeps. -/
theorem NodeAligned.kept {e e' child : Expr} (aligned : NodeAligned e e')
    (present : child ∈ e.keptChildren) : child.Kept e' := by
  cases aligned with
  | setp ty amount moved =>
    obtain rfl := List.mem_singleton.mp present
    exact moved.kept
  | @meet op args args' points consts ty common recorded moved =>
    have each : List.Forall₂ (Rescaled (commonPoint points))
        (Expr.prim op args consts ty).keptChildren
        (Expr.prim op args' consts (op.repoint (commonPoint points) ty)).keptChildren := by
      simp only [keptChildren]
      split
      · exact List.forall₂_take 1 moved
      · exact moved
    obtain ⟨child', present', moved'⟩ := mem_exists_of_forall₂ each present
    exact .inside present' moved'.kept
  | keep | other => exact .inside present .here
  | @select tval fval tval' fval' p q cond t left right tmoved fmoved =>
    have each : List.Forall₂ (fun child child' => child.Kept child') [cond, tval, fval]
        [cond, tval', fval'] :=
      .cons .here (.cons tmoved.kept (.cons fmoved.kept .nil))
    obtain ⟨child', present', kept⟩ := mem_exists_of_forall₂ each present
    exact .inside present' kept

/-- What is kept of an expression is aligned by itself, and kept of the aligned expression. -/
theorem Kept.align {x e a : Expr} (kept : x.Kept e) (done : e.align.outcome = .ok a) :
    ∃ x', x.align.outcome = .ok x' ∧ x'.Kept a := by
  induction kept generalizing a with
  | here => exact ⟨a, done, .here⟩
  | inside present _ ih =>
    obtain ⟨node, rebuilt, aligned⟩ := align_eq_ok_iff.mp done
    obtain ⟨child', present', childDone⟩ := mem_exists_of_forall₂ rebuilt.keptChildren present
    obtain ⟨x', xDone, kept'⟩ := ih childDone
    exact ⟨x', xDone, kept'.trans (aligned.kept present')⟩

/-! ## Lowering -/

theorem Within.operand {x a : Expr} {op : Operator} {args : List Expr} {consts : List Int} {ty : Ty}
    (within : x.Within a) : x.Within (.prim op (a :: args) consts ty) :=
  .inside List.mem_cons_self within

theorem Within.fval {x f : Expr} {c t : Expr} {ty : Ty} (within : x.Within f) :
    x.Within (.mux c t f ty) :=
  .inside (List.mem_cons_of_mem _ (List.mem_cons_of_mem _ List.mem_cons_self)) within

/-- A value lies within its saturation. -/
theorem within_saturated (check : RangeCheck) (value : Expr) (action : SaturateAction) :
    value.Within (.saturated check value action) := by
  cases action with
  | passThrough => exact .here
  | clampLow | clampHigh => exact Within.here.fval
  | clampBoth => exact Within.here.fval.fval

/-- A value lies within its wrap. -/
theorem within_wrapped (check : RangeCheck) (value : Expr) (action : WrapAction) :
    value.Within (.wrapped check value action) := by
  cases action with
  | passThrough => exact .here
  | correctLow | correctHigh => exact Within.here.fval
  | correctBoth => exact Within.here.fval.fval
  | remainder =>
    -- the value stands in the difference that the remainder is taken of
    have residue : value.Within (.untyped .rem [.minus value (.minimalSInt check.lo),
        Expr.wrapped.modulus check] []) := Within.here.operand.operand
    exact residue.fval.operand

end Expr

/-- A lowered operator holds the operands that it keeps. -/
theorem Operator.within_lower {warn : Bool} {op : Operator} {operands : List Operand}
    {consts : List Int} {ty : Ty} {e : Expr}
    (done : (op.lower warn operands consts ty).outcome = .ok e) :
    ∀ o ∈ if op = .clip ∨ op = .wrap then operands.take 1 else operands, o.value.Within e := by
  cases op with
  | clip =>
    obtain ⟨a, b, lo, hi, inLo, inHi, rfl, -, -, rfl⟩ := Operand.lowerClip_eq_ok_iff.mp done
    exact List.forall_mem_singleton.mpr (Expr.within_saturated _ _ _)
  | wrap =>
    obtain ⟨a, b, rfl, byWidth | byRange⟩ := Operand.lowerWrap_eq_ok_iff.mp done
    · obtain ⟨w, -, done⟩ := byWidth
      obtain ⟨n, -, -, rfl⟩ := Operand.lowerWidthWrap_eq_ok_iff.mp done
      exact List.forall_mem_singleton.mpr Expr.Within.here.operand.operand
    · obtain ⟨lo, hi, -, done⟩ := byRange
      obtain ⟨inLo, inHi, -, rfl⟩ := Operand.lowerWrapInto_eq_ok_iff.mp done
      exact List.forall_mem_singleton.mpr (Expr.within_wrapped _ _ _)
  | asInterval =>
    obtain ⟨a, rfl, -, rfl⟩ := Operand.lowerCast_eq_ok_iff.mp done
    refine List.forall_mem_singleton.mpr ?_
    split
    · exact Expr.Within.here.operand.operand
    · exact Expr.Within.here.operand
  | incp | decp =>
    obtain ⟨a, rfl, rfl⟩ := Operand.lowerShift_eq_ok_iff.mp done
    exact List.forall_mem_singleton.mpr Expr.Within.here.operand
  | setp => cases done
  | _ =>
    rw [Operator.lower_of_generic rfl] at done
    simp only [bind_outcome_eq_ok_iff, outcome_pure, Except.ok.injEq] at done
    obtain ⟨_, -, rfl⟩ := done
    intro o present
    exact .inside (List.mem_map_of_mem present) .here

namespace Expr

/-- An operator is lowered exactly when its operands are, and then it over them. -/
theorem lower_prim_eq_ok_iff {warn : Bool} {op : Operator} {args : List Expr} {consts : List Int}
    {ty : Ty} {l : Expr} :
    ((Expr.prim op args consts ty).lower warn).outcome = .ok l ↔
      ∃ operands, List.Forall₂ (fun e (o : Operand) => (e.lower warn).outcome = .ok o.value ∧
          o.recorded = e.ty) args operands ∧
        (op.lower warn operands consts ty).outcome = .ok l := by
  simp only [lower, bind_outcome_eq_ok_iff, lowerOperands_outcome_eq_ok_iff]

/-- What is kept of an expression is lowered by itself, and occurs in the lowered expression. -/
theorem Kept.lower {warn : Bool} {x a l : Expr} (kept : x.Kept a)
    (done : (a.lower warn).outcome = .ok l) :
    ∃ x', (x.lower warn).outcome = .ok x' ∧ x'.Within l := by
  induction kept generalizing l with
  | here => exact ⟨l, done, .here⟩
  | @inside e child present _ ih =>
    cases e with
    | ref | uint | sint => cases present
    | field parent name ty | index parent position ty =>
      obtain rfl := List.mem_singleton.mp present
      simp only [Expr.lower, bind_outcome_eq_ok_iff, outcome_pure, Except.ok.injEq] at done
      obtain ⟨parent', parentDone, _, -, rfl⟩ := done
      obtain ⟨x', xDone, within⟩ := ih parentDone
      exact ⟨x', xDone, .inside List.mem_cons_self within⟩
    | mux cond tval fval ty =>
      simp only [Expr.lower, bind_outcome_eq_ok_iff, outcome_pure, Except.ok.injEq] at done
      obtain ⟨cond', condDone, tval', tvalDone, fval', fvalDone, _, -, rfl⟩ := done
      have each : List.Forall₂ (fun e e' => (e.lower warn).outcome = .ok e') [cond, tval, fval]
          [cond', tval', fval'] := .cons condDone (.cons tvalDone (.cons fvalDone .nil))
      obtain ⟨child', present', childDone⟩ := mem_exists_of_forall₂ each present
      obtain ⟨x', xDone, within⟩ := ih childDone
      exact ⟨x', xDone, .inside present' within⟩
    | prim op args consts ty =>
      obtain ⟨operands, each, opDone⟩ := lower_prim_eq_ok_iff.mp done
      have keptEach : List.Forall₂
          (fun e (o : Operand) => (e.lower warn).outcome = .ok o.value ∧ o.recorded = e.ty)
          (Expr.prim op args consts ty).keptChildren
          (if op = .clip ∨ op = .wrap then operands.take 1 else operands) := by
        simp only [keptChildren]
        split
        · exact List.forall₂_take 1 each
        · exact each
      obtain ⟨operand, present', childDone, -⟩ := mem_exists_of_forall₂ keptEach present
      obtain ⟨x', xDone, within⟩ := ih childDone
      exact ⟨x', xDone, within.trans (Operator.within_lower opDone operand present')⟩

/-! ## Inference -/

/-- Typing a node leaves its children alone. -/
theorem children_of_inferNode {s : Scope} {node e : Expr} (done : inferNode s node = .ok e) :
    e.children = node.children := by
  obtain ⟨ty, rfl⟩ := retyped_of_inferNode done
  exact children_retyped ty node

/-- What occurs in an expression is typed by itself, and occurs in the typed expression. -/
theorem Within.infer {s : Scope} {x l e : Expr} (within : x.Within l) (done : l.infer s = .ok e) :
    ∃ x', x.infer s = .ok x' ∧ x'.Within e := by
  induction within generalizing e with
  | here => exact ⟨e, done, .here⟩
  | inside present _ ih =>
    obtain ⟨node, rebuilt, nodeDone⟩ := infer_eq_ok_iff.mp done
    obtain ⟨child', present', childDone⟩ := mem_exists_of_forall₂ rebuilt.children present
    obtain ⟨x', xDone, within'⟩ := ih childDone
    rw [← children_of_inferNode nodeDone] at present'
    exact ⟨x', xDone, .inside present' within'⟩

/-! ## The stages together -/

/-- What the three stages make of an expression in a scope. -/
def Removed (warn : Bool) (s : Scope) (e e' : Expr) : Prop :=
  ∃ a l, e.align.outcome = .ok a ∧ (a.lower warn).outcome = .ok l ∧ l.infer s = .ok e'

/-- The stages of a removal come to one expression at most. -/
theorem Removed.unique {warn : Bool} {s : Scope} {a z z' : Expr} (done : Removed warn s a z)
    (done' : Removed warn s a z') : z = z' := by
  obtain ⟨_, _, aligned, lowered, typed⟩ := done
  obtain ⟨_, _, aligned', lowered', typed'⟩ := done'
  cases aligned.symm.trans aligned'
  cases lowered.symm.trans lowered'
  exact Except.ok.inj (typed.symm.trans typed')

/-- What they make of an expression of a statement, where a connection may move the aligned value to
the point of its location. -/
def Becomes (warn : Bool) (s : Scope) (e e' : Expr) : Prop :=
  ∃ a m l, e.align.outcome = .ok a ∧ (m = a ∨ ∃ p, a.Rescaled p m) ∧
    (m.lower warn).outcome = .ok l ∧ l.infer s = .ok e'

/-- A fitted value is the value, or the value moved to the point of its location. -/
theorem Fitted.moved {loc value value' : Expr} (fitted : loc.Fitted value value') :
    value' = value ∨ ∃ p, value.Rescaled p value' := by
  cases fitted with
  | interval _ moved => exact .inr ⟨_, moved⟩
  | plain => exact .inl rfl

/-- What a removal keeps of an expression occurs in the result as what the stages make of it
alone. -/
theorem Becomes.within {warn : Bool} {s : Scope} {e e' x : Expr} (done : Becomes warn s e e')
    (kept : x.Kept e) : ∃ x', Removed warn s x x' ∧ x'.Within e' := by
  obtain ⟨a, m, l, aligned, moved, lowered, typed⟩ := done
  obtain ⟨xa, xAligned, keptAligned⟩ := kept.align aligned
  have keptMoved : xa.Kept m := by
    rcases moved with rfl | ⟨p, moved⟩
    · exact keptAligned
    · exact keptAligned.trans moved.kept
  obtain ⟨xl, xLowered, within⟩ := keptMoved.lower lowered
  obtain ⟨x', xTyped, within'⟩ := within.infer typed
  exact ⟨x', ⟨xa, xl, xAligned, xLowered, xTyped⟩, within'⟩

end Expr

section Statements

variable {warn : Bool} {R : Scope → Expr → Expr → Prop}

/-- Alignment, lowering and inference of a statement are one translation, by whatever holds of what
expressions become. -/
theorem Stmt.translated_of_stages (each : ∀ s e e', Expr.Becomes warn s e e' → R s e e')
    {s behind : Scope} {stmt aligned lowered stmt' : Stmt}
    (alignDone : stmt.align.outcome = .ok aligned)
    (lowerDone : (aligned.lower warn).outcome = .ok lowered)
    (typed : Stmt.Translated Eq (fun s e e' => e.infer s = .ok e') s lowered stmt' behind) :
    Stmt.Translated (fun ty ty' => ty.lower.outcome = .ok ty') R s stmt stmt' behind := by
  have becomes {s : Scope} {e a l e' : Expr} (alignDone : e.align.outcome = .ok a)
      (lowerDone : (a.lower warn).outcome = .ok l) (typed : l.infer s = .ok e') : R s e e' :=
    each s e e' ⟨a, a, l, alignDone, .inl rfl, lowerDone, typed⟩
  have stored {s : Scope} {loc e a m l e' : Expr} (alignDone : e.align.outcome = .ok a)
      (fitted : loc.Fitted a m) (lowerDone : (m.lower warn).outcome = .ok l)
      (typed : l.infer s = .ok e') : R s e e' :=
    each s e e' ⟨a, m, l, alignDone, fitted.moved, lowerDone, typed⟩
  induction stmt generalizing s aligned lowered stmt' behind with
  | wire name ty =>
    cases Stmt.stmtAligned_of_align alignDone
    simp only [lower, bind_outcome_eq_ok_iff, outcome_pure, Except.ok.injEq] at lowerDone
    obtain ⟨ty', tyDone, rfl⟩ := lowerDone
    cases typed with
    | wire _ same => exact .wire name (same ▸ tyDone)
  | reg name ty clock reset =>
    cases Stmt.stmtAligned_of_align alignDone with
    | reg _ _ clockAligned =>
      simp only [lower, mapExprsM, bind_outcome_eq_ok_iff, outcome_pure, Except.ok.injEq]
        at lowerDone
      obtain ⟨ty', tyDone, clock', clockDone, rfl⟩ := lowerDone
      cases typed with
      | reg _ same clockTyped =>
        subst same
        exact .reg name tyDone (becomes clockAligned clockDone clockTyped)
    | regReset _ _ clockAligned signalAligned initAligned =>
      simp only [lower, mapExprsM, bind_outcome_eq_ok_iff, outcome_pure, Except.ok.injEq]
        at lowerDone
      obtain ⟨ty', tyDone, clock', clockDone, signal', signalDone, init', initDone, rfl⟩ :=
        lowerDone
      cases typed with
      | regReset _ same clockTyped signalTyped initTyped =>
        subst same
        exact .regReset name tyDone (becomes clockAligned clockDone clockTyped)
          (becomes signalAligned signalDone signalTyped) (becomes initAligned initDone initTyped)
  | node name value =>
    cases Stmt.stmtAligned_of_align alignDone with
    | node _ valueAligned =>
      simp only [lower, bind_outcome_eq_ok_iff, outcome_pure, Except.ok.injEq] at lowerDone
      obtain ⟨value', valueDone, rfl⟩ := lowerDone
      cases typed with
      | node _ valueTyped => exact .node name (becomes valueAligned valueDone valueTyped)
  | connect loc value =>
    cases Stmt.stmtAligned_of_align alignDone with
    | connect locAligned valueAligned fitted =>
      simp only [lower, bind_outcome_eq_ok_iff, outcome_pure, Except.ok.injEq] at lowerDone
      obtain ⟨loc', locDone, value', valueDone, rfl⟩ := lowerDone
      cases typed with
      | connect locTyped valueTyped =>
        exact .connect (becomes locAligned locDone locTyped)
          (stored valueAligned fitted valueDone valueTyped)
  | partialConnect loc value =>
    cases Stmt.stmtAligned_of_align alignDone with
    | partialConnect locAligned valueAligned fitted =>
      simp only [lower, bind_outcome_eq_ok_iff, outcome_pure, Except.ok.injEq] at lowerDone
      obtain ⟨loc', locDone, value', valueDone, rfl⟩ := lowerDone
      cases typed with
      | partialConnect locTyped valueTyped =>
        exact .partialConnect (becomes locAligned locDone locTyped)
          (stored valueAligned fitted valueDone valueTyped)
  | when cond conseq alt conseqIh altIh =>
    cases Stmt.stmtAligned_of_align alignDone with
    | when condAligned conseqAligned altAligned =>
      simp only [lower, bind_outcome_eq_ok_iff, outcome_pure, Except.ok.injEq] at lowerDone
      obtain ⟨conseq', conseqDone, alt', altDone, cond', condDone, rfl⟩ := lowerDone
      cases typed with
      | when condTyped conseqTyped altTyped =>
        exact .when (becomes condAligned condDone condTyped)
          (conseqIh conseqAligned conseqDone conseqTyped) (altIh altAligned altDone altTyped)
  | block stmts ih =>
    cases Stmt.stmtAligned_of_align alignDone with
    | @block _ aligneds eachAligned =>
      simp only [lower, lowerAll_eq_mapM, bind_outcome_eq_ok_iff, mapM_outcome_eq_ok_iff,
        outcome_pure, Except.ok.injEq] at lowerDone
      obtain ⟨lowereds, eachLowered, rfl⟩ := lowerDone
      cases typed with
      | block chain =>
        refine .block ?_
        clear alignDone
        induction chain generalizing stmts aligneds with
        | nil =>
          cases eachLowered
          cases eachAligned
          exact .nil _
        | cons headTyped _ rest =>
          obtain ⟨a, aligneds', headLowered, restLowered, rfl⟩ :=
            List.forall₂_cons_right_iff.mp eachLowered
          obtain ⟨stmt, stmts', headAligned, restAligned, rfl⟩ :=
            List.forall₂_cons_right_iff.mp eachAligned
          exact .cons (ih stmt List.mem_cons_self headAligned headLowered headTyped)
            (rest stmts' (fun stmt found => ih stmt (List.mem_cons_of_mem _ found)) restAligned
              restLowered)
  | invalid loc =>
    cases Stmt.stmtAligned_of_align alignDone with
    | invalid locAligned =>
      simp only [lower, bind_outcome_eq_ok_iff, outcome_pure, Except.ok.injEq] at lowerDone
      obtain ⟨loc', locDone, rfl⟩ := lowerDone
      cases typed with
      | invalid locTyped => exact .invalid (becomes locAligned locDone locTyped)
  | skip =>
    cases Stmt.stmtAligned_of_align alignDone
    cases lowerDone
    cases typed
    exact .skip s

/-- A module is translated by what the stages make of its ports and of every expression of its body.
-/
theorem Module.translated_of_stages (each : ∀ s e e', Expr.Becomes warn s e e' → R s e e')
    {m aligned lowered m' : Module} (name_eq : aligned.name = m.name)
    (ports_eq : aligned.ports = m.ports)
    (body : Option.Rel (fun stmt stmt' => stmt.align.outcome = .ok stmt') m.body? aligned.body?)
    (lowerDone : (aligned.lower warn).outcome = .ok lowered) (typed : lowered.infer = .ok m') :
    Module.Translated (fun ty ty' => ty.lower.outcome = .ok ty') R m m' := by
  obtain ⟨lowered_name, ports, loweredBody⟩ := Module.lower_eq_ok_iff.mp lowerDone
  obtain ⟨typed_name, typed_ports, -⟩ := Module.mapBodyM_eq_ok_iff.mp typed
  have typedBody := (Module.translated_of_infer typed).body
  refine ⟨typed_name.trans (lowered_name.trans name_eq), ?_, ?_⟩
  · rw [typed_ports, ← ports_eq]
    exact ports.imp fun _ _ => Port.lower_eq_ok_iff.mp
  · generalize m.body? = b, aligned.body? = b₁, lowered.body? = b₂, m'.body? = b'
      at body loweredBody typedBody
    cases body with
    | none =>
      cases loweredBody
      cases typedBody
      exact .none
    | some alignDone =>
      cases loweredBody with
      | some lowerDone =>
        cases typedBody with
        | some typed =>
          obtain ⟨behind, typed⟩ := typed
          exact .some ⟨behind, Stmt.translated_of_stages each alignDone lowerDone typed⟩

/-- A removal that succeeds lowers every declared type and makes of every expression what the stages
make of it in its scope. -/
theorem Circuit.translated_of_removeIntervals (each : ∀ s e e', Expr.Becomes true s e e' → R s e e')
    {c d : Circuit} (done : c.removeIntervals.outcome = .ok d) :
    Circuit.Translated (fun ty ty' => ty.lower.outcome = .ok ty') R c d := by
  obtain ⟨aligned, lowered, alignDone, lowerDone, typed⟩ := removeIntervals_eq_ok_iff.mp done
  obtain ⟨aligned_main, aligns⟩ := align_eq_ok_iff.mp alignDone
  obtain ⟨lowered_main, lowers⟩ := lower_eq_ok_iff.mp lowerDone
  obtain ⟨typed_main, types⟩ := mapModulesM_eq_ok_iff.mp typed
  refine ⟨typed_main.trans (lowered_main.trans aligned_main), ?_⟩
  generalize c.modules = ms, aligned.modules = ms₁, lowered.modules = ms₂, d.modules = ms'
    at aligns lowers types
  induction aligns generalizing ms₂ ms' with
  | nil =>
    cases lowers
    cases types
    exact .nil
  | cons alignDone _ ih =>
    cases lowers with
    | cons lowerDone lowers =>
      cases types with
      | cons typed types =>
        obtain ⟨name_eq, ports_eq, body⟩ := alignDone
        exact .cons (Module.translated_of_stages each name_eq ports_eq body lowerDone typed)
          (ih _ _ lowers types)

end Statements

end IntervalHdl
