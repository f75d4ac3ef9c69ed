import IntervalHdl.Proofs.Alignment.Coherence
import IntervalHdl.Proofs.Alignment.Points
import IntervalHdl.Proofs.Removal.Identity

/-!
# Alignment is idempotent

Aligning an aligned circuit changes nothing and inserts no rescale (`Circuit.align_idempotent`).
That operands meet is not enough for this: saturations, wraps and selections are recorded anew even
where their operands meet already, so their results have to be recorded as they would be again. What
is carried through the rewriting is therefore that alignment leaves the node alone
(`Expr.Stays`). Rescales put on top of a node later leave it as it is, and stay themselves.
-/

namespace IntervalHdl
set_option autoImplicit false

open Reported

@[simp] theorem Reported.ofExcept_ok {ε α : Type} (a : α) :
    (ofExcept (.ok a) : Reported ε α) = pure a := rfl

namespace Operator

@[simp] theorem repoint_repoint (op : Operator) (p q : BitCount) (ty : Ty) :
    op.repoint q (op.repoint p ty) = op.repoint q ty := by
  cases op <;> cases ty <;> rfl

end Operator

namespace Expr

/-- Alignment leaves the node itself as it is, and reports nothing. -/
def Stays (e : Expr) : Prop := alignNode e = pure e

theorem recordedPoint_of_hasPoint {e : Expr} {p : BitCount} (recorded : e.ty.HasPoint p) :
    e.recordedPoint = .ok p := recordedPoint_eq_ok_iff.mpr recorded

/-- There is nothing to rescale at the point itself. -/
theorem rescale_of_hasPoint {e : Expr} {p : BitCount} (recorded : e.ty.HasPoint p) :
    e.rescale p = pure e := by
  obtain ⟨t, ty, point⟩ := recorded
  simp only [rescale, ty, Interval.knownPoint_eq_ok_iff.mpr point, ofExcept_ok, pure_bind, if_true]

section Meeting

variable {op : Operator} {args : List Expr} {p : BitCount}
  (recorded : ∀ arg ∈ args, arg.ty.HasPoint p)
include recorded

theorem meets_of_hasPoint (common : op.needsCommonPoint = true) (nonempty : args ≠ []) :
    meets op args = true := by
  have intervals : args.all (·.ty.isInterval) = true :=
    List.all_eq_true.mpr fun arg found => (recorded arg found).isInterval
  simp [meets, common, nonempty, intervals]

/-- An operator whose operands are at one point, and whose result is recorded for that point. -/
theorem alignPrim_of_hasPoint (consts : List Int) (ty : Ty) (common : meets op args = true) :
    alignPrim op args consts (op.repoint p ty) = pure (.prim op args consts (op.repoint p ty)) := by
  have stays : op ≠ .setp := by
    rintro rfl
    cases (meets_setp args).symm.trans common
  have nonempty : args ≠ [] := by
    rintro rfl
    simp [meets] at common
  have points : args.mapM recordedPoint = .ok (args.map fun _ => p) := by
    rw [mapM_congr fun arg found => recordedPoint_of_hasPoint (recorded arg found)]
    exact List.mapM_pure
  have greatest : (args.map fun _ => p).foldl max (.ofNat 0) = p :=
    commonPoint_of_forall (by simpa using nonempty) (by simp)
  have unmoved : args.mapM (rescale p) = pure args :=
    mapM_eq_self fun arg found => rescale_of_hasPoint (recorded arg found)
  simp only [alignPrim, if_neg stays, if_pos common, points, ofExcept_ok, pure_bind, greatest,
    unmoved, Operator.repoint_repoint]

end Meeting

/-- A rescale stays where it was put, over an expression that stays. -/
theorem everywhere_stays_of_rescaled {target : BitCount} {e e' : Expr} (all : e.Everywhere Stays)
    (moved : Rescaled target e e') : e'.Everywhere Stays := by
  cases moved with
  | same => exact all
  | @moved t p ty point apart =>
    refine everywhere_prim_iff.mpr ⟨?_, by simpa using all⟩
    unfold rescaleStep
    split <;> rfl

/-- An aligned node stays, and so does what is below it. -/
theorem everywhere_stays_of_nodeAligned {node e' : Expr}
    (inside : ∀ child ∈ node.children, child.Everywhere Stays)
    (aligned : NodeAligned node e') : e'.Everywhere Stays := by
  cases aligned with
  | setp ty amount moved => exact everywhere_stays_of_rescaled (inside _ List.mem_cons_self) moved
  | @meet op args args' points consts ty common recorded moved =>
    have atCommon : ∀ arg ∈ args', arg.ty.HasPoint (commonPoint points) :=
      forall_mem_of_forall₂ moved fun _ _ _ => Rescaled.hasPoint
    simp only [meets, Bool.and_eq_true, Bool.not_eq_true', List.isEmpty_eq_false_iff] at common
    obtain ⟨⟨needs, nonempty⟩, -⟩ := common
    have nonempty' : args' ≠ [] := by
      rintro rfl
      cases moved
      exact nonempty rfl
    refine everywhere_prim_iff.mpr ⟨?_, ?_⟩
    · exact alignPrim_of_hasPoint atCommon consts ty (meets_of_hasPoint atCommon needs nonempty')
    · exact forall_mem_of_forall₂ moved fun arg found _ =>
        everywhere_stays_of_rescaled (inside arg found)
  | keep consts ty stays apart =>
    refine everywhere_prim_iff.mpr ⟨?_, inside⟩
    simp only [Stays, alignNode, alignPrim, if_neg stays, apart]
    rfl
  | @select tval fval tval' fval' p q cond t left right tmoved fmoved =>
    refine everywhere_mux_iff.mpr ⟨?_, inside cond (by simp [children]), ?_, ?_⟩
    · have atMax : max (max p q) (max p q) = max p q := BitCount.ext (by simp)
      simp only [Stays, alignNode, alignMux, recordedPoint_of_hasPoint tmoved.hasPoint,
        recordedPoint_of_hasPoint fmoved.hasPoint, ofExcept_ok, pure_bind, atMax,
        rescale_of_hasPoint tmoved.hasPoint, rescale_of_hasPoint fmoved.hasPoint,
        Interval.atPoint_atPoint]
    · exact everywhere_stays_of_rescaled (inside tval (by simp [children])) tmoved
    · exact everywhere_stays_of_rescaled (inside fval (by simp [children])) fmoved
  | other plain unmoved =>
    refine ⟨?_, inside⟩
    cases node with
    | prim => cases plain
    | mux cond tval fval ty =>
      cases ty with
      | interval => exact (unmoved trivial).elim
      | _ => rfl
    | _ => rfl

/-- In an aligned expression every node stays. -/
theorem everywhere_stays_of_align {e e' : Expr} (done : e.align.outcome = .ok e') :
    e'.Everywhere Stays := by
  refine align_rel (R := fun _ e' => e'.Everywhere Stays) (fun e node e' rebuilt aligned => ?_) done
  exact everywhere_stays_of_nodeAligned
    (forall_mem_of_forall₂ rebuilt.children fun _ _ _ all => all) aligned

/-- An expression whose nodes stay is aligned as it is. -/
theorem align_of_stays {e : Expr} (all : e.Everywhere Stays) : e.align = pure e :=
  replaceUpM_of_everywhere all

/-- An aligned expression is aligned again to itself. -/
theorem align_of_align {e e' : Expr} (done : e.align.outcome = .ok e') : e'.align = pure e' :=
  align_of_stays (everywhere_stays_of_align done)

/-- A value that was fitted to a location fits it. -/
theorem fitTo_of_fitted {loc value value' : Expr} (fitted : Fitted loc value value') :
    loc.fitTo value' = pure value' := by
  cases fitted with
  | interval target moved =>
    obtain ⟨t, ty, point⟩ := target
    simp only [fitTo, ty, Interval.knownPoint_eq_ok_iff.mpr point, ofExcept_ok, pure_bind,
      rescale_of_hasPoint moved.hasPoint]
  | plain target =>
    unfold fitTo
    split
    · rename_i t ty
      rw [ty] at target
      cases target
    · rfl

/-- An aligned value stays when it was fitted to a location. -/
theorem align_of_fitted {loc value value' value'' : Expr} (done : value.align.outcome = .ok value')
    (fitted : Fitted loc value' value'') : value''.align = pure value'' := by
  refine align_of_stays ?_
  cases fitted with
  | interval _ moved => exact everywhere_stays_of_rescaled (everywhere_stays_of_align done) moved
  | plain => exact everywhere_stays_of_align done

end Expr

namespace Stmt

/-- An aligned statement is aligned again to itself. -/
theorem align_of_align {s s' : Stmt} (done : s.align.outcome = .ok s') : s'.align = pure s' := by
  induction s generalizing s' with
  | wire | skip =>
    cases stmtAligned_of_align done
    rfl
  | reg name ty clock reset =>
    cases stmtAligned_of_align done with
    | reg _ _ clockDone =>
      simp only [align, mapExprsM, Expr.align_of_align clockDone, pure_bind]
    | regReset _ _ clockDone signalDone initDone =>
      simp only [align, mapExprsM, Expr.align_of_align clockDone,
        Expr.align_of_align signalDone, Expr.align_of_align initDone, pure_bind]
  | node name value =>
    cases stmtAligned_of_align done with
    | node _ valueDone => simp only [align, Expr.align_of_align valueDone, pure_bind]
  | connect loc value =>
    cases stmtAligned_of_align done with
    | connect locDone valueDone fitted =>
      simp only [align, Expr.align_of_align locDone, Expr.align_of_fitted valueDone fitted,
        Expr.fitTo_of_fitted fitted, pure_bind]
  | partialConnect loc value =>
    cases stmtAligned_of_align done with
    | partialConnect locDone valueDone fitted =>
      simp only [align, Expr.align_of_align locDone, Expr.align_of_fitted valueDone fitted,
        Expr.fitTo_of_fitted fitted, pure_bind]
  | when cond conseq alt conseqIh altIh =>
    cases stmtAligned_of_align done with
    | when condDone conseqDone altDone =>
      simp only [align, Expr.align_of_align condDone, conseqIh conseqDone, altIh altDone, pure_bind]
  | block stmts ih =>
    cases stmtAligned_of_align done with
    | @block _ stmts' each =>
      have inner : stmts'.mapM align = pure stmts' :=
        mapM_eq_self (forall_mem_of_forall₂ each fun s found _ => ih s found)
      simp only [align, alignAll_eq_mapM, inner, pure_bind]
  | invalid loc =>
    cases stmtAligned_of_align done with
    | invalid locDone => simp only [align, Expr.align_of_align locDone, pure_bind]

end Stmt

/-- A module with an aligned body is aligned to itself, and nothing is counted. -/
theorem Module.yields_align_of_body {m : Module}
    (aligned : ∀ body ∈ m.body?, body.align = pure body) : m.align.Yields m {} := by
  rw [align, yields_tell_bind_iff, mapBodyM_of_free aligned, yields_pure_iff]
  exact ⟨rfl, rfl⟩

namespace Circuit

/-- An aligned circuit is aligned again to itself, type for type, whoever keeps the account, and no
rescale is inserted. -/
theorem align_idempotent {c c' : Circuit} (done : c.align.outcome = .ok c') :
    ∀ a : Aligner, (a.run c').1 = a ∧ (a.run c').2.outcome = .ok c' := by
  have modules : ∀ m ∈ c'.modules, m.align.Yields m {} := by
    refine forall_mem_of_forall₂ (align_eq_ok_iff.mp done).2 fun m _ m' ⟨_, _, body⟩ => ?_
    refine Module.yields_align_of_body fun body' present => ?_
    rw [Option.mem_def.mp present] at body
    generalize m.body? = body? at body
    cases body with
    | some done => exact Stmt.align_of_align done
  have again : c'.align.Yields c' {} := mapModulesM_of_free modules
  intro a
  refine ⟨?_, again.outcome⟩
  simp only [Aligner.run, Aligner.after, again.tally]
  rfl

/-- The first alignment of a circuit inserts four rescales, the second none. -/
theorem align_idempotent_unaligned :
    ∃ c', unaligned.align.outcome = .ok c' ∧ (Aligner.run {} unaligned).1.rescales = 4 ∧
      (Aligner.run {} c').2.outcome = .ok c' ∧ (Aligner.run {} c').1.rescales = 0 := by
  have done : unaligned.align.outcome = .ok _ := rfl
  obtain ⟨account, same⟩ := align_idempotent done {}
  exact ⟨_, done, rfl, same, congrArg Aligner.rescales account⟩

end Circuit

end IntervalHdl
