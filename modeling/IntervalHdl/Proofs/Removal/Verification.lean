import IntervalHdl.Proofs.Lowering.NoSurvivors

/-!
# Verification never objects

The last step of a removal looks for intervals that are left. No stage before it reports one, and
what reaches it has none, so asking for it or not makes no difference to a run.
-/

namespace IntervalHdl
set_option autoImplicit false

open Reported

/-- The cause is not an interval left in the result. -/
def RemovalError.Staged : RemovalError → Prop
  | .survived _ _ => False
  | _ => True

section Stages

/-- A computation of a stage: it never reports an interval left in the result. -/
abbrev Staged {α : Type} (x : Reported RemovalError α) : Prop :=
  FailsWithin RemovalError.Staged x.outcome

theorem staged_knownPoint (t : Interval) :
    FailsWithin RemovalError.Staged t.knownPoint := by
  unfold Interval.knownPoint
  split
  · exact failsWithin_ok _
  · exact failsWithin_error trivial

namespace Expr

theorem staged_rescale (target : BitCount) (e : Expr) : Staged (e.rescale target) := by
  unfold rescale
  split
  · refine Reported.failsWithin_bind (staged_knownPoint _) fun source => ?_
    split
    · exact failsWithin_ok _
    · exact failsWithin_ok _
  · exact failsWithin_error trivial

theorem staged_recordedPoint (e : Expr) : FailsWithin RemovalError.Staged e.recordedPoint := by
  unfold recordedPoint
  split
  · exact staged_knownPoint _
  · exact failsWithin_error trivial

theorem staged_setPointOperands (args : List Expr) (consts : List Int) :
    FailsWithin RemovalError.Staged (setPointOperands args consts) := by
  unfold setPointOperands
  split
  · split
    · exact failsWithin_ok _
    · exact failsWithin_error trivial
  · exact failsWithin_error trivial

theorem staged_alignPrim (op : Operator) (args : List Expr) (consts : List Int) (ty : Ty) :
    Staged (alignPrim op args consts ty) := by
  unfold alignPrim
  split
  · exact Reported.failsWithin_bind (staged_setPointOperands args consts)
      fun (_, _) => staged_rescale _ _
  · split
    · refine Reported.failsWithin_bind (failsWithin_mapM fun _ _ => staged_recordedPoint _)
        fun points => ?_
      exact Reported.failsWithin_bind (Reported.failsWithin_mapM fun _ _ => staged_rescale _ _)
        fun _ => failsWithin_ok _
    · exact failsWithin_ok _

/-- Aligning a node never reports a survivor. -/
theorem staged_alignNode (e : Expr) : Staged (alignNode e) := by
  unfold alignNode
  split
  · exact staged_alignPrim _ _ _ _
  · refine Reported.failsWithin_bind (staged_recordedPoint _) fun _ => ?_
    refine Reported.failsWithin_bind (staged_recordedPoint _) fun _ => ?_
    refine Reported.failsWithin_bind (staged_rescale _ _) fun _ => ?_
    exact Reported.failsWithin_bind (staged_rescale _ _) fun _ => failsWithin_ok _
  · exact failsWithin_ok _

/-- Aligning an expression never reports a survivor. -/
theorem staged_align (e : Expr) : Staged e.align := failsWithin_replaceUpM staged_alignNode e

theorem staged_fitTo (loc value : Expr) : Staged (loc.fitTo value) := by
  unfold fitTo
  split
  · exact Reported.failsWithin_bind (staged_knownPoint _) fun _ => staged_rescale _ _
  · exact failsWithin_ok _

end Expr

/-- Aligning a statement never reports a survivor. -/
theorem Stmt.staged_align (s : Stmt) : Staged s.align := by
  induction s with
  | wire | skip => exact failsWithin_ok _
  | reg name ty clock reset =>
    rw [align]
    exact failsWithin_mapExprsM Expr.staged_align _
  | node name value =>
    rw [align]
    exact Reported.failsWithin_bind value.staged_align fun _ => failsWithin_ok _
  | connect loc value | partialConnect loc value =>
    rw [align]
    refine Reported.failsWithin_bind loc.staged_align fun loc' => ?_
    refine Reported.failsWithin_bind value.staged_align fun value' => ?_
    exact Reported.failsWithin_bind (loc'.staged_fitTo value') fun _ => failsWithin_ok _
  | when cond conseq alt conseqIh altIh =>
    rw [align]
    refine Reported.failsWithin_bind cond.staged_align fun _ => ?_
    exact Reported.failsWithin_bind conseqIh fun _ =>
      Reported.failsWithin_bind altIh fun _ => failsWithin_ok _
  | block stmts ih =>
    rw [align, alignAll_eq_mapM]
    exact Reported.failsWithin_bind (Reported.failsWithin_mapM ih) fun _ => failsWithin_ok _
  | invalid loc =>
    rw [align]
    exact Reported.failsWithin_bind loc.staged_align fun _ => failsWithin_ok _

/-- Aligning a circuit never reports a survivor. -/
theorem Circuit.staged_align (c : Circuit) : Staged c.align := by
  refine Reported.failsWithin_bind (Reported.failsWithin_mapM fun m _ => ?_) fun _ =>
    failsWithin_ok _
  exact Reported.failsWithin_bind (failsWithin_ok _) fun _ =>
    m.failsWithin_mapBodyM Stmt.staged_align

theorem staged_resolved (t : Interval) : FailsWithin RemovalError.Staged t.resolved := by
  unfold Interval.resolved
  split
  · exact failsWithin_error trivial
  · split
    · exact failsWithin_ok _
    · exact failsWithin_error trivial

/-- An interval without an integer type has an open bound or an unknown point; it is no survivor. -/
theorem staged_lowered (t : Interval) : FailsWithin RemovalError.Staged t.lowered := by
  unfold Interval.lowered
  refine failsWithin_bind (staged_resolved t) fun _ => ?_
  split
  · exact failsWithin_error trivial
  · split
    · exact failsWithin_error trivial
    · exact failsWithin_ok _

/-- Lowering a type never reports a survivor. -/
theorem Ty.staged_lower (t : Ty) : Staged t.lower := by
  induction t with
  | uint | sint | clock | unknown => exact failsWithin_ok _
  | interval t =>
    unfold Staged
    rw [lower_interval_outcome]
    exact staged_lowered t
  | bundle fields ih =>
    rw [lower]
    refine Reported.failsWithin_bind ?_ fun _ => failsWithin_ok _
    induction fields with
    | nil => exact failsWithin_ok _
    | cons field fields tailIh =>
      rw [lowerFields]
      refine Reported.failsWithin_bind (ih field List.mem_cons_self) fun _ => ?_
      exact Reported.failsWithin_bind (tailIh fun f found => ih f (List.mem_cons_of_mem _ found))
        fun _ => failsWithin_ok _
  | vector elem size ih =>
    rw [lower]
    exact Reported.failsWithin_bind ih fun _ => failsWithin_ok _

theorem Operator.staged_operandRange (op : Operator) (t : Ty) :
    FailsWithin RemovalError.Staged (op.operandRange t) := by
  unfold operandRange
  split
  · exact staged_resolved _
  · exact failsWithin_error trivial

namespace Operand

variable (warn : Bool) (operands : List Operand)

theorem staged_lowerCast : Staged (lowerCast operands) := by
  unfold lowerCast
  split
  · refine Reported.failsWithin_bind (failsWithin_ok _) fun _ => ?_
    split
    · exact failsWithin_ok _
    · exact failsWithin_error trivial
    · exact failsWithin_ok _
  · exact failsWithin_error trivial

theorem staged_lowerShift (shift : Operator) (consts : List Int) :
    Staged (lowerShift shift consts operands) := by
  unfold lowerShift
  split
  · exact failsWithin_ok _
  · exact failsWithin_error trivial

theorem staged_lowerClip (result : Ty) : Staged (lowerClip result operands) := by
  unfold lowerClip
  split
  · refine Reported.failsWithin_bind ?_ fun (_, _) => ?_
    · unfold Ty.clipRange
      split
      · exact staged_resolved _
      · exact failsWithin_error trivial
    · exact Reported.failsWithin_bind (Operator.staged_operandRange _ _) fun (_, _) =>
        failsWithin_ok _
  · exact failsWithin_error trivial

/-- Lowering a wrap into a range never reports a survivor, remainder or not. -/
theorem staged_lowerWrapInto (a : Operand) (lo hi : Int) :
    Staged (lowerWrapInto warn a lo hi) := by
  unfold lowerWrapInto
  refine Reported.failsWithin_bind (Operator.staged_operandRange _ _) fun (_, _) => ?_
  refine Reported.failsWithin_bind (failsWithin_ok _) fun _ => ?_
  refine Reported.failsWithin_bind ?_ fun _ => failsWithin_ok _
  rw [countWrap_outcome]
  exact failsWithin_ok _

theorem staged_lowerWrap : Staged (lowerWrap warn operands) := by
  unfold lowerWrap
  split
  · split
    · unfold lowerWidthWrap
      split
      · split
        · exact failsWithin_error trivial
        · exact failsWithin_ok _
      · exact failsWithin_error trivial
    · exact staged_lowerWrapInto _ _ _ _
    · exact Reported.failsWithin_bind (staged_resolved _) fun (_, _) =>
        staged_lowerWrapInto _ _ _ _
    · exact failsWithin_error trivial
  · exact failsWithin_error trivial

end Operand

/-- Lowering an operator never reports a survivor. -/
theorem Operator.staged_lower (warn : Bool) (op : Operator) (operands : List Operand)
    (consts : List Int) (ty : Ty) : Staged (op.lower warn operands consts ty) := by
  cases reserved : op.isIntervalOnly with
  | false =>
    rw [lower_of_generic reserved]
    exact Reported.failsWithin_bind ty.staged_lower fun _ => failsWithin_ok _
  | true =>
    cases op with
    | asInterval => exact Operand.staged_lowerCast operands
    | incp => exact Operand.staged_lowerShift operands .shl consts
    | decp => exact Operand.staged_lowerShift operands .shr consts
    | clip => exact Operand.staged_lowerClip operands ty
    | wrap => exact Operand.staged_lowerWrap warn operands
    | setp => exact failsWithin_error trivial
    | _ => cases reserved

/-- Lowering an expression never reports a survivor. -/
theorem Expr.staged_lower (warn : Bool) (e : Expr) : Staged (e.lower warn) := by
  induction e with
  | uint | sint => exact failsWithin_ok _
  | ref name ty =>
    rw [lower]
    exact Reported.failsWithin_bind ty.staged_lower fun _ => failsWithin_ok _
  | field parent name ty ih | index parent position ty ih =>
    rw [lower]
    exact Reported.failsWithin_bind ih fun _ =>
      Reported.failsWithin_bind ty.staged_lower fun _ => failsWithin_ok _
  | prim op args consts ty ih =>
    rw [lower]
    refine Reported.failsWithin_bind ?_ fun operands => op.staged_lower warn operands consts ty
    induction args with
    | nil => exact failsWithin_ok _
    | cons arg args tailIh =>
      rw [lowerOperands]
      refine Reported.failsWithin_bind (ih arg List.mem_cons_self) fun _ => ?_
      exact Reported.failsWithin_bind (tailIh fun e found => ih e (List.mem_cons_of_mem _ found))
        fun _ => failsWithin_ok _
  | mux cond tval fval ty condIh tvalIh fvalIh =>
    rw [lower]
    refine Reported.failsWithin_bind condIh fun _ => ?_
    refine Reported.failsWithin_bind tvalIh fun _ => ?_
    refine Reported.failsWithin_bind fvalIh fun _ => ?_
    exact Reported.failsWithin_bind ty.staged_lower fun _ => failsWithin_ok _

/-- Lowering a statement never reports a survivor. -/
theorem Stmt.staged_lower (warn : Bool) (s : Stmt) : Staged (s.lower warn) := by
  induction s with
  | wire name ty =>
    rw [lower]
    exact Reported.failsWithin_bind ty.staged_lower fun _ => failsWithin_ok _
  | reg name ty clock reset =>
    rw [lower]
    exact Reported.failsWithin_bind ty.staged_lower fun _ =>
      failsWithin_mapExprsM (Expr.staged_lower warn) _
  | node name value =>
    rw [lower]
    exact Reported.failsWithin_bind (value.staged_lower warn) fun _ => failsWithin_ok _
  | connect loc value | partialConnect loc value =>
    rw [lower]
    exact Reported.failsWithin_bind (loc.staged_lower warn) fun _ =>
      Reported.failsWithin_bind (value.staged_lower warn) fun _ => failsWithin_ok _
  | when cond conseq alt conseqIh altIh =>
    rw [lower]
    refine Reported.failsWithin_bind conseqIh fun _ => ?_
    exact Reported.failsWithin_bind altIh fun _ =>
      Reported.failsWithin_bind (cond.staged_lower warn) fun _ => failsWithin_ok _
  | block stmts ih =>
    rw [lower, lowerAll_eq_mapM]
    exact Reported.failsWithin_bind (Reported.failsWithin_mapM ih) fun _ => failsWithin_ok _
  | invalid loc =>
    rw [lower]
    exact Reported.failsWithin_bind (loc.staged_lower warn) fun _ => failsWithin_ok _
  | skip => exact failsWithin_ok _

/-- Lowering a circuit never reports a survivor. -/
theorem Circuit.staged_lower (warn : Bool) (c : Circuit) : Staged (c.lower warn) := by
  refine Reported.failsWithin_bind (Reported.failsWithin_mapM fun m _ => ?_) fun _ =>
    failsWithin_ok _
  refine Reported.failsWithin_bind (failsWithin_ok _) fun _ => ?_
  refine Reported.failsWithin_bind (m.failsWithin_mapBodyM (Stmt.staged_lower warn)) fun _ => ?_
  refine Reported.failsWithin_bind (Reported.failsWithin_mapM fun p _ => ?_) fun _ =>
    failsWithin_ok _
  exact Reported.failsWithin_bind p.ty.staged_lower fun _ => failsWithin_ok _

end Stages

namespace Circuit

/-- A lowered circuit has no intervals, with or without types inferred anew. -/
theorem intervalFree_of_retype {options : RemovalOptions} {c typed : Circuit}
    (free : c.IntervalFree) (done : c.retype options infer = .ok typed) : typed.IntervalFree := by
  unfold retype at done
  split at done
  · cases inferred : c.infer with
    | error cause => rw [inferred] at done; cases done
    | ok result =>
      rw [inferred] at done
      cases done
      exact intervalFree_of_infer free inferred
  · cases done
    exact free

/-- Errors of inference are handed on as such. -/
theorem staged_retype (options : RemovalOptions) (c : Circuit) :
    FailsWithin RemovalError.Staged (c.retype options infer) := by
  unfold retype
  split
  · cases c.infer with
    | error cause => exact failsWithin_error trivial
    | ok result => exact failsWithin_ok _
  · exact failsWithin_ok _

/-- Verification accepts a circuit without intervals. -/
theorem verify_of_intervalFree {c : Circuit} (options : RemovalOptions) (free : c.IntervalFree) :
    c.verify options = .ok () := by
  unfold verify
  split
  · exact checkIntervalFree_eq_ok_iff.mpr free
  · rfl

/-- The stages without the last one. -/
def typedStages (options : RemovalOptions) (c : Circuit) : Reported RemovalError Circuit := do
  let aligned ← c.align
  let lowered ← aligned.lower options.warnOnRemainder
  .ofExcept (lowered.retype options infer)

/-- What the stages before verification give has no intervals. -/
theorem intervalFree_of_typedStages {options : RemovalOptions} {c typed : Circuit}
    (done : (c.typedStages options).outcome = .ok typed) : typed.IntervalFree := by
  simp only [typedStages, bind_outcome_eq_ok_iff, outcome_ofExcept] at done
  obtain ⟨aligned, -, lowered, lowerDone, retyped⟩ := done
  exact intervalFree_of_retype (intervalFree_of_lower lowerDone) retyped

/-- Verification neither objects nor reports, so the stages are those before it. -/
theorem removeStages_eq (options : RemovalOptions) (c : Circuit) :
    c.removeStages options infer = c.typedStages options := by
  have split : c.removeStages options infer = c.typedStages options >>= fun typed => do
      .ofExcept (typed.verify options)
      return typed := by
    simp only [removeStages, typedStages, bind_assoc]
  rw [split]
  cases outcome : (c.typedStages options).outcome with
  | error cause =>
    rw [bind_of_error outcome, ← outcome]
  | ok typed =>
    rw [bind_of_ok outcome, verify_of_intervalFree options (intervalFree_of_typedStages outcome)]
    exact Reported.ext (Report.append_empty _) outcome.symm

/-- No run reports a survivor, with or without verification. -/
theorem staged_removeStages (options : RemovalOptions) (c : Circuit) :
    Staged (c.removeStages options infer) := by
  rw [removeStages_eq]
  refine Reported.failsWithin_bind c.staged_align fun aligned => ?_
  refine Reported.failsWithin_bind (aligned.staged_lower _) fun lowered => ?_
  exact lowered.staged_retype options

/-- A removal comes to what its stages come to. -/
theorem removeIntervalsWith_outcome (options : RemovalOptions) (inference : TypeInference)
    (c : Circuit) :
    (c.removeIntervalsWith options inference).outcome
      = (c.removeStages options inference).outcome := by
  simp only [removeIntervalsWith]
  split
  · rename_i done
    rw [done]
  · rfl

/-- A removal by default gives what inference makes of the aligned and lowered circuit. -/
theorem removeIntervals_eq_ok_iff {c d : Circuit} :
    c.removeIntervals.outcome = .ok d ↔
      ∃ aligned lowered, c.align.outcome = .ok aligned ∧
        (aligned.lower true).outcome = .ok lowered ∧ lowered.infer = .ok d := by
  have retyped (lowered : Circuit) : lowered.retype {} infer = .ok d ↔ lowered.infer = .ok d := by
    simp only [retype, if_true]
    cases lowered.infer <;> simp [Except.mapError]
  rw [removeIntervals, removeIntervalsWith_outcome, removeStages_eq]
  simp only [typedStages, bind_outcome_eq_ok_iff, outcome_ofExcept, retyped, exists_and_left]

/-- The account of a run is that of its stages. -/
theorem removeIntervalsWith_tally (options : RemovalOptions) (inference : TypeInference)
    (c : Circuit) :
    (c.removeIntervalsWith options inference).report.tally
      = (c.removeStages options inference).report.tally := by
  simp only [removeIntervalsWith]
  split
  · exact Tally.add_empty _
  · rfl

/-- Lowering leaves no interval in any circuit, and inference brings none back. A removal therefore
never ends at its verification, and is the same run with and without it. -/
theorem no_interval_survives (c : Circuit) :
    (∀ warn lowered, (c.lower warn).outcome = .ok lowered → lowered.IntervalFree ∧
      ∀ typed, lowered.infer = .ok typed → typed.IntervalFree) ∧
    (∀ options moduleName survivor,
      (c.removeIntervalsWith options infer).outcome ≠ .error (.survived moduleName survivor)) ∧
    ∀ (options : RemovalOptions) (stats : Tally),
      let verifying : Remover := { options := { options with verifyOutput := true }, stats }
      let trusting : Remover := { options := { options with verifyOutput := false }, stats }
      (verifying.run c).2 = (trusting.run c).2 ∧
        (verifying.run c).1.stats = (trusting.run c).1.stats := by
  refine ⟨fun warn lowered done => ?_, fun options moduleName survivor failed => ?_,
    fun options stats => ?_⟩
  · have free := intervalFree_of_lower done
    exact ⟨free, fun typed inferred => intervalFree_of_infer free inferred⟩
  · rw [removeIntervalsWith_outcome] at failed
    exact c.staged_removeStages options _ failed
  · have same : c.removeIntervalsWith { options with verifyOutput := true } infer
        = c.removeIntervalsWith { options with verifyOutput := false } infer := by
      unfold removeIntervalsWith
      rw [removeStages_eq, removeStages_eq]
      rfl
    simp only [Remover.run, same]
    split <;> exact ⟨rfl, rfl⟩

/-- A circuit that saturates a value into the range of another one. -/
def saturating : Circuit :=
  let wide : Ty := .interval (.of (.ofInt (-10)) (.ofInt 10) (.known (.ofNat 3)))
  let narrow : Ty := .interval (.of (.ofInt 0) (.ofInt 4) (.known (.ofNat 3)))
  let clipped : Expr := .prim .clip [.ref "a" wide, .ref "b" narrow] [] narrow
  ⟨"Top", [⟨"Top", [⟨"a", .input, wide⟩, ⟨"b", .input, narrow⟩, ⟨"c", .output, narrow⟩],
    some (.connect (.ref "c" narrow) clipped)⟩]⟩

/-- The saturating circuit is lowered and typed, and no interval is left in it. -/
theorem no_interval_survives_saturating :
    ∃ lowered typed, (saturating.lower true).outcome = .ok lowered ∧ lowered.infer = .ok typed ∧
      lowered.IntervalFree ∧ typed.IntervalFree := by
  obtain ⟨free, typedFree⟩ := saturating.no_interval_survives.1 true _ rfl
  exact ⟨_, _, rfl, rfl, free, typedFree _ rfl⟩

end Circuit

end IntervalHdl
