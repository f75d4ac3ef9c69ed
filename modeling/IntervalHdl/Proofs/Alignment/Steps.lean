import IntervalHdl.Removal.Alignment
import IntervalHdl.Proofs.Traversal

/-!
# The steps of alignment

What a successful alignment does to a node whose subexpressions are aligned (`Expr.NodeAligned`) and
to a statement (`Stmt.StmtAligned`), each case with all that had to hold for it. Later proofs go by
these cases and by `Expr.align_rel`, which carries a relation from the subexpressions to the node.
-/

namespace IntervalHdl
set_option autoImplicit false

open Reported

/-- The type is an interval recorded at the point `p`. -/
def Ty.HasPoint (t : Ty) (p : BitCount) : Prop := ∃ i, t = .interval i ∧ i.point = .known p

namespace Ty

theorem HasPoint.isInterval {t : Ty} {p : BitCount} (at_p : t.HasPoint p) :
    t.isInterval = true := by
  obtain ⟨i, rfl, -⟩ := at_p
  rfl

/-- A type has one point at most. -/
theorem HasPoint.unique {t : Ty} {p q : BitCount} (at_p : t.HasPoint p) (at_q : t.HasPoint q) :
    p = q := by
  obtain ⟨i, rfl, point⟩ := at_p
  obtain ⟨_, ⟨⟩, point'⟩ := at_q
  exact Width.known.inj (point.symm.trans point')

theorem hasPoint_interval_iff {i : Interval} {p : BitCount} :
    (Ty.interval i).HasPoint p ↔ i.point = .known p :=
  ⟨fun ⟨_, same, point⟩ => Ty.interval.inj same ▸ point, fun point => ⟨i, rfl, point⟩⟩

theorem hasPoint_atPoint (i : Interval) (p : BitCount) : (Ty.interval (i.atPoint p)).HasPoint p :=
  ⟨_, rfl, rfl⟩

end Ty

/-- An interval has a known point exactly if one is recorded. -/
theorem Interval.knownPoint_eq_ok_iff {t : Interval} {p : BitCount} :
    t.knownPoint = .ok p ↔ t.point = .known p := by
  unfold knownPoint
  cases t.point <;> simp

/-- The greatest of the points, or zero. -/
def commonPoint (points : List BitCount) : BitCount := points.foldl max (.ofNat 0)

/-- The common point is not below any of the points. -/
theorem le_commonPoint {points : List BitCount} {p : BitCount} (present : p ∈ points) :
    p ≤ commonPoint points := by
  -- The fold only grows, and takes in each point on the way.
  have fold : ∀ (ps : List BitCount) (start : BitCount),
      start ≤ ps.foldl max start ∧ ∀ q ∈ ps, q ≤ ps.foldl max start := by
    intro ps
    induction ps with
    | nil => exact fun start => ⟨BitCount.le_refl start, nofun⟩
    | cons q ps ih =>
      intro start
      obtain ⟨grows, above⟩ := ih (max start q)
      refine ⟨Nat.le_trans (BitCount.le_max_left start q) grows, ?_⟩
      rintro r (_ | ⟨_, found⟩)
      · exact Nat.le_trans (BitCount.le_max_right start q) grows
      · exact above r found
  exact (fold points _).2 p present

/-- The common point of some points is one of them. -/
theorem commonPoint_mem {points : List BitCount} (nonempty : points ≠ []) :
    commonPoint points ∈ points := by
  have fold : ∀ (ps : List BitCount) (start : BitCount),
      ps.foldl max start = start ∨ ps.foldl max start ∈ ps := by
    intro ps
    induction ps with
    | nil => exact fun _ => .inl rfl
    | cons q ps ih =>
      intro start
      rw [List.foldl_cons]
      rcases ih (max start q) with same | found
      · rw [same]
        rcases Nat.le_total q.toNat start.toNat with below | above
        · exact .inl (BitCount.max_eq_left below)
        · rw [BitCount.max_eq_right above]
          exact .inr List.mem_cons_self
      · exact .inr (List.mem_cons_of_mem _ found)
  rcases fold points (.ofNat 0) with zero | found
  · -- Where the fold ends at its start, every point is zero.
    obtain ⟨q, ps, rfl⟩ := List.exists_cons_of_ne_nil nonempty
    have below : q ≤ commonPoint (q :: ps) := le_commonPoint List.mem_cons_self
    have least : (commonPoint (q :: ps)).toNat = 0 := congrArg BitCount.toNat zero
    have same : commonPoint (q :: ps) = q := BitCount.ext (by rw [BitCount.le_iff] at below; omega)
    rw [same]
    exact List.mem_cons_self
  · exact found

namespace Expr

/-- An expression has a point exactly if its type does. -/
theorem recordedPoint_eq_ok_iff {e : Expr} {p : BitCount} :
    e.recordedPoint = .ok p ↔ e.ty.HasPoint p := by
  unfold recordedPoint
  split
  · rename_i t ty
    rw [Interval.knownPoint_eq_ok_iff, ty, Ty.hasPoint_interval_iff]
  · rename_i other
    simp only [reduceCtorEq, false_iff]
    rintro ⟨t, ty, -⟩
    exact other t ty

/-- A set point takes one operand, and its point from the first constant. -/
theorem setPointOperands_eq_ok_iff {args : List Expr} {consts : List Int} {arg : Expr}
    {p : BitCount} :
    setPointOperands args consts = .ok (arg, p) ↔
      args = [arg] ∧ consts.head?.bind BitCount.ofInt? = some p := by
  unfold setPointOperands
  split
  · cases consts.head?.bind BitCount.ofInt? <;> simp [and_comm]
  · rename_i other
    simp only [reduceCtorEq, false_iff]
    rintro ⟨rfl, -⟩
    exact other arg rfl

/-- The value at the point `target`: unchanged if it is there already, else shifted there with its
bounds kept. -/
inductive Rescaled (target : BitCount) : Expr → Expr → Prop where
  | same {e : Expr} (recorded : e.ty.HasPoint target) : Rescaled target e e
  | moved {e : Expr} {t : Interval} {p : BitCount} (ty : e.ty = .interval t)
    (point : t.point = .known p) (apart : p ≠ target) :
    Rescaled target e (.prim (rescaleStep p target).1 [e] [((rescaleStep p target).2.toNat : Int)]
      (.interval (t.atPoint target)))

/-- A rescale gives exactly the expression moved to the point. -/
theorem rescale_eq_ok_iff {target : BitCount} {e e' : Expr} :
    (e.rescale target).outcome = .ok e' ↔ Rescaled target e e' := by
  unfold rescale
  constructor
  · intro done
    split at done
    · rename_i t ty
      simp only [bind_outcome_eq_ok_iff, outcome_ofExcept, Interval.knownPoint_eq_ok_iff] at done
      obtain ⟨p, point, done⟩ := done
      split at done
      · rename_i same
        cases done
        exact .same ⟨t, ty, same ▸ point⟩
      · rename_i apart
        simp only [tell_bind_outcome, count_bind_outcome, outcome_pure, Except.ok.injEq] at done
        subst done
        exact .moved ty point apart
    · cases done
  · rintro (⟨t, ty, point⟩ | ⟨ty, point, apart⟩)
    · simp only [ty, bind_outcome_eq_ok_iff, outcome_ofExcept, Interval.knownPoint_eq_ok_iff]
      exact ⟨target, point, by rw [if_pos rfl]; rfl⟩
    · simp only [ty, bind_outcome_eq_ok_iff, outcome_ofExcept, Interval.knownPoint_eq_ok_iff]
      exact ⟨_, point, by rw [if_neg apart]; rfl⟩

/-- A rescaled value is recorded where it was asked to be. -/
theorem Rescaled.hasPoint {target : BitCount} {e e' : Expr} (moved : Rescaled target e e') :
    e'.ty.HasPoint target := by
  cases moved with
  | same recorded => exact recorded
  | moved => exact Ty.hasPoint_atPoint _ target

/-- Holds of an interval-typed selection. -/
def IsIntervalMux : Expr → Prop
  | .mux _ _ _ (.interval _) => True
  | _ => False

/-- What alignment makes of a node over aligned subexpressions. -/
inductive NodeAligned : Expr → Expr → Prop where
  | setp {arg e' : Expr} {p : BitCount} {consts : List Int} (ty : Ty)
    (amount : consts.head?.bind BitCount.ofInt? = some p) (moved : Rescaled p arg e') :
    NodeAligned (.prim .setp [arg] consts ty) e'
  | meet {op : Operator} {args args' : List Expr} {points : List BitCount} (consts : List Int)
    (ty : Ty) (common : meets op args = true)
    (recorded : List.Forall₂ (fun e p => e.ty.HasPoint p) args points)
    (moved : List.Forall₂ (Rescaled (commonPoint points)) args args') :
    NodeAligned (.prim op args consts ty)
      (.prim op args' consts (op.repoint (commonPoint points) ty))
  | keep {op : Operator} {args : List Expr} (consts : List Int) (ty : Ty) (stays : op ≠ .setp)
    (apart : meets op args = false) :
    NodeAligned (.prim op args consts ty) (.prim op args consts ty)
  | select {tval fval tval' fval' : Expr} {p q : BitCount} (cond : Expr) (t : Interval)
    (left : tval.ty.HasPoint p) (right : fval.ty.HasPoint q)
    (tmoved : Rescaled (max p q) tval tval') (fmoved : Rescaled (max p q) fval fval') :
    NodeAligned (.mux cond tval fval (.interval t))
      (.mux cond tval' fval' (.interval (t.atPoint (max p q))))
  | other {e : Expr} (plain : e.operator? = none) (unmoved : ¬ e.IsIntervalMux) : NodeAligned e e

theorem meets_setp (args : List Expr) : meets .setp args = false := rfl

/-- An aligned node is one of the cases. -/
theorem nodeAligned_of_alignNode {e e' : Expr} (done : (alignNode e).outcome = .ok e') :
    NodeAligned e e' := by
  unfold alignNode at done
  split at done
  · rename_i op args consts ty
    unfold alignPrim at done
    split at done
    · rename_i setp
      subst setp
      simp only [bind_outcome_eq_ok_iff, outcome_ofExcept, rescale_eq_ok_iff] at done
      obtain ⟨⟨arg, p⟩, operands, moved⟩ := done
      obtain ⟨rfl, amount⟩ := setPointOperands_eq_ok_iff.mp operands
      exact .setp ty amount moved
    · rename_i stays
      split at done
      · rename_i common
        simp only [bind_outcome_eq_ok_iff, outcome_ofExcept, mapM_eq_ok_iff,
          mapM_outcome_eq_ok_iff, rescale_eq_ok_iff, recordedPoint_eq_ok_iff, outcome_pure,
          Except.ok.injEq] at done
        obtain ⟨points, recorded, args', moved, rfl⟩ := done
        exact .meet consts ty common recorded moved
      · rename_i apart
        cases done
        exact .keep consts ty stays (Bool.eq_false_iff.mpr apart)
  · rename_i cond tval fval t
    simp only [alignMux, bind_outcome_eq_ok_iff, outcome_ofExcept, rescale_eq_ok_iff,
      recordedPoint_eq_ok_iff, outcome_pure, Except.ok.injEq] at done
    obtain ⟨p, left, q, right, tval', tmoved, fval', fmoved, rfl⟩ := done
    exact .select cond t left right tmoved fmoved
  · rename_i noPrim noSelect
    cases done
    refine .other ?_ ?_
    · cases e <;> first | rfl | exact (noPrim _ _ _ _ rfl).elim
    · intro selects
      unfold IsIntervalMux at selects
      split at selects
      · exact noSelect _ _ _ _ rfl
      · exact selects

/-- Each of the cases is what alignment does. -/
theorem alignNode_of_nodeAligned {e e' : Expr} (aligned : NodeAligned e e') :
    (alignNode e).outcome = .ok e' := by
  cases aligned with
  | setp ty amount moved =>
    simp only [alignNode, alignPrim, if_true, bind_outcome_eq_ok_iff, outcome_ofExcept,
      rescale_eq_ok_iff]
    exact ⟨_, setPointOperands_eq_ok_iff.mpr ⟨rfl, amount⟩, moved⟩
  | @meet op args args' points consts ty common recorded moved =>
    have stays : op ≠ .setp := by
      rintro rfl
      cases (meets_setp args).symm.trans common
    simp only [alignNode, alignPrim, if_neg stays, if_pos common, bind_outcome_eq_ok_iff,
      outcome_ofExcept, mapM_eq_ok_iff, mapM_outcome_eq_ok_iff, rescale_eq_ok_iff,
      recordedPoint_eq_ok_iff, outcome_pure]
    exact ⟨points, recorded, args', moved, rfl⟩
  | keep consts ty stays apart =>
    simp only [alignNode, alignPrim, if_neg stays, apart]
    rfl
  | select cond t left right tmoved fmoved =>
    simp only [alignNode, alignMux, bind_outcome_eq_ok_iff, outcome_ofExcept, rescale_eq_ok_iff,
      recordedPoint_eq_ok_iff, outcome_pure]
    exact ⟨_, left, _, right, _, tmoved, _, fmoved, rfl⟩
  | other plain unmoved =>
    unfold alignNode
    split
    · cases plain
    · exact (unmoved trivial).elim
    · rfl

/-- Aligning a node succeeds exactly with what the relation gives. -/
theorem alignNode_eq_ok_iff {e e' : Expr} :
    (alignNode e).outcome = .ok e' ↔ NodeAligned e e' :=
  ⟨nodeAligned_of_alignNode, alignNode_of_nodeAligned⟩

/-- An expression is aligned when its subexpressions are and then the node over them. -/
theorem align_eq_ok_iff {e e' : Expr} :
    e.align.outcome = .ok e' ↔
      ∃ node, Rebuilt (fun a b => a.align.outcome = .ok b) e node ∧ NodeAligned node e' := by
  simp only [align, outcome_replaceUpM, ← alignNode_eq_ok_iff]
  exact replaceUpM_eq_ok_iff

/-- Induction along alignment. -/
theorem align_rel {R : Expr → Expr → Prop}
    (step : ∀ e node e', Rebuilt R e node → NodeAligned node e' → R e e') {e e' : Expr}
    (done : e.align.outcome = .ok e') : R e e' := by
  rw [align, outcome_replaceUpM] at done
  exact replaceUpM_rel
    (fun e node e' rebuilt aligned => step e node e' rebuilt (alignNode_eq_ok_iff.mp aligned)) done

/-- The value as a connection to the location takes it. -/
inductive Fitted (loc value : Expr) : Expr → Prop where
  | interval {value' : Expr} {p : BitCount} (target : loc.ty.HasPoint p)
    (moved : Rescaled p value value') : Fitted loc value value'
  | plain (target : loc.ty.isInterval = false) : Fitted loc value value

/-- Fitting a value to its location succeeds exactly with what the relation gives. -/
theorem fitTo_eq_ok_iff {loc value value' : Expr} :
    (loc.fitTo value).outcome = .ok value' ↔ Fitted loc value value' := by
  unfold fitTo
  constructor
  · intro done
    split at done
    · rename_i t ty
      simp only [bind_outcome_eq_ok_iff, outcome_ofExcept, Interval.knownPoint_eq_ok_iff,
        rescale_eq_ok_iff] at done
      obtain ⟨p, point, moved⟩ := done
      exact .interval ⟨t, ty, point⟩ moved
    · rename_i plain
      cases done
      refine .plain ?_
      rw [← Bool.not_eq_true, Ty.isInterval_iff]
      exact fun ⟨t, ty⟩ => plain t ty
  · intro fitted
    cases fitted with
    | interval target moved =>
      obtain ⟨t, ty, point⟩ := target
      simp only [ty, bind_outcome_eq_ok_iff, outcome_ofExcept, Interval.knownPoint_eq_ok_iff,
        rescale_eq_ok_iff]
      exact ⟨_, point, moved⟩
    | plain target =>
      split
      · rename_i t ty
        rw [ty] at target
        cases target
      · rfl

end Expr

/-- What alignment makes of a statement. -/
inductive Stmt.StmtAligned : Stmt → Stmt → Prop where
  | wire (name : String) (ty : Ty) : StmtAligned (.wire name ty) (.wire name ty)
  | reg {clock clock' : Expr} (name : String) (ty : Ty)
    (clockDone : clock.align.outcome = .ok clock') :
    StmtAligned (.reg name ty clock none) (.reg name ty clock' none)
  | regReset {clock clock' : Expr} {reset reset' : Reset} (name : String) (ty : Ty)
    (clockDone : clock.align.outcome = .ok clock')
    (signalDone : reset.signal.align.outcome = .ok reset'.signal)
    (initDone : reset.init.align.outcome = .ok reset'.init) :
    StmtAligned (.reg name ty clock (some reset)) (.reg name ty clock' (some reset'))
  | node {value value' : Expr} (name : String) (valueDone : value.align.outcome = .ok value') :
    StmtAligned (.node name value) (.node name value')
  | connect {loc loc' value value' value'' : Expr} (locDone : loc.align.outcome = .ok loc')
    (valueDone : value.align.outcome = .ok value') (fitted : Expr.Fitted loc' value' value'') :
    StmtAligned (.connect loc value) (.connect loc' value'')
  | partialConnect {loc loc' value value' value'' : Expr} (locDone : loc.align.outcome = .ok loc')
    (valueDone : value.align.outcome = .ok value') (fitted : Expr.Fitted loc' value' value'') :
    StmtAligned (.partialConnect loc value) (.partialConnect loc' value'')
  | when {cond cond' : Expr} {conseq conseq' alt alt' : Stmt}
    (condDone : cond.align.outcome = .ok cond') (conseqDone : conseq.align.outcome = .ok conseq')
    (altDone : alt.align.outcome = .ok alt') :
    StmtAligned (.when cond conseq alt) (.when cond' conseq' alt')
  | block {stmts stmts' : List Stmt}
    (each : List.Forall₂ (fun s s' => s.align.outcome = .ok s') stmts stmts') :
    StmtAligned (.block stmts) (.block stmts')
  | invalid {loc loc' : Expr} (locDone : loc.align.outcome = .ok loc') :
    StmtAligned (.invalid loc) (.invalid loc')
  | skip : StmtAligned .skip .skip

/-- An aligned statement is one of the cases. -/
theorem Stmt.stmtAligned_of_align {s s' : Stmt} (done : s.align.outcome = .ok s') :
    StmtAligned s s' := by
  cases s with
  | wire name ty =>
    cases done
    exact .wire name ty
  | reg name ty clock reset =>
    cases reset with
    | none =>
      simp only [align, mapExprsM, bind_outcome_eq_ok_iff, outcome_pure, Except.ok.injEq] at done
      obtain ⟨clock', clockDone, rfl⟩ := done
      exact .reg name ty clockDone
    | some reset =>
      simp only [align, mapExprsM, bind_outcome_eq_ok_iff, outcome_pure, Except.ok.injEq] at done
      obtain ⟨clock', clockDone, signal', signalDone, init', initDone, rfl⟩ := done
      exact .regReset name ty clockDone signalDone initDone
  | node name value =>
    simp only [align, bind_outcome_eq_ok_iff, outcome_pure, Except.ok.injEq] at done
    obtain ⟨value', valueDone, rfl⟩ := done
    exact .node name valueDone
  | connect loc value =>
    simp only [align, bind_outcome_eq_ok_iff, outcome_pure, Except.ok.injEq,
      Expr.fitTo_eq_ok_iff] at done
    obtain ⟨loc', locDone, value', valueDone, value'', fitted, rfl⟩ := done
    exact .connect locDone valueDone fitted
  | partialConnect loc value =>
    simp only [align, bind_outcome_eq_ok_iff, outcome_pure, Except.ok.injEq,
      Expr.fitTo_eq_ok_iff] at done
    obtain ⟨loc', locDone, value', valueDone, value'', fitted, rfl⟩ := done
    exact .partialConnect locDone valueDone fitted
  | when cond conseq alt =>
    simp only [align, bind_outcome_eq_ok_iff, outcome_pure, Except.ok.injEq] at done
    obtain ⟨cond', condDone, conseq', conseqDone, alt', altDone, rfl⟩ := done
    exact .when condDone conseqDone altDone
  | block stmts =>
    simp only [align, alignAll_eq_mapM, bind_outcome_eq_ok_iff, mapM_outcome_eq_ok_iff,
      outcome_pure, Except.ok.injEq] at done
    obtain ⟨stmts', each, rfl⟩ := done
    exact .block each
  | invalid loc =>
    simp only [align, bind_outcome_eq_ok_iff, outcome_pure, Except.ok.injEq] at done
    obtain ⟨loc', locDone, rfl⟩ := done
    exact .invalid locDone
  | skip =>
    cases done
    exact .skip

/-- Each of the cases is what alignment does. -/
theorem Stmt.align_of_stmtAligned {s s' : Stmt} (aligned : StmtAligned s s') :
    s.align.outcome = .ok s' := by
  cases aligned with
  | wire | skip => rfl
  | reg name ty clockDone =>
    simp only [align, mapExprsM, bind_outcome_eq_ok_iff]
    exact ⟨_, clockDone, rfl⟩
  | regReset name ty clockDone signalDone initDone =>
    simp only [align, mapExprsM, bind_outcome_eq_ok_iff]
    exact ⟨_, clockDone, _, signalDone, _, initDone, rfl⟩
  | node name valueDone =>
    simp only [align, bind_outcome_eq_ok_iff]
    exact ⟨_, valueDone, rfl⟩
  | connect locDone valueDone fitted | partialConnect locDone valueDone fitted =>
    simp only [align, bind_outcome_eq_ok_iff, Expr.fitTo_eq_ok_iff]
    exact ⟨_, locDone, _, valueDone, _, fitted, rfl⟩
  | when condDone conseqDone altDone =>
    simp only [align, bind_outcome_eq_ok_iff]
    exact ⟨_, condDone, _, conseqDone, _, altDone, rfl⟩
  | block each =>
    simp only [align, alignAll_eq_mapM, bind_outcome_eq_ok_iff, mapM_outcome_eq_ok_iff]
    exact ⟨_, each, rfl⟩
  | invalid locDone =>
    simp only [align, bind_outcome_eq_ok_iff]
    exact ⟨_, locDone, rfl⟩

/-- Aligning a circuit aligns the bodies of its modules. -/
theorem Circuit.align_eq_ok_iff {c c' : Circuit} :
    c.align.outcome = .ok c' ↔
      c'.main = c.main ∧ List.Forall₂ (fun m m' => m'.name = m.name ∧ m'.ports = m.ports ∧
        Option.Rel (fun body body' => body.align.outcome = .ok body') m.body? m'.body?)
        c.modules c'.modules := by
  simp only [align, outcome_mapModulesM, mapModulesM_eq_ok_iff, Module.align, tell_bind_outcome,
    Module.outcome_mapBodyM, Module.mapBodyM_eq_ok_iff]

end IntervalHdl
