import IntervalHdl.Proofs.Alignment.Points
import IntervalHdl.Proofs.Lowering.Success

/-!
# The input contract

A circuit keeps the contract when its intervals have known bounds and a known point, and every
operator, selection and connection on intervals has operands that are what it works on. Alignment
succeeds on such a circuit, and its result keeps the contract again: operands change only from one
interval to another (`Ty.Alike`), and every point that alignment moves a value to is one that was
recorded or asked for. What keeps the contract and has no `setp` left can be lowered, node by node
(`Expr.lowerable_of_accepted`).
-/

namespace IntervalHdl
set_option autoImplicit false

open Reported

/-! ## The contract -/

/-- An interval with known bounds and a known point, at its intrinsic width. The point has a
successor among the bit counts. -/
def Interval.Proper (t : Interval) : Prop :=
  ∃ lo hi p, p.toNat < BitCount.limit ∧ t = .of (.known lo) (.known hi) (.known p)

/-- Every interval in the type is proper. -/
def Ty.Proper (t : Ty) : Prop := ∀ i ∈ t.intervals, i.Proper

/-- What the operator asks of operands recorded at the types, of its constants and of its result
type. -/
def Operator.Accepts (op : Operator) (tys : List Ty) (consts : List Int) (ty : Ty) : Prop :=
  match op with
  | .setp => ∃ a k, tys = [a] ∧ a.isInterval = true ∧ ty.isInterval = true ∧
    consts.head? = some k ∧ 0 ≤ k ∧ k < BitCount.limit
  | .asInterval => ∃ a, tys = [a] ∧ a ≠ .uint .unknown ∧
    ∀ w : BitCount, a = .uint (.known w) → w.toNat < BitCount.limit
  | .incp | .decp => ∃ a, tys = [a]
  | .clip => ∃ a b, tys = [a, b] ∧ a.isInterval = true ∧ ty.isInterval = true
  | .wrap => ∃ a b, tys = [a, b] ∧
    ((∃ w : BitCount, b = .sint (.known w) ∧ 1 ≤ w.toNat) ∨
      a.isInterval = true ∧ (b.isInterval = true ∨ ∃ w, b = .uint (.known w)))
  | _ => True

namespace Expr

/-- What an operator or a selection asks of the expressions below it. -/
def Ruled : Expr → Prop
  | .prim op args consts ty => op.Accepts (args.map Expr.ty) consts ty
  | .mux _ tval fval ty =>
    ty.isInterval = true → tval.ty.isInterval = true ∧ fval.ty.isInterval = true
  | _ => True

/-- The node keeps the contract. -/
structure Accepted (e : Expr) : Prop where
  proper : e.ty.Proper
  ruled : e.Ruled

end Expr

theorem Expr.accepted_iff {e : Expr} : e.Accepted ↔ e.ty.Proper ∧ e.Ruled :=
  ⟨fun ⟨proper, ruled⟩ => ⟨proper, ruled⟩, fun ⟨proper, ruled⟩ => ⟨proper, ruled⟩⟩

/-- The statement itself keeps the contract: an interval-typed location gets the value of an
interval-typed expression. -/
structure Stmt.Accepted (s : Stmt) : Prop where
  declared : ∀ ty ∈ s.declaredTy?, ty.Proper
  exprs : ∀ e ∈ s.exprs, e.Everywhere Expr.Accepted
  sources : ∀ loc value, s = .connect loc value ∨ s = .partialConnect loc value →
    loc.ty.isInterval = true → value.ty.isInterval = true

/-- The ports and every position of the body keep the contract. -/
structure Module.Accepted (m : Module) : Prop where
  ports : ∀ p ∈ m.ports, p.ty.Proper
  body : ∀ body ∈ m.body?, body.Everywhere Stmt.Accepted

/-- Everything in the circuit keeps the contract. -/
def Circuit.Accepted (c : Circuit) : Prop := ∀ m ∈ c.modules, m.Accepted

/-! ## Proper types -/

namespace Interval.Proper

variable {t : Interval}

/-- A proper interval has a point below the limit. -/
theorem hasPoint (proper : t.Proper) :
    ∃ p, t.point = .known p ∧ p.toNat < BitCount.limit := by
  obtain ⟨lo, hi, p, small, rfl⟩ := proper
  exact ⟨p, rfl, small⟩

/-- A proper interval stays proper at another point below the limit. -/
theorem atPoint (proper : t.Proper) {p : BitCount} (small : p.toNat < BitCount.limit) :
    (t.atPoint p).Proper := by
  obtain ⟨lo, hi, q, -, rfl⟩ := proper
  exact ⟨lo, hi, p, small, rfl⟩

/-- A proper interval has all that lowering asks for. -/
theorem complete (proper : t.Proper) : t.Complete := by
  obtain ⟨lo, hi, p, -, rfl⟩ := proper
  exact ⟨rfl, rfl⟩

end Interval.Proper

namespace Ty

theorem proper_interval_iff {t : Interval} : (Ty.interval t).Proper ↔ t.Proper := by
  simp [Proper]

/-- A proper type can be lowered. -/
theorem Proper.lowerable {t : Ty} (proper : t.Proper) : t.Lowerable :=
  fun i inside => (proper i inside).complete

/-- A proper interval has encodings. -/
theorem Proper.hasRange {t : Ty} (proper : t.Proper) (interval : t.isInterval = true) :
    t.HasRange := by
  obtain ⟨i, rfl⟩ := isInterval_iff.mp interval
  exact ⟨i, rfl, (proper_interval_iff.mp proper).complete.1⟩

/-- The types are one, or both are intervals. -/
def Alike (t u : Ty) : Prop := t = u ∨ t.isInterval = true ∧ u.isInterval = true

theorem Alike.isInterval {t u : Ty} (alike : t.Alike u) (interval : t.isInterval = true) :
    u.isInterval = true := by
  rcases alike with rfl | ⟨-, interval'⟩
  · exact interval
  · exact interval'

theorem Alike.eq {t u : Ty} (alike : t.Alike u) (plain : t.isInterval = false) : t = u := by
  rcases alike with same | ⟨interval, -⟩
  · exact same
  · rw [plain] at interval
    cases interval

/-- Of two types that are alike both are intervals or neither is. -/
theorem Alike.isInterval_eq {t u : Ty} (alike : t.Alike u) : u.isInterval = t.isInterval := by
  rcases alike with rfl | ⟨left, right⟩
  · rfl
  · rw [left, right]

end Ty

/-- An operator does not tell intervals apart. -/
theorem Operator.Accepts.alike {op : Operator} {tys tys' : List Ty} {consts : List Int}
    {ty ty' : Ty} (accepts : op.Accepts tys consts ty) (operands : List.Forall₂ Ty.Alike tys tys')
    (result : ty.Alike ty') : op.Accepts tys' consts ty' := by
  cases op with
  | setp =>
    obtain ⟨a, k, rfl, interval, interval', amount⟩ := accepts
    obtain ⟨a', alike, rfl⟩ := single_of_forall₂ operands
    exact ⟨a', k, rfl, alike.isInterval interval, result.isInterval interval', amount⟩
  | asInterval =>
    obtain ⟨a, rfl, known, small⟩ := accepts
    obtain ⟨a', alike, rfl⟩ := single_of_forall₂ operands
    refine ⟨a', rfl, ?_⟩
    rcases alike with rfl | ⟨-, interval⟩
    · exact ⟨known, small⟩
    · obtain ⟨i, rfl⟩ := Ty.isInterval_iff.mp interval
      exact ⟨nofun, nofun⟩
  | incp | decp =>
    obtain ⟨a, rfl⟩ := accepts
    obtain ⟨a', alike, rfl⟩ := single_of_forall₂ operands
    exact ⟨a', rfl⟩
  | clip =>
    obtain ⟨a, b, rfl, interval, interval'⟩ := accepts
    obtain ⟨a', b', alike, -, rfl⟩ := pair_of_forall₂ operands
    exact ⟨a', b', rfl, alike.isInterval interval, result.isInterval interval'⟩
  | wrap =>
    obtain ⟨a, b, rfl, bound⟩ := accepts
    obtain ⟨a', b', left, right, rfl⟩ := pair_of_forall₂ operands
    refine ⟨a', b', rfl, ?_⟩
    rcases bound with ⟨w, rfl, wide⟩ | ⟨interval, bound | ⟨w, rfl⟩⟩
    · exact .inl ⟨w, (right.eq rfl).symm, wide⟩
    · exact .inr ⟨left.isInterval interval, .inl (right.isInterval bound)⟩
    · exact .inr ⟨left.isInterval interval, .inr ⟨w, (right.eq rfl).symm⟩⟩
  | _ => trivial

/-! ## Alignment keeps the contract -/

/-- The common point of points below a bound is below it. -/
theorem commonPoint_lt {points : List BitCount} {n : Nat} (positive : 0 < n)
    (each : ∀ p ∈ points, p.toNat < n) : (commonPoint points).toNat < n := by
  rcases eq_or_ne points [] with rfl | nonempty
  · exact positive
  · exact each _ (commonPoint_mem nonempty)

namespace Expr

/-- The operand, moved to a point that its interval can be at. -/
theorem exists_rescaled {e : Expr} {target : BitCount} (all : e.Everywhere Accepted)
    (interval : e.ty.isInterval = true) (small : target.toNat < BitCount.limit) :
    ∃ e', Rescaled target e e' ∧ e'.Everywhere Accepted ∧ e.ty.Alike e'.ty := by
  obtain ⟨t, ty⟩ := Ty.isInterval_iff.mp interval
  have proper : t.Proper := Ty.proper_interval_iff.mp (ty ▸ all.here.proper)
  obtain ⟨p, point, -⟩ := proper.hasPoint
  by_cases same : p = target
  · exact ⟨e, .same ⟨t, ty, same ▸ point⟩, all, .inl rfl⟩
  · refine ⟨_, .moved ty point same, everywhere_prim_iff.mpr ⟨⟨?_, ?_⟩, ?_⟩, .inr ⟨interval, rfl⟩⟩
    · exact Ty.proper_interval_iff.mpr (proper.atPoint small)
    · show Operator.Accepts _ [e.ty] _ _
      unfold rescaleStep
      split <;> exact ⟨_, rfl⟩
    · simpa using all

/-- Intervals that keep the contract have points to meet at. -/
theorem exists_recorded {args : List Expr} (all : ∀ arg ∈ args, arg.Everywhere Accepted)
    (intervals : ∀ arg ∈ args, arg.ty.isInterval = true) :
    ∃ points, List.Forall₂ (fun e p => e.ty.HasPoint p) args points ∧
      ∀ p ∈ points, p.toNat < BitCount.limit := by
  have each : ∀ arg ∈ args, ∃ p, arg.ty.HasPoint p ∧ p.toNat < BitCount.limit := by
    intro arg found
    obtain ⟨t, ty⟩ := Ty.isInterval_iff.mp (intervals arg found)
    obtain ⟨p, point, small⟩ :=
      (Ty.proper_interval_iff.mp (ty ▸ (all arg found).here.proper)).hasPoint
    exact ⟨p, ⟨t, ty, point⟩, small⟩
  obtain ⟨points, recorded⟩ := exists_forall₂ each
  exact ⟨points, recorded.imp fun _ _ => And.left,
    forall_mem_of_forall₂ recorded fun _ _ _ => And.right⟩

theorem repoint_alike (op : Operator) (p : BitCount) (ty : Ty) : ty.Alike (op.repoint p ty) := by
  unfold Operator.repoint
  split
  · exact .inr ⟨rfl, rfl⟩
  · exact .inr ⟨rfl, rfl⟩
  · exact .inl rfl

/-- A result type stays proper at another point below the limit. -/
theorem proper_repoint (op : Operator) {p : BitCount} {ty : Ty} (proper : ty.Proper)
    (small : p.toNat < BitCount.limit) : (op.repoint p ty).Proper := by
  unfold Operator.repoint
  split
  · exact Ty.proper_interval_iff.mpr ((Ty.proper_interval_iff.mp proper).atPoint small)
  · exact Ty.proper_interval_iff.mpr ((Ty.proper_interval_iff.mp proper).atPoint small)
  · exact proper

/-- An operator over aligned operands is aligned, and keeps the contract. -/
theorem exists_nodeAligned_prim {op : Operator} {args : List Expr} {consts : List Int} {ty : Ty}
    (here : (prim op args consts ty).Accepted) (inside : ∀ arg ∈ args, arg.Everywhere Accepted) :
    ∃ e', NodeAligned (.prim op args consts ty) e' ∧ e'.Everywhere Accepted ∧ ty.Alike e'.ty := by
  by_cases stays : op = .setp
  · subst stays
    obtain ⟨a, k, single, interval, result, amount, nonneg, small⟩ := here.ruled
    obtain ⟨arg, rfl, rfl⟩ := List.map_eq_singleton_iff.mp single
    have fits : consts.head?.bind BitCount.ofInt? = some (.ofNat k.toNat) := by
      rw [amount, Option.bind_some, BitCount.ofInt?_eq_some_iff, BitCount.toNat_ofNat]
      omega
    have below : (BitCount.ofNat k.toNat).toNat < BitCount.limit := by
      rw [BitCount.toNat_ofNat]
      omega
    obtain ⟨e', moved, all, alike⟩ :=
      exists_rescaled (inside arg List.mem_cons_self) interval below
    exact ⟨e', .setp ty fits moved, all, .inr ⟨result, alike.isInterval interval⟩⟩
  cases common : meets op args with
  | false =>
    exact ⟨_, .keep consts ty stays common, everywhere_prim_iff.mpr ⟨here, inside⟩, .inl rfl⟩
  | true =>
    have intervals : ∀ arg ∈ args, arg.ty.isInterval = true := by
      simp only [meets, Bool.and_eq_true, List.all_eq_true] at common
      exact common.2
    obtain ⟨points, recorded, small⟩ := exists_recorded inside intervals
    have below := commonPoint_lt (by decide) small
    obtain ⟨args', moved⟩ := exists_forall₂ fun arg found =>
      exists_rescaled (inside arg found) (intervals arg found) below
    refine ⟨_, .meet consts ty common recorded (moved.imp fun _ _ => And.left),
      everywhere_prim_iff.mpr ⟨⟨proper_repoint op here.proper below, ?_⟩, ?_⟩, repoint_alike ..⟩
    · refine here.ruled.alike ?_ (repoint_alike ..)
      rw [List.forall₂_map_left_iff, List.forall₂_map_right_iff]
      exact moved.imp fun _ _ h => h.2.2
    · exact forall_mem_of_forall₂ moved fun _ _ _ h => h.2.1

/-- A selection over aligned expressions is aligned, and keeps the contract. -/
theorem exists_nodeAligned_mux {cond tval fval : Expr} {ty : Ty}
    (here : (mux cond tval fval ty).Accepted) (condAll : cond.Everywhere Accepted)
    (tvalAll : tval.Everywhere Accepted) (fvalAll : fval.Everywhere Accepted) :
    ∃ e', NodeAligned (.mux cond tval fval ty) e' ∧ e'.Everywhere Accepted ∧ ty.Alike e'.ty := by
  cases interval : ty.isInterval with
  | false =>
    refine ⟨_, .other rfl fun selects => ?_, ?_, .inl rfl⟩
    · unfold IsIntervalMux at selects
      split at selects
      · rename_i same
        cases same
        cases interval
      · exact selects
    · exact everywhere_mux_iff.mpr ⟨here, condAll, tvalAll, fvalAll⟩
  | true =>
    obtain ⟨t, rfl⟩ := Ty.isInterval_iff.mp interval
    have branches := here.ruled interval
    have all : ∀ branch ∈ [tval, fval], branch.Everywhere Accepted := by
      simpa using ⟨tvalAll, fvalAll⟩
    obtain ⟨points, recorded, small⟩ := exists_recorded all (by simpa using branches)
    obtain ⟨p, q, left, right, rfl⟩ := pair_of_forall₂ recorded
    have below : (max p q).toNat < BitCount.limit := by
      rw [BitCount.toNat_max]
      exact max_lt (small p (by simp)) (small q (by simp))
    obtain ⟨tval', tmoved, tvalAll', talike⟩ := exists_rescaled tvalAll branches.1 below
    obtain ⟨fval', fmoved, fvalAll', falike⟩ := exists_rescaled fvalAll branches.2 below
    refine ⟨_, .select cond t left right tmoved fmoved,
      everywhere_mux_iff.mpr ⟨⟨?_, ?_⟩, condAll, tvalAll', fvalAll'⟩, .inr ⟨rfl, rfl⟩⟩
    · exact Ty.proper_interval_iff.mpr ((Ty.proper_interval_iff.mp here.proper).atPoint below)
    · exact fun _ => ⟨talike.isInterval branches.1, falike.isInterval branches.2⟩

/-- A node that keeps the contract, over aligned children that do, can be aligned, and what it
becomes keeps the contract. -/
theorem exists_nodeAligned {node : Expr} (here : node.Accepted)
    (inside : ∀ child ∈ node.children, child.Everywhere Accepted) :
    ∃ e', NodeAligned node e' ∧ e'.Everywhere Accepted ∧ node.ty.Alike e'.ty := by
  cases node with
  | prim => exact exists_nodeAligned_prim here inside
  | mux cond tval fval =>
    exact exists_nodeAligned_mux here (inside cond (by simp [children]))
      (inside tval (by simp [children])) (inside fval (by simp [children]))
  | ref | field | index | uint | sint =>
    exact ⟨_, .other rfl (by simp [IsIntervalMux]), ⟨here, inside⟩, .inl rfl⟩

/-- A node keeps the contract over other subexpressions of like types. -/
theorem Accepted.rebuilt {e node : Expr} (here : e.Accepted)
    (rebuilt : Rebuilt (fun a b => a.ty.Alike b.ty) e node) :
    node.Accepted ∧ node.ty = e.ty := by
  cases rebuilt with
  | ref | uint | sint => exact ⟨here, rfl⟩
  | field | index => exact ⟨⟨here.proper, trivial⟩, rfl⟩
  | prim op consts ty args =>
    refine ⟨⟨here.proper, here.ruled.alike ?_ (.inl rfl)⟩, rfl⟩
    rwa [List.forall₂_map_left_iff, List.forall₂_map_right_iff]
  | mux ty _ tval fval =>
    refine ⟨⟨here.proper, fun interval => ?_⟩, rfl⟩
    have branches := here.ruled interval
    exact ⟨tval.isInterval branches.1, fval.isInterval branches.2⟩

/-- An expression that keeps the contract can be aligned, and keeps it. -/
theorem exists_align {e : Expr} (all : e.Everywhere Accepted) :
    ∃ e', e.align.outcome = .ok e' ∧ e'.Everywhere Accepted ∧ e.ty.Alike e'.ty := by
  induction all with
  | intro here _ ih =>
    obtain ⟨node, rebuilt⟩ := exists_rebuilt ih
    obtain ⟨nodeHere, ty⟩ := here.rebuilt (rebuilt.imp fun _ _ h => h.2.2)
    obtain ⟨e', aligned, all', alike⟩ :=
      exists_nodeAligned nodeHere (forall_mem_of_forall₂ rebuilt.children fun _ _ _ h => h.2.1)
    exact ⟨e', align_eq_ok_iff.mpr ⟨node, rebuilt.imp fun _ _ => And.left, aligned⟩, all',
      ty ▸ alike⟩

/-- A connected value can be fitted to its location. -/
theorem exists_fitted {loc value : Expr} (locAll : loc.Everywhere Accepted)
    (valueAll : value.Everywhere Accepted)
    (source : loc.ty.isInterval = true → value.ty.isInterval = true) :
    ∃ value', loc.Fitted value value' ∧ value'.Everywhere Accepted ∧ value.ty.Alike value'.ty := by
  cases interval : loc.ty.isInterval with
  | false => exact ⟨value, .plain interval, valueAll, .inl rfl⟩
  | true =>
    obtain ⟨t, ty⟩ := Ty.isInterval_iff.mp interval
    obtain ⟨p, point, small⟩ :=
      (Ty.proper_interval_iff.mp (ty ▸ locAll.here.proper)).hasPoint
    obtain ⟨value', moved, all', alike⟩ := exists_rescaled valueAll (source interval) small
    exact ⟨value', .interval ⟨t, ty, point⟩ moved, all', alike⟩

end Expr

namespace Stmt

/-- A statement that is no connection and has no statements inside needs its declared type and its
expressions only. -/
theorem accepted_of_exprs {s : Stmt} (declared : ∀ ty ∈ s.declaredTy?, ty.Proper)
    (exprs : ∀ e ∈ s.exprs, e.Everywhere Expr.Accepted)
    (unconnected : ∀ loc value, s ≠ .connect loc value ∧ s ≠ .partialConnect loc value) :
    s.Accepted :=
  ⟨declared, exprs, fun loc value connects => connects.elim (fun same => absurd same
    (unconnected loc value).1) fun same => absurd same (unconnected loc value).2⟩

/-- A connection that keeps the contract has parts that can be aligned, and the value fitted; either
kind of connection of the new parts keeps the contract. -/
theorem exists_connection {s : Stmt} {loc value : Expr}
    (connects : s = .connect loc value ∨ s = .partialConnect loc value) (here : s.Accepted) :
    ∃ loc' value' value'', loc.align.outcome = .ok loc' ∧ value.align.outcome = .ok value' ∧
      loc'.Fitted value' value'' ∧
      ∀ s' : Stmt, s' = .connect loc' value'' ∨ s' = .partialConnect loc' value'' →
        s'.Everywhere Accepted := by
  have parts : loc ∈ s.exprs ∧ value ∈ s.exprs := by
    rcases connects with rfl | rfl <;> simp [exprs]
  obtain ⟨loc', locDone, locAll, locAlike⟩ := Expr.exists_align (here.exprs loc parts.1)
  obtain ⟨value', valueDone, valueAll, alike⟩ := Expr.exists_align (here.exprs value parts.2)
  have source : loc'.ty.isInterval = true → value'.ty.isInterval = true := fun interval =>
    alike.isInterval (here.sources loc value connects (locAlike.isInterval_eq ▸ interval))
  obtain ⟨value'', fitted, valueAll', alike'⟩ := Expr.exists_fitted locAll valueAll source
  refine ⟨loc', value', value'', locDone, valueDone, fitted, fun s' connects' => ?_⟩
  have declared : s'.declaredTy? = none := by rcases connects' with rfl | rfl <;> rfl
  have exprs' : s'.exprs = [loc', value''] := by rcases connects' with rfl | rfl <;> rfl
  have stmts' : s'.stmts = [] := by rcases connects' with rfl | rfl <;> rfl
  refine ⟨⟨by simp [declared], by simp [exprs', locAll, valueAll'], fun l v same interval => ?_⟩,
    by simp [stmts']⟩
  obtain ⟨rfl, rfl⟩ : loc' = l ∧ value'' = v := by
    rcases connects' with rfl | rfl <;> simpa using same
  exact alike'.isInterval (source interval)

/-- A statement that keeps the contract can be aligned, and keeps it. -/
theorem exists_align {s : Stmt} (all : s.Everywhere Accepted) :
    ∃ s', s.align.outcome = .ok s' ∧ s'.Everywhere Accepted := by
  induction s with
  | wire name ty => exact ⟨_, align_of_stmtAligned (.wire name ty), all⟩
  | skip => exact ⟨_, align_of_stmtAligned .skip, all⟩
  | reg name ty clock reset =>
    obtain ⟨declared, exprs, -⟩ := all.here
    cases reset with
    | none =>
      obtain ⟨clock', clockDone, clockAll, -⟩ :=
        Expr.exists_align (exprs clock (by simp [Stmt.exprs]))
      refine ⟨_, align_of_stmtAligned (.reg name ty clockDone), accepted_of_exprs declared ?_ ?_,
        by simp [stmts]⟩
      · simpa [Stmt.exprs] using clockAll
      · simp
    | some reset =>
      obtain ⟨clock', clockDone, clockAll, -⟩ :=
        Expr.exists_align (exprs clock (by simp [Stmt.exprs]))
      obtain ⟨signal', signalDone, signalAll, -⟩ :=
        Expr.exists_align (exprs reset.signal (by simp [Stmt.exprs]))
      obtain ⟨init', initDone, initAll, -⟩ :=
        Expr.exists_align (exprs reset.init (by simp [Stmt.exprs]))
      have aligned : StmtAligned _ (.reg name ty clock' (some ⟨signal', init'⟩)) :=
        .regReset name ty clockDone signalDone initDone
      refine ⟨_, align_of_stmtAligned aligned, accepted_of_exprs declared ?_ ?_, by simp [stmts]⟩
      · simpa [Stmt.exprs] using ⟨clockAll, signalAll, initAll⟩
      · simp
  | node name value =>
    obtain ⟨-, exprs, -⟩ := all.here
    obtain ⟨value', done, all', -⟩ := Expr.exists_align (exprs value (by simp [Stmt.exprs]))
    refine ⟨_, align_of_stmtAligned (.node name done),
      accepted_of_exprs (by simp [declaredTy?]) ?_ ?_, by simp [stmts]⟩
    · simpa [Stmt.exprs] using all'
    · simp
  | connect loc value =>
    obtain ⟨loc', _, value', locDone, valueDone, fitted, keeps⟩ :=
      exists_connection (.inl rfl) all.here
    exact ⟨_, align_of_stmtAligned (.connect locDone valueDone fitted), keeps _ (.inl rfl)⟩
  | partialConnect loc value =>
    obtain ⟨loc', _, value', locDone, valueDone, fitted, keeps⟩ :=
      exists_connection (.inr rfl) all.here
    exact ⟨_, align_of_stmtAligned (.partialConnect locDone valueDone fitted), keeps _ (.inr rfl)⟩
  | when cond conseq alt conseqIh altIh =>
    obtain ⟨-, exprs, -⟩ := all.here
    obtain ⟨cond', condDone, condAll, -⟩ := Expr.exists_align (exprs cond (by simp [Stmt.exprs]))
    obtain ⟨conseq', conseqDone, conseqAll⟩ := conseqIh (all.inside conseq (by simp [stmts]))
    obtain ⟨alt', altDone, altAll⟩ := altIh (all.inside alt (by simp [stmts]))
    refine ⟨_, align_of_stmtAligned (.when condDone conseqDone altDone),
      accepted_of_exprs (by simp [declaredTy?]) ?_ ?_, ?_⟩
    · simpa [Stmt.exprs] using condAll
    · simp
    · simpa [stmts] using ⟨conseqAll, altAll⟩
  | block stmts ih =>
    obtain ⟨stmts', each⟩ := exists_forall₂ fun s found => ih s found (all.inside s found)
    exact ⟨_, align_of_stmtAligned (.block (each.imp fun _ _ => And.left)),
      accepted_of_exprs (by simp [declaredTy?]) (by simp [Stmt.exprs]) (by simp),
      forall_mem_of_forall₂ each fun _ _ _ => And.right⟩
  | invalid loc =>
    obtain ⟨-, exprs, -⟩ := all.here
    obtain ⟨loc', done, all', -⟩ := Expr.exists_align (exprs loc (by simp [Stmt.exprs]))
    refine ⟨_, align_of_stmtAligned (.invalid done),
      accepted_of_exprs (by simp [declaredTy?]) ?_ ?_, by simp [stmts]⟩
    · simpa [Stmt.exprs] using all'
    · simp

end Stmt

/-! ## What keeps the contract can be lowered -/

/-- Once `setp` is gone, what the contract asks of an operator is all that lowering does. -/
theorem Operator.Accepts.lowers {op : Operator} {tys : List Ty} {consts : List Int} {ty : Ty}
    (accepts : op.Accepts tys consts ty) (stays : op ≠ .setp) (operands : ∀ t ∈ tys, t.Proper)
    (result : ty.Proper) : op.Lowers tys ty := by
  cases op with
  | setp => exact (stays rfl).elim
  | asInterval =>
    obtain ⟨a, rfl, known, -⟩ := accepts
    exact ⟨a, rfl, known⟩
  | incp | decp => exact accepts
  | clip =>
    obtain ⟨a, b, rfl, interval, interval'⟩ := accepts
    exact ⟨a, b, rfl, (operands a (by simp)).hasRange interval, result.hasRange interval'⟩
  | wrap =>
    obtain ⟨a, b, rfl, bound⟩ := accepts
    refine ⟨a, b, rfl, ?_⟩
    rcases bound with ⟨w, bound, wide⟩ | ⟨interval, bound⟩
    · exact .inl ⟨w, bound, by omega⟩
    · exact .inr ⟨(operands a (by simp)).hasRange interval,
        bound.imp_left (operands b (by simp)).hasRange⟩
  | _ => exact result.lowerable

/-- An expression that keeps the contract can be lowered where its operands are at common points. -/
theorem Expr.lowerable_of_accepted {e : Expr} (all : e.Everywhere Accepted)
    (meets : e.Everywhere PointsMeet) : e.Everywhere Lowerable := by
  induction all with
  | @intro e here inside ih =>
    refine ⟨?_, fun child found => ih child found (meets.inside child found)⟩
    cases e with
    | prim op args consts ty =>
      refine here.ruled.lowers meets.here.1 ?_ here.proper
      rw [List.forall_mem_map]
      exact fun arg found => (inside arg found).here.proper
    | ref | field | index | mux => exact here.proper.lowerable
    | uint | sint => trivial

/-- So can a statement. -/
theorem Stmt.lowerable_of_accepted {s : Stmt} (all : s.Everywhere Accepted)
    (meets : s.Everywhere PointsMeet) : s.Everywhere Lowerable := by
  induction all with
  | intro here _ ih =>
    refine ⟨⟨fun ty declared => (here.declared ty declared).lowerable, fun e found => ?_⟩,
      fun inner found => ih inner found (meets.inside inner found)⟩
    exact Expr.lowerable_of_accepted (here.exprs e found) (meets.here.exprs e found)

/-- The body of a module that keeps the contract can be aligned, and then the module lowered. -/
theorem Module.exists_align {m : Module} (accepted : m.Accepted) :
    ∃ m' : Module, (m'.name = m.name ∧ m'.ports = m.ports ∧
      Option.Rel (fun body body' => body.align.outcome = .ok body') m.body? m'.body?) ∧
      m'.Accepted ∧ m'.Lowerable := by
  obtain ⟨name, ports, body?⟩ := m
  obtain ⟨portsProper, body⟩ := accepted
  have portsLowerable : ∀ p ∈ ports, p.ty.Lowerable := fun p found =>
    (portsProper p found).lowerable
  cases body? with
  | none =>
    exact ⟨⟨name, ports, none⟩, ⟨rfl, rfl, .none⟩, ⟨portsProper, nofun⟩, portsLowerable, nofun⟩
  | some inner =>
    obtain ⟨body', done, all⟩ := Stmt.exists_align (body inner rfl)
    have lowerable := Stmt.lowerable_of_accepted all (Stmt.everywhere_pointsMeet_of_align done)
    refine ⟨⟨name, ports, some body'⟩, ⟨rfl, rfl, .some done⟩, ⟨portsProper, ?_⟩,
      portsLowerable, ?_⟩
    · rintro _ ⟨⟩
      exact all
    · rintro _ ⟨⟩
      exact lowerable

namespace Circuit

/-- Neither alignment nor lowering fails on a circuit that keeps the contract; between them it keeps
the contract. -/
theorem aligns_and_lowers_of_accepted {c : Circuit} (accepted : c.Accepted) :
    ∃ c', c.align.outcome = .ok c' ∧ c'.Accepted ∧
      ∀ warn, ∃ d, (c'.lower warn).outcome = .ok d := by
  obtain ⟨modules', related⟩ :=
    exists_forall₂ fun m found => Module.exists_align (accepted m found)
  refine ⟨⟨c.main, modules'⟩, ?_, ?_, fun warn => lower_succeeds_iff.mpr ?_⟩
  · exact align_eq_ok_iff.mpr ⟨rfl, related.imp fun _ _ => And.left⟩
  · exact forall_mem_of_forall₂ related fun _ _ _ h => h.2.1
  · exact forall_mem_of_forall₂ related fun _ _ _ h => h.2.2

/-- A circuit with each of the operators that the contract is about: raw bits read as an interval,
selected against a value at a point that was set, then saturated and wrapped. -/
def conditioned : Circuit :=
  let flag : Ty := .uint (.known (.ofNat 1))
  let ty (p : Nat) : Ty := .interval (.of (.ofInt (-4)) (.ofInt 3) (.known (.ofNat p)))
  let raw : Expr := .prim .asInterval [.ref "u" (.uint (.known (.ofNat 4)))] [-4, 3, 1] (ty 1)
  let set : Expr := .prim .setp [.prim .incp [.ref "a" (ty 1)] [2] (ty 3)] [2] (ty 2)
  let chosen : Expr := .mux (.ref "s" flag) raw set (ty 1)
  ⟨"Top", [⟨"Top",
    [⟨"s", .input, flag⟩, ⟨"u", .input, .uint (.known (.ofNat 4))⟩, ⟨"a", .input, ty 1⟩,
      ⟨"c", .output, ty 0⟩],
    some (.block [
      .node "n" (.prim .wrap [chosen, .ref "w" (.sint (.known (.ofNat 2)))] [] (ty 0)),
      .connect (.ref "c" (ty 0)) (.prim .clip [chosen, .ref "a" (ty 1)] [] (ty 0))])⟩]⟩

/-- The conditioned circuit keeps the contract. -/
theorem accepted_conditioned : conditioned.Accepted := by
  have proper (p : Nat) (small : p < 4) :
      (Ty.interval (.of (.ofInt (-4)) (.ofInt 3) (.known (.ofNat p)))).Proper := by
    refine Ty.proper_interval_iff.mpr ⟨_, _, _, ?_, rfl⟩
    rw [BitCount.toNat_ofNat]
    unfold BitCount.limit
    omega
  have uint (w : Width) : (Ty.uint w).Proper := nofun
  have sint (w : Width) : (Ty.sint w).Proper := nofun
  refine List.forall_mem_singleton.mpr ⟨by simp [proper, uint], ?_⟩
  rintro _ ⟨⟩
  refine ⟨⟨nofun, nofun, by simp⟩, List.forall_mem_cons.mpr ⟨⟨⟨nofun, ?_, by simp⟩, nofun⟩,
    List.forall_mem_singleton.mpr ⟨⟨nofun, ?_, ?_⟩, nofun⟩⟩⟩
  · simp [Stmt.exprs, Expr.accepted_iff, Expr.ty, proper, uint, sint, Expr.Ruled, Operator.Accepts,
      Ty.isInterval, BitCount.limit]
  · simp [Stmt.exprs, Expr.accepted_iff, Expr.ty, proper, uint, Expr.Ruled, Operator.Accepts,
      Ty.isInterval, BitCount.limit]
  · simp [Expr.ty, Ty.isInterval]

/-- It is aligned and lowered with no error. -/
theorem aligns_and_lowers_of_accepted_conditioned :
    conditioned.Accepted ∧ ∃ c', conditioned.align.outcome = .ok c' ∧ c'.Accepted ∧
      ∀ warn, ∃ d, (c'.lower warn).outcome = .ok d :=
  ⟨accepted_conditioned, aligns_and_lowers_of_accepted accepted_conditioned⟩

end Circuit

end IntervalHdl
