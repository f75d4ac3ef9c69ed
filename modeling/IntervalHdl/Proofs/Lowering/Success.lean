import IntervalHdl.Proofs.Lowering.Steps

/-!
# What lowering accepts

Lowering succeeds exactly when nothing in the circuit stands in its way, and each such condition is
one of a single node: the intervals in a type that is lowered are complete, and a reserved operator
has operands, and a clip a result, of the types that its rule takes. The rule of an operator looks
at the types recorded before lowering (`Operator.Lowers`), so the condition on a node does not
depend on how its operands are lowered, and the conditions of all nodes together are the condition
on the circuit (`Circuit.lower_succeeds_iff`).
-/

namespace IntervalHdl
set_option autoImplicit false

open Reported

/-- Bounds, point and width are all known. -/
def Interval.Complete (t : Interval) : Prop := t.isResolved = true ∧ t.width.isKnown = true

namespace Ty

mutual

/-- The intervals in a type, at any depth. -/
def intervals : Ty → List Interval
  | .interval t => [t]
  | .bundle fields => fieldIntervals fields
  | .vector elem _ => elem.intervals
  | .uint _ | .sint _ | .clock | .unknown => []

/-- The intervals in the types of fields. -/
def fieldIntervals : List (Field Ty) → List Interval
  | [] => []
  | ⟨_, _, ty⟩ :: fields => ty.intervals ++ fieldIntervals fields

end

theorem fieldIntervals_eq_flatMap (fields : List (Field Ty)) :
    fieldIntervals fields = fields.flatMap fun field => field.ty.intervals := by
  induction fields with
  | nil => rfl
  | cons field fields ih => rw [fieldIntervals, ih, List.flatMap_cons]

@[simp] theorem intervals_bundle (fields : List (Field Ty)) :
    (Ty.bundle fields).intervals = fields.flatMap fun field => field.ty.intervals := by
  rw [intervals, fieldIntervals_eq_flatMap]

@[simp] theorem intervals_vector (elem : Ty) (size : UInt64) :
    (Ty.vector elem size).intervals = elem.intervals := by
  rw [intervals]

@[simp] theorem intervals_interval (t : Interval) : (Ty.interval t).intervals = [t] := by
  rw [intervals]

/-- Every interval in the type is complete. -/
def Lowerable (t : Ty) : Prop := ∀ i ∈ t.intervals, i.Complete

/-- An interval whose ends have encodings. -/
def HasRange (t : Ty) : Prop := ∃ i, t = .interval i ∧ i.isResolved = true

end Ty

/-- The operator can be lowered over operands recorded at the types, with a result recorded at
`ty`. -/
def Operator.Lowers (op : Operator) (tys : List Ty) (ty : Ty) : Prop :=
  match op with
  | .setp => False
  | .asInterval => ∃ a, tys = [a] ∧ a ≠ .uint .unknown
  | .incp | .decp => ∃ a, tys = [a]
  | .clip => ∃ a b, tys = [a, b] ∧ a.HasRange ∧ ty.HasRange
  | .wrap => ∃ a b, tys = [a, b] ∧
    ((∃ w : BitCount, b = .sint (.known w) ∧ w.toNat ≠ 0) ∨
      a.HasRange ∧ (b.HasRange ∨ ∃ w, b = .uint (.known w)))
  | _ => ty.Lowerable

/-- The node itself can be lowered. -/
def Expr.Lowerable : Expr → Prop
  | .ref _ ty | .field _ _ ty | .index _ _ ty | .mux _ _ _ ty => ty.Lowerable
  | .uint _ _ | .sint _ _ => True
  | .prim op args _ ty => op.Lowers (args.map Expr.ty) ty

/-- The declared type and the expressions of the statement itself can be lowered. -/
structure Stmt.Lowerable (s : Stmt) : Prop where
  declared : ∀ ty ∈ s.declaredTy?, ty.Lowerable
  exprs : ∀ e ∈ s.exprs, e.Everywhere Expr.Lowerable

/-- The ports and every position of the body can be lowered. -/
structure Module.Lowerable (m : Module) : Prop where
  ports : ∀ p ∈ m.ports, p.ty.Lowerable
  body : ∀ body ∈ m.body?, body.Everywhere Stmt.Lowerable

/-- Everything in the circuit can be lowered. -/
def Circuit.Lowerable (c : Circuit) : Prop := ∀ m ∈ c.modules, m.Lowerable

/-! ## Types -/

/-- An interval has an integer type exactly when it is complete. -/
theorem Interval.lowered_succeeds_iff {t : Interval} :
    (∃ ty, t.lowered = .ok ty) ↔ t.Complete := by
  simp only [lowered_eq_ok_iff, Complete, isResolved_iff, Width.isKnown_iff]
  constructor
  · rintro ⟨_, ⟨a, b⟩, p, w, ends, point, width, -⟩
    obtain ⟨lo, hi, q, lower, upper, point', -⟩ := encodings?_eq_some_iff.mp ends
    exact ⟨⟨lo, hi, q, lower, upper, point'⟩, w, width⟩
  · rintro ⟨⟨lo, hi, p, lower, upper, point⟩, w, width⟩
    have ends := encodings?_eq_some_iff.mpr ⟨lo, hi, p, lower, upper, point, rfl, rfl⟩
    exact ⟨_, _, p, w, ends, point, width, rfl⟩

/-- The ends of an interval have encodings exactly when its bounds and its point are known. -/
theorem Interval.resolved_succeeds_iff {t : Interval} :
    (∃ ends, t.resolved = .ok ends) ↔ t.isResolved = true := by
  simp only [resolved_eq_ok_iff, isResolved_iff, Prod.exists, encodings?_eq_some_iff]
  constructor
  · rintro ⟨_, _, lo, hi, p, lower, upper, point, -⟩
    exact ⟨lo, hi, p, lower, upper, point⟩
  · rintro ⟨lo, hi, p, lower, upper, point⟩
    exact ⟨_, _, lo, hi, p, lower, upper, point, rfl, rfl⟩

namespace Ty

/-- A type without intervals can be lowered. -/
theorem lowerable_of_intervals_eq_nil {t : Ty} (none : t.intervals = []) : t.Lowerable := by
  simp [Lowerable, none]

/-- A type is lowered exactly when every interval in it is complete. -/
theorem lower_succeeds_iff {t : Ty} : (∃ t', t.lower.outcome = .ok t') ↔ t.Lowerable := by
  induction t with
  | uint | sint | clock | unknown => exact iff_of_true ⟨_, rfl⟩ (lowerable_of_intervals_eq_nil rfl)
  | interval t =>
    rw [lower_interval_outcome, Interval.lowered_succeeds_iff, Lowerable, intervals_interval,
      List.forall_mem_singleton]
  | bundle fields ih =>
    have each : (∃ fields', (lowerFields fields).outcome = .ok fields') ↔
        ∀ field ∈ fields, field.ty.Lowerable := by
      simp only [lowerFields_outcome_eq_ok_iff, exists_forall₂_iff]
      refine forall₂_congr fun field found => ?_
      rw [← ih field found]
      constructor
      · rintro ⟨field', -, -, done⟩
        exact ⟨_, done⟩
      · rintro ⟨ty', done⟩
        exact ⟨⟨field.name, field.flip, ty'⟩, rfl, rfl, done⟩
    have flat : (Ty.bundle fields).Lowerable ↔ ∀ field ∈ fields, field.ty.Lowerable := by
      simp only [Lowerable, intervals_bundle, List.mem_flatMap]
      exact ⟨fun all field found i inside => all i ⟨field, found, inside⟩,
        fun all i ⟨field, found, inside⟩ => all field found i inside⟩
    simp [flat, ← each, lower, map_succeeds_iff]
  | vector elem size ih =>
    rw [Lowerable, intervals_vector, ← Lowerable, ← ih]
    simp [lower, map_succeeds_iff]

/-- A saturation has a target exactly when its type is an interval with encodings. -/
theorem clipRange_succeeds_iff {t : Ty} : (∃ ends, t.clipRange = .ok ends) ↔ t.HasRange := by
  cases t with
  | interval t => simpa only [clipRange, HasRange, Ty.interval.injEq, exists_eq_left'] using
      Interval.resolved_succeeds_iff
  | uint | sint | clock | bundle | vector | unknown => simp [clipRange, HasRange]

end Ty

/-- An operand has a range exactly when its type is an interval with encodings. -/
theorem Operator.operandRange_succeeds_iff (op : Operator) {t : Ty} :
    (∃ ends, op.operandRange t = .ok ends) ↔ t.HasRange := by
  cases t with
  | interval t => simpa only [operandRange, Ty.HasRange, Ty.interval.injEq, exists_eq_left'] using
      Interval.resolved_succeeds_iff
  | uint | sint | clock | bundle | vector | unknown => simp [operandRange, Ty.HasRange]

/-- A range to wrap into comes from an interval that has one, or from a known unsigned width. -/
theorem Ty.wrapRange_iff {t : Ty} :
    (∃ lo hi, t.WrapRange lo hi) ↔ t.HasRange ∨ ∃ w, t = .uint (.known w) := by
  constructor
  · rintro ⟨lo, hi, ⟨w⟩ | ends⟩
    · exact .inr ⟨_, rfl⟩
    · exact .inl ⟨_, rfl, Interval.resolved_succeeds_iff.mp
        ⟨_, Interval.resolved_eq_ok_iff.mpr ends⟩⟩
  · rintro (⟨t, rfl, known⟩ | ⟨w, rfl⟩)
    · obtain ⟨⟨lo, hi⟩, ends⟩ := Interval.resolved_succeeds_iff.mpr known
      exact ⟨lo, hi, .interval (Interval.resolved_eq_ok_iff.mp ends)⟩
    · exact ⟨_, _, .uint w⟩

/-! ## Expressions -/

namespace Operand

variable {warn : Bool} {operands : List Operand}

theorem recorded_eq_singleton_iff {t : Ty} :
    operands.map recorded = [t] ↔ ∃ a, operands = [a] ∧ a.recorded = t := by
  simp [List.map_eq_cons_iff]

theorem recorded_eq_pair_iff {t u : Ty} :
    operands.map recorded = [t, u] ↔
      ∃ a b, operands = [a, b] ∧ a.recorded = t ∧ b.recorded = u := by
  simp only [List.map_eq_cons_iff, List.map_eq_nil_iff]
  constructor
  · rintro ⟨a, _, rfl, left, b, _, rfl, right, rfl⟩
    exact ⟨a, b, rfl, left, right⟩
  · rintro ⟨a, b, rfl, left, right⟩
    exact ⟨a, _, rfl, left, b, _, rfl, right, rfl⟩

/-- A cast is lowered exactly over one operand that is no unsigned integer of unknown width. -/
theorem lowerCast_succeeds_iff :
    (∃ e, (lowerCast operands).outcome = .ok e) ↔
      ∃ t, operands.map recorded = [t] ∧ t ≠ .uint .unknown := by
  simp only [lowerCast_eq_ok_iff, recorded_eq_singleton_iff]
  constructor
  · rintro ⟨_, a, rfl, known, -⟩
    exact ⟨_, ⟨a, rfl, rfl⟩, known⟩
  · rintro ⟨_, ⟨a, rfl, rfl⟩, known⟩
    exact ⟨_, a, rfl, known, rfl⟩

/-- A move of the point is lowered exactly over one operand. -/
theorem lowerShift_succeeds_iff {shift : Operator} {consts : List Int} :
    (∃ e, (lowerShift shift consts operands).outcome = .ok e) ↔
      ∃ t, operands.map recorded = [t] := by
  simp only [lowerShift_eq_ok_iff, recorded_eq_singleton_iff]
  constructor
  · rintro ⟨_, a, rfl, -⟩
    exact ⟨_, a, rfl, rfl⟩
  · rintro ⟨_, a, rfl, -⟩
    exact ⟨_, a, rfl, rfl⟩

/-- A saturation is lowered exactly over two operands, with a range of the first and of the result.
-/
theorem lowerClip_succeeds_iff {result : Ty} :
    (∃ e, (lowerClip result operands).outcome = .ok e) ↔
      ∃ t u, operands.map recorded = [t, u] ∧ t.HasRange ∧ result.HasRange := by
  simp only [lowerClip_eq_ok_iff, recorded_eq_pair_iff]
  constructor
  · rintro ⟨_, a, b, lo, hi, inLo, inHi, rfl, target, range, -⟩
    exact ⟨_, _, ⟨a, b, rfl, rfl, rfl⟩, (Operator.operandRange_succeeds_iff _).mp ⟨_, range⟩,
      Ty.clipRange_succeeds_iff.mp ⟨_, target⟩⟩
  · rintro ⟨_, _, ⟨a, b, rfl, rfl, rfl⟩, range, target⟩
    obtain ⟨⟨inLo, inHi⟩, range⟩ := (Operator.operandRange_succeeds_iff .clip).mpr range
    obtain ⟨⟨lo, hi⟩, target⟩ := Ty.clipRange_succeeds_iff.mpr target
    exact ⟨_, a, b, lo, hi, inLo, inHi, rfl, target, range, rfl⟩

/-- A wrap into given ends is lowered exactly over an operand with a range. -/
theorem lowerWrapInto_succeeds_iff {a : Operand} {lo hi : Int} :
    (∃ e, (lowerWrapInto warn a lo hi).outcome = .ok e) ↔ a.recorded.HasRange := by
  simp only [lowerWrapInto_eq_ok_iff, ← Operator.operandRange_succeeds_iff .wrap]
  constructor
  · rintro ⟨_, inLo, inHi, range, -⟩
    exact ⟨_, range⟩
  · rintro ⟨⟨inLo, inHi⟩, range⟩
    exact ⟨_, inLo, inHi, range, rfl⟩

/-- A wrap is lowered exactly into a signed width that is not zero, or over an operand with a range
into a range or an unsigned width. -/
theorem lowerWrap_succeeds_iff :
    (∃ e, (lowerWrap warn operands).outcome = .ok e) ↔
      ∃ t u, operands.map recorded = [t, u] ∧
        ((∃ w : BitCount, u = .sint (.known w) ∧ w.toNat ≠ 0) ∨
          t.HasRange ∧ (u.HasRange ∨ ∃ w, u = .uint (.known w))) := by
  simp only [lowerWrap_eq_ok_iff, recorded_eq_pair_iff]
  constructor
  · rintro ⟨e, a, b, rfl, ⟨w, bound, done⟩ | ⟨lo, hi, range, done⟩⟩
    · obtain ⟨n, rfl, wide, -⟩ := lowerWidthWrap_eq_ok_iff.mp done
      exact ⟨_, _, ⟨a, b, rfl, rfl, rfl⟩, .inl ⟨n, bound, wide⟩⟩
    · exact ⟨_, _, ⟨a, b, rfl, rfl, rfl⟩, .inr ⟨lowerWrapInto_succeeds_iff.mp ⟨e, done⟩,
        Ty.wrapRange_iff.mp ⟨lo, hi, range⟩⟩⟩
  · rintro ⟨_, _, ⟨a, b, rfl, rfl, rfl⟩, ⟨w, bound, wide⟩ | ⟨value, bound⟩⟩
    · exact ⟨_, a, b, rfl, .inl ⟨_, bound, lowerWidthWrap_eq_ok_iff.mpr ⟨w, rfl, wide, rfl⟩⟩⟩
    · obtain ⟨lo, hi, range⟩ := Ty.wrapRange_iff.mpr bound
      obtain ⟨e, done⟩ := lowerWrapInto_succeeds_iff.mpr value
      exact ⟨e, a, b, rfl, .inr ⟨lo, hi, range, done⟩⟩

end Operand

/-- An operator that is not reserved for intervals takes any operands. -/
theorem Operator.lowers_of_generic {op : Operator} (special : op.isIntervalOnly = false)
    {tys : List Ty} {ty : Ty} : op.Lowers tys ty ↔ ty.Lowerable := by
  cases op <;> first | exact Iff.rfl | cases special

/-- Whether an operator can be lowered is a matter of the recorded types alone. -/
theorem Operator.lower_succeeds_iff {warn : Bool} {op : Operator} {operands : List Operand}
    {consts : List Int} {ty : Ty} :
    (∃ e, (op.lower warn operands consts ty).outcome = .ok e) ↔
      op.Lowers (operands.map Operand.recorded) ty := by
  cases special : op.isIntervalOnly with
  | false =>
    simp [lowers_of_generic special, ← Ty.lower_succeeds_iff, lower_of_generic special, map_succeeds_iff]
  | true =>
    cases op with
    | asInterval => exact Operand.lowerCast_succeeds_iff
    | incp | decp => exact Operand.lowerShift_succeeds_iff
    | clip => exact Operand.lowerClip_succeeds_iff
    | wrap => exact Operand.lowerWrap_succeeds_iff
    | setp => exact iff_of_false (fun ⟨_, failed⟩ => nomatch failed) id
    | _ => cases special

namespace Expr

variable {warn : Bool}

/-- Operands are lowered exactly when each of them is. -/
theorem lowerOperands_succeeds_iff {es : List Expr} :
    (∃ operands, (lowerOperands warn es).outcome = .ok operands) ↔
      ∀ e ∈ es, ∃ e', (e.lower warn).outcome = .ok e' := by
  simp only [lowerOperands_outcome_eq_ok_iff, exists_forall₂_iff]
  refine forall₂_congr fun e _ => ⟨fun ⟨o, done, _⟩ => ⟨_, done⟩, fun ⟨e', done⟩ => ?_⟩
  exact ⟨⟨e', e.ty⟩, done, rfl⟩

/-- Lowered operands keep the types that they had. -/
theorem recorded_of_lowerOperands {es : List Expr} {operands : List Operand}
    (done : (lowerOperands warn es).outcome = .ok operands) :
    operands.map Operand.recorded = es.map Expr.ty := by
  have each := lowerOperands_outcome_eq_ok_iff.mp done
  clear done
  induction each with
  | nil => rfl
  | cons head _ ih => rw [List.map_cons, List.map_cons, head.2, ih]

/-- An expression can be lowered exactly when each of its nodes can. -/
theorem lower_succeeds_iff {e : Expr} :
    (∃ e', (e.lower warn).outcome = .ok e') ↔ e.Everywhere Lowerable := by
  induction e with
  | ref name ty =>
    rw [everywhere_ref_iff, Lowerable, ← Ty.lower_succeeds_iff]
    simp [lower, map_succeeds_iff]
  | uint | sint =>
    exact iff_of_true ⟨_, by rw [lower]; rfl⟩ ⟨trivial, nofun⟩
  | field parent name ty ih =>
    rw [everywhere_field_iff, Lowerable, ← Ty.lower_succeeds_iff, ← ih]
    simp [lower, bind_succeeds_iff, map_succeeds_iff, and_comm]
  | index parent position ty ih =>
    rw [everywhere_index_iff, Lowerable, ← Ty.lower_succeeds_iff, ← ih]
    simp [lower, bind_succeeds_iff, map_succeeds_iff, and_comm]
  | prim op args consts ty ih =>
    have operands : (∃ operands, (lowerOperands warn args).outcome = .ok operands) ↔
        ∀ arg ∈ args, arg.Everywhere Lowerable :=
      lowerOperands_succeeds_iff.trans (forall₂_congr ih)
    rw [everywhere_prim_iff, Lowerable, ← operands, lower, bind_succeeds_iff]
    simp only [Operator.lower_succeeds_iff]
    constructor
    · rintro ⟨operands, inner, takes⟩
      exact ⟨recorded_of_lowerOperands inner ▸ takes, operands, inner⟩
    · rintro ⟨takes, operands, inner⟩
      exact ⟨operands, inner, (recorded_of_lowerOperands inner).symm ▸ takes⟩
  | mux cond tval fval ty condIh tvalIh fvalIh =>
    rw [everywhere_mux_iff, Lowerable, ← Ty.lower_succeeds_iff, ← condIh, ← tvalIh, ← fvalIh]
    simp [lower, bind_succeeds_iff, map_succeeds_iff, and_comm, and_assoc]

end Expr

/-! ## Statements and circuits -/

namespace Stmt

variable {warn : Bool}

/-- Statements in order are lowered exactly when each of them is. -/
theorem lowerAll_succeeds_iff {stmts : List Stmt} :
    (∃ stmts', (lowerAll warn stmts).outcome = .ok stmts') ↔
      ∀ s ∈ stmts, ∃ s', (s.lower warn).outcome = .ok s' := by
  simp only [lowerAll_eq_mapM, mapM_outcome_eq_ok_iff, exists_forall₂_iff]

/-- The parts of a statement, each of them to be lowered on its own. -/
theorem everywhere_lowerable_iff (warn : Bool) {s : Stmt} :
    s.Everywhere Lowerable ↔
      (∀ ty ∈ s.declaredTy?, ∃ ty', ty.lower.outcome = .ok ty') ∧
        (∀ e ∈ s.exprs, ∃ e', (e.lower warn).outcome = .ok e') ∧
        ∀ inner ∈ s.stmts, inner.Everywhere Lowerable := by
  simp only [Ty.lower_succeeds_iff, Expr.lower_succeeds_iff]
  rw [everywhere_iff, ← and_assoc]
  exact and_congr_left fun _ => ⟨fun ⟨declared, exprs⟩ => ⟨declared, exprs⟩,
    fun ⟨declared, exprs⟩ => ⟨declared, exprs⟩⟩

/-- A statement can be lowered exactly when each position in it can. -/
theorem lower_succeeds_iff {s : Stmt} :
    (∃ s', (s.lower warn).outcome = .ok s') ↔ s.Everywhere Lowerable := by
  rw [everywhere_lowerable_iff warn]
  induction s with
  | skip => exact iff_of_true ⟨.skip, rfl⟩ ⟨nofun, nofun, nofun⟩
  | reg name ty clock reset =>
    cases reset <;>
      simp [declaredTy?, exprs, stmts, lower, mapExprsM, bind_succeeds_iff, map_succeeds_iff]
  | when cond conseq alt conseqIh altIh =>
    rw [← everywhere_lowerable_iff warn] at conseqIh altIh
    simp [declaredTy?, exprs, stmts, lower, bind_succeeds_iff, map_succeeds_iff, ← conseqIh,
      ← altIh, and_comm, and_left_comm]
  | block stmts ih =>
    simp only [← everywhere_lowerable_iff warn] at ih
    simpa [declaredTy?, exprs, Stmt.stmts, lower, map_succeeds_iff, lowerAll_succeeds_iff] using
      forall₂_congr ih
  | wire | node | connect | partialConnect | invalid =>
    simp [declaredTy?, exprs, stmts, lower, bind_succeeds_iff, map_succeeds_iff]

end Stmt

/-- A port is lowered exactly when its type can be. -/
theorem Port.lower_succeeds_iff {p : Port} :
    (∃ p', p.lower.outcome = .ok p') ↔ p.ty.Lowerable := by
  simp [lower, mapTyM, map_succeeds_iff, Ty.lower_succeeds_iff]

/-- A module is lowered exactly when its ports and every position of its body can be. -/
theorem Module.lower_succeeds_iff (warn : Bool) {m : Module} :
    (∃ m', (m.lower warn).outcome = .ok m') ↔ m.Lowerable := by
  constructor
  · rintro ⟨m', done⟩
    obtain ⟨-, ports, body⟩ := Module.lower_eq_ok_iff.mp done
    refine ⟨fun p found => ?_, fun inner present => ?_⟩
    · exact Port.lower_succeeds_iff.mp (exists_forall₂_iff.mp ⟨_, ports⟩ p found)
    · rw [Option.mem_def.mp present] at body
      generalize m'.body? = after at body
      cases body with
      | some done => exact Stmt.lower_succeeds_iff.mp ⟨_, done⟩
  · intro able
    obtain ⟨ports', ports⟩ := exists_forall₂_iff.mpr fun p found =>
      Port.lower_succeeds_iff.mpr (able.ports p found)
    obtain ⟨body'?, body⟩ : ∃ body'?, Option.Rel
        (fun body body' => (Stmt.lower warn body).outcome = .ok body') m.body? body'? := by
      cases present : m.body? with
      | none => exact ⟨none, .none⟩
      | some inner =>
        obtain ⟨inner', done⟩ := Stmt.lower_succeeds_iff.mpr (able.body inner present)
        exact ⟨some inner', .some done⟩
    exact ⟨⟨m.name, ports', body'?⟩, Module.lower_eq_ok_iff.mpr ⟨rfl, ports, body⟩⟩

/-- A circuit can be lowered exactly when everything in it can. -/
theorem Circuit.lower_succeeds_iff {warn : Bool} {c : Circuit} :
    (∃ c', (c.lower warn).outcome = .ok c') ↔ c.Lowerable := by
  simp only [Circuit.lower_eq_ok_iff, Circuit.Lowerable, ← Module.lower_succeeds_iff warn,
    ← exists_forall₂_iff]
  constructor
  · rintro ⟨c', -, modules⟩
    exact ⟨_, modules⟩
  · rintro ⟨modules', modules⟩
    exact ⟨⟨c.main, modules'⟩, rfl, modules⟩

end IntervalHdl
