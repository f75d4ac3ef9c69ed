import IntervalHdl.Proofs.Nodes

/-!
# What lowering rejects

The ways in which a circuit cannot be lowered, one by one: an interval that is recorded where types
are lowered and misses a bound, its point or its width, and an operator that is used on operands, or
for a result, that its rule does not take. Lowering fails exactly where one of them is found among
the recorded intervals or the nodes (`Circuit.lower_fails_iff`), wherever in the circuit that is.
-/

namespace IntervalHdl
set_option autoImplicit false

open Reported

/-- A bound is open, or the point or the width is unknown. -/
def Interval.Incomplete (t : Interval) : Prop :=
  t.hasOpenBound = true ∨ t.point = .unknown ∨ t.width = .unknown

/-- A type that gives no range to wrap into. -/
inductive Ty.Unwrappable : Ty → Prop where
  | sintUnknown : Unwrappable (.sint .unknown)
  | sintEmpty {w : BitCount} (empty : w.toNat = 0) : Unwrappable (.sint (.known w))
  | uintUnknown : Unwrappable (.uint .unknown)
  | interval {t : Interval} (unresolved : t.isResolved = false) : Unwrappable (.interval t)
  | other {t : Ty} (unsigned : ∀ w, t ≠ .uint w) (signed : ∀ w, t ≠ .sint w)
    (plain : t.isInterval = false) : Unwrappable t

/-- The operator does not take operands recorded at the types, or a result recorded at the last
type. -/
inductive Operator.Misused : Operator → List Ty → Ty → Prop where
  | setp (tys : List Ty) (ty : Ty) : Misused .setp tys ty
  | unary {op : Operator} {tys : List Ty} (ty : Ty)
    (single : op = .asInterval ∨ op = .incp ∨ op = .decp) (count : tys.length ≠ 1) :
    Misused op tys ty
  | binary {op : Operator} {tys : List Ty} (ty : Ty) (double : op = .clip ∨ op = .wrap)
    (count : tys.length ≠ 2) : Misused op tys ty
  | cast (ty : Ty) : Misused .asInterval [.uint .unknown] ty
  | clipResult {ty : Ty} (a b : Ty) (rangeless : ¬ ty.HasRange) : Misused .clip [a, b] ty
  | clipOperand {a : Ty} (b ty : Ty) (rangeless : ¬ a.HasRange) : Misused .clip [a, b] ty
  | wrapBound {b : Ty} (a ty : Ty) (bound : b.Unwrappable) : Misused .wrap [a, b] ty
  | wrapOperand {a b : Ty} (ty : Ty) (bound : b.HasRange ∨ ∃ w, b = .uint (.known w))
    (rangeless : ¬ a.HasRange) : Misused .wrap [a, b] ty

/-- The node itself misuses its operator. -/
def Expr.Misused : Expr → Prop
  | .prim op args _ ty => op.Misused (args.map Expr.ty) ty
  | _ => False

theorem Interval.complete_iff {t : Interval} : t.Complete ↔ ¬ t.Incomplete := by
  rcases t with ⟨lower, upper, point, width⟩
  cases lower <;> cases upper <;> cases point <;> cases width <;>
    simp [Complete, Incomplete, isResolved, hasOpenBound, Bound.isKnown, Width.isKnown]

/-! ## Operators -/

/-- A type gives nothing to wrap into unless it is a signed width with bits to keep, or gives a
range. -/
theorem Ty.unwrappable_iff {t : Ty} :
    t.Unwrappable ↔ ¬ ((∃ w : BitCount, t = .sint (.known w) ∧ w.toNat ≠ 0) ∨ t.HasRange ∨
      ∃ w, t = .uint (.known w)) := by
  constructor
  · rintro unwrappable (⟨w, rfl, wide⟩ | ⟨i, rfl, resolved⟩ | ⟨w, rfl⟩)
    · cases unwrappable with
      | sintEmpty empty => exact wide empty
      | other _ signed _ => exact signed _ rfl
    · cases unwrappable with
      | interval unresolved => cases resolved.symm.trans unresolved
      | other _ _ plain => cases plain
    · cases unwrappable with
      | other unsigned => exact unsigned _ rfl
  · intro nothing
    cases t with
    | uint w =>
      cases w with
      | known w => exact (nothing (.inr (.inr ⟨w, rfl⟩))).elim
      | unknown => exact .uintUnknown
    | sint w =>
      cases w with
      | known w =>
        by_cases empty : w.toNat = 0
        · exact .sintEmpty empty
        · exact (nothing (.inl ⟨w, rfl, empty⟩)).elim
      | unknown => exact .sintUnknown
    | interval i =>
      cases resolved : i.isResolved with
      | false => exact .interval resolved
      | true => exact (nothing (.inr (.inl ⟨i, rfl, resolved⟩))).elim
    | clock | bundle | vector | unknown => exact .other nofun nofun rfl

namespace Operator

variable {op : Operator} {tys : List Ty} {ty : Ty}

/-- Only operators that are reserved for intervals can be misused. -/
theorem Misused.isIntervalOnly (misused : op.Misused tys ty) : op.isIntervalOnly = true := by
  cases misused with
  | unary _ single => rcases single with rfl | rfl | rfl <;> rfl
  | binary _ double => rcases double with rfl | rfl <;> rfl
  | setp | cast | clipResult | clipOperand | wrapBound | wrapOperand => rfl

/-- A misused operator cannot be lowered. -/
theorem Misused.not_lowers (misused : op.Misused tys ty) : ¬ op.Lowers tys ty := by
  cases misused with
  | setp => exact id
  | unary _ single count =>
    rcases single with rfl | rfl | rfl
    · rintro ⟨a, rfl, -⟩
      exact count rfl
    · rintro ⟨a, rfl⟩
      exact count rfl
    · rintro ⟨a, rfl⟩
      exact count rfl
  | binary _ double count =>
    rcases double with rfl | rfl
    · rintro ⟨a, b, rfl, -⟩
      exact count rfl
    · rintro ⟨a, b, rfl, -⟩
      exact count rfl
  | cast =>
    rintro ⟨_, ⟨⟩, known⟩
    exact known rfl
  | clipResult _ _ rangeless =>
    rintro ⟨_, _, ⟨⟩, -, range⟩
    exact rangeless range
  | clipOperand _ _ rangeless =>
    rintro ⟨_, _, ⟨⟩, range, -⟩
    exact rangeless range
  | wrapBound _ _ bound =>
    rintro ⟨_, _, ⟨⟩, width | ⟨-, range⟩⟩
    · exact Ty.unwrappable_iff.mp bound (.inl width)
    · exact Ty.unwrappable_iff.mp bound (.inr range)
  | wrapOperand _ bound rangeless =>
    rintro ⟨_, _, ⟨⟩, ⟨w, rfl, -⟩ | ⟨range, -⟩⟩
    · rcases bound with ⟨_, ⟨⟩, _⟩ | ⟨_, ⟨⟩⟩
    · exact rangeless range

/-- An operator that is reserved for intervals and cannot be lowered is misused. -/
theorem misused_of_not_lowers (special : op.isIntervalOnly = true) (stuck : ¬ op.Lowers tys ty) :
    op.Misused tys ty := by
  cases op with
  | setp => exact .setp tys ty
  | incp | decp =>
    exact .unary ty (by simp) fun single => stuck (List.length_eq_one_iff.mp single)
  | asInterval =>
    by_cases single : tys.length = 1
    · obtain ⟨a, rfl⟩ := List.length_eq_one_iff.mp single
      obtain rfl : a = .uint .unknown := by_contra fun known => stuck ⟨a, rfl, known⟩
      exact .cast ty
    · exact .unary ty (.inl rfl) single
  | clip =>
    by_cases double : tys.length = 2
    · obtain ⟨a, b, rfl⟩ := List.length_eq_two.mp double
      by_cases range : a.HasRange
      · exact .clipResult a b fun result => stuck ⟨a, b, rfl, range, result⟩
      · exact .clipOperand b ty range
    · exact .binary ty (.inl rfl) double
  | wrap =>
    by_cases double : tys.length = 2
    · obtain ⟨a, b, rfl⟩ := List.length_eq_two.mp double
      by_cases bound : b.Unwrappable
      · exact .wrapBound a ty bound
      · -- A signed width takes any operand; only a range asks the operand for one.
        rw [Ty.unwrappable_iff, not_not] at bound
        rcases bound with width | range
        · exact (stuck ⟨a, b, rfl, .inl width⟩).elim
        · exact .wrapOperand ty range fun operand => stuck ⟨a, b, rfl, .inr ⟨operand, range⟩⟩
    · exact .binary ty (.inr rfl) double
  | _ => cases special

end Operator

/-- A node can be lowered when the intervals that stay with it are complete and it does not misuse
its operator. -/
theorem Expr.lowerable_iff {e : Expr} :
    e.Lowerable ↔ (∀ i ∈ e.carried, i.Complete) ∧ ¬ e.Misused := by
  cases e with
  | ref | field | index | mux | uint | sint => simp [Lowerable, Ty.Lowerable, carried, Misused]
  | prim op args consts ty =>
    cases special : op.isIntervalOnly with
    | false =>
      have used : ¬ op.Misused (args.map Expr.ty) ty := by
        intro misused
        cases special.symm.trans misused.isIntervalOnly
      simp [Lowerable, Ty.Lowerable, carried, Misused, special, used,
        Operator.lowers_of_generic special]
    | true =>
      have reserved : op.Lowers (args.map Expr.ty) ty ↔ ¬ op.Misused (args.map Expr.ty) ty :=
        ⟨fun lowers misused => misused.not_lowers lowers,
          fun used => by_contra fun stuck => used (Operator.misused_of_not_lowers special stuck)⟩
      simp [Lowerable, carried, Misused, special, reserved]

/-! ## Circuits -/

namespace Stmt

/-- A statement can be lowered when its declared types and its nodes can. -/
theorem everywhere_lowerable_iff_nodes {s : Stmt} :
    s.Everywhere Lowerable ↔
      (∀ ty ∈ s.declaredTys, ty.Lowerable) ∧ ∀ e ∈ s.nodes, e.Lowerable := by
  simp only [everywhere_iff_all, declaredTys, nodes, List.mem_filterMap, List.forall_mem_flatMap,
    ← Expr.everywhere_iff_nodes]
  constructor
  · intro all
    refine ⟨?_, fun t among => (all t among).exprs⟩
    rintro ty ⟨t, among, declared⟩
    exact (all t among).declared ty declared
  · rintro ⟨declared, exprs⟩ t among
    exact ⟨fun ty here => declared ty ⟨t, among, here⟩, exprs t among⟩

end Stmt

/-- A module can be lowered when its declared types and its nodes can. -/
theorem Module.lowerable_iff {m : Module} :
    m.Lowerable ↔ (∀ ty ∈ m.declaredTys, ty.Lowerable) ∧ ∀ e ∈ m.nodes, e.Lowerable := by
  have body : (∀ body ∈ m.body?, body.Everywhere Stmt.Lowerable) ↔
      (∀ ty ∈ m.body?.toList.flatMap Stmt.declaredTys, ty.Lowerable) ∧
        ∀ e ∈ m.nodes, e.Lowerable := by
    simp only [Stmt.everywhere_lowerable_iff_nodes, nodes, List.forall_mem_flatMap,
      Option.mem_toList, Option.mem_def, forall₂_and]
  rw [declaredTys, List.forall_mem_append, List.forall_mem_map]
  constructor
  · rintro ⟨ports, all⟩
    obtain ⟨declared, nodes⟩ := body.mp all
    exact ⟨⟨declared, ports⟩, nodes⟩
  · rintro ⟨⟨declared, ports⟩, nodes⟩
    exact ⟨ports, body.mpr ⟨declared, nodes⟩⟩

namespace Circuit

/-- A circuit can be lowered when its recorded intervals are complete and no operator in it is
misused. -/
theorem lowerable_iff {c : Circuit} :
    c.Lowerable ↔ (∀ i ∈ c.recordedIntervals, i.Complete) ∧ ∀ e ∈ c.nodes, ¬ e.Misused := by
  have parts : c.Lowerable ↔
      (∀ ty ∈ c.declaredTys, ty.Lowerable) ∧ ∀ e ∈ c.nodes, e.Lowerable := by
    simp only [Lowerable, Module.lowerable_iff, declaredTys, nodes, List.forall_mem_flatMap,
      forall₂_and]
  rw [parts]
  simp only [Expr.lowerable_iff, recordedIntervals, List.forall_mem_append,
    List.forall_mem_flatMap, Ty.Lowerable, forall₂_and, and_assoc]

/-- Lowering fails exactly where a recorded interval is incomplete or an operator is misused. -/
theorem lower_fails_iff {warn : Bool} {c : Circuit} :
    (∃ e, (c.lower warn).outcome = .error e) ↔
      (∃ i ∈ c.recordedIntervals, i.Incomplete) ∨ ∃ e ∈ c.nodes, e.Misused := by
  have failed : (∃ e, (c.lower warn).outcome = .error e) ↔ ¬ c.Lowerable := by
    rw [← @lower_succeeds_iff warn]
    cases (c.lower warn).outcome <;> simp
  rw [failed, lowerable_iff, not_and_or]
  simp only [Interval.complete_iff, not_forall, not_not, exists_prop]

end Circuit

end IntervalHdl
