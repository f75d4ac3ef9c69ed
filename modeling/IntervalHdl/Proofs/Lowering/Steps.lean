import IntervalHdl.Removal.Lowering
import IntervalHdl.Proofs.Traversal

/-!
# The steps of lowering

Lowering opened at each kind of node: what has to succeed, and what comes out. Operators that are
not reserved for intervals share one step, `Operator.lower_of_generic`.
-/

namespace IntervalHdl
set_option autoImplicit false

open Reported

namespace Ty

/-- Fields are lowered one by one, their names and directions kept. -/
theorem lowerFields_outcome_eq_ok_iff {fields fields' : List (Field Ty)} :
    (lowerFields fields).outcome = .ok fields' ↔
      List.Forall₂ (fun f f' => f'.name = f.name ∧ f'.flip = f.flip ∧
        f.ty.lower.outcome = .ok f'.ty) fields fields' := by
  induction fields generalizing fields' with
  | nil => cases fields' <;> simp [lowerFields]
  | cons field fields ih =>
    obtain ⟨name, flip, ty⟩ := field
    simp only [lowerFields, bind_outcome_eq_ok_iff, outcome_pure, Except.ok.injEq, ih,
      List.forall₂_cons_left_iff]
    constructor
    · rintro ⟨ty', head, rest, tail, rfl⟩
      exact ⟨_, rest, ⟨rfl, rfl, head⟩, tail, rfl⟩
    · rintro ⟨⟨_, _, ty'⟩, rest, ⟨rfl, rfl, head⟩, tail, rfl⟩
      exact ⟨ty', head, rest, tail, rfl⟩

theorem lower_interval_outcome (t : Interval) : (Ty.interval t).lower.outcome = t.lowered := by
  simp only [lower, outcome_bind, outcome_count, outcome_ofExcept]
  rfl

theorem lower_bundle_eq_ok_iff {fields : List (Field Ty)} {t : Ty} :
    (Ty.bundle fields).lower.outcome = .ok t ↔
      ∃ fields', (lowerFields fields).outcome = .ok fields' ∧ .bundle fields' = t := by
  simp only [lower, bind_outcome_eq_ok_iff, outcome_pure, Except.ok.injEq]

theorem lower_vector_eq_ok_iff {elem : Ty} {size : UInt64} {t : Ty} :
    (Ty.vector elem size).lower.outcome = .ok t ↔
      ∃ elem', elem.lower.outcome = .ok elem' ∧ .vector elem' size = t := by
  simp only [lower, bind_outcome_eq_ok_iff, outcome_pure, Except.ok.injEq]

end Ty

namespace Interval

/-- The ends of an interval are resolved to their encodings. -/
theorem resolved_eq_ok_iff {t : Interval} {ends : Int × Int} :
    t.resolved = .ok ends ↔ t.encodings? = some ends := by
  unfold resolved
  split
  · rename_i opened
    obtain ⟨lo, hi⟩ := ends
    simp only [reduceCtorEq, false_iff]
    intro found
    obtain ⟨f, g, _, lower, upper, -⟩ := encodings?_eq_some_iff.mp found
    rw [hasOpenBound_eq_false_iff.mpr ⟨f, g, lower, upper⟩] at opened
    cases opened
  · split <;> simp_all

/-- An interval has a lowered type exactly when its ends and its width are known. -/
theorem lowered_eq_ok_iff {t : Interval} {ty : Ty} :
    t.lowered = .ok ty ↔
      ∃ ends p w, t.encodings? = some ends ∧ t.point = .known p ∧ t.width = .known w ∧
        .sint (.known (max w (p + .ofNat 1))) = ty := by
  simp only [lowered, bind_eq_ok_iff, resolved_eq_ok_iff]
  constructor
  · rintro ⟨ends, found, lowered⟩
    split at lowered
    · cases lowered
    · rename_i p point
      split at lowered
      · cases lowered
      · rename_i w width
        exact ⟨ends, p, w, found, point, width, Except.ok.inj lowered⟩
  · rintro ⟨ends, p, w, found, point, width, rfl⟩
    exact ⟨ends, found, by simp only [point, width]⟩

end Interval

/-- The range that a wrap bound of this type stands for; a signed width stands for none. -/
inductive Ty.WrapRange : Ty → Int → Int → Prop where
  | uint (w : BitCount) : WrapRange (.uint (.known w)) 0 (2 ^ w.toNat - 1)
  | interval {t : Interval} {lo hi : Int} (ends : t.encodings? = some (lo, hi)) :
    WrapRange (.interval t) lo hi

namespace Operand

variable {warn : Bool} {operands : List Operand} {e : Expr}

/-- A cast of one operand to an interval: unsigned bits get room for a sign. -/
theorem lowerCast_eq_ok_iff :
    (lowerCast operands).outcome = .ok e ↔
      ∃ a, operands = [a] ∧ a.recorded ≠ .uint .unknown ∧
        e = .untyped .asSInt [match a.recorded with
          | .uint (.known w) => .untyped .pad [a.value] [(w + .ofNat 1).toNat]
          | _ => a.value] [] := by
  unfold lowerCast
  split
  · rename_i a
    simp only [count_bind_outcome, List.cons.injEq, and_true, exists_eq_left']
    split <;> simp_all [eq_comm]
  · rename_i other
    simp only [outcome_fail, reduceCtorEq, false_iff]
    rintro ⟨a, rfl, -⟩
    exact other a rfl

/-- A move of the point is lowered to a shift of its operand. -/
theorem lowerShift_eq_ok_iff {shift : Operator} {consts : List Int} :
    (lowerShift shift consts operands).outcome = .ok e ↔
      ∃ a, operands = [a] ∧ e = .untyped shift [a.value] consts := by
  unfold lowerShift
  split
  · simp only [count_bind_outcome, outcome_pure, Except.ok.injEq, List.cons.injEq, and_true,
      exists_eq_left', eq_comm]
  · rename_i other
    simp only [outcome_fail, reduceCtorEq, false_iff]
    rintro ⟨a, rfl, -⟩
    exact other a rfl

/-- A saturation is lowered to the checks that its action names; its second operand is dropped. -/
theorem lowerClip_eq_ok_iff {result : Ty} :
    (lowerClip result operands).outcome = .ok e ↔
      ∃ a b lo hi inLo inHi, operands = [a, b] ∧ result.clipRange = .ok (lo, hi) ∧
        Operator.clip.operandRange a.recorded = .ok (inLo, inHi) ∧
        e = .saturated ⟨lo, hi, inLo, inHi⟩ a.value (.decide ⟨lo, hi, inLo, inHi⟩) := by
  unfold lowerClip
  split
  · rename_i a b
    simp only [bind_outcome_eq_ok_iff, outcome_ofExcept, tell_bind_outcome, count_bind_outcome,
      outcome_pure, Except.ok.injEq, Prod.exists]
    constructor
    · rintro ⟨lo, hi, target, inLo, inHi, range, rfl⟩
      exact ⟨a, b, lo, hi, inLo, inHi, rfl, target, range, rfl⟩
    · rintro ⟨_, _, lo, hi, inLo, inHi, ⟨⟩, target, range, rfl⟩
      exact ⟨lo, hi, target, inLo, inHi, range, rfl⟩
  · rename_i other
    simp only [outcome_fail, reduceCtorEq, false_iff]
    rintro ⟨a, b, _, _, _, _, rfl, -⟩
    exact other a b rfl

@[simp] theorem countWrap_outcome (value : Expr) (check : RangeCheck) (action : WrapAction) :
    (countWrap warn value check action).outcome = .ok () := by
  unfold countWrap
  split
  · rfl
  · cases warn <;> rfl

/-- A wrap into given ends is lowered to the checks that its action names. -/
theorem lowerWrapInto_eq_ok_iff {a : Operand} {lo hi : Int} :
    (lowerWrapInto warn a lo hi).outcome = .ok e ↔
      ∃ inLo inHi, Operator.wrap.operandRange a.recorded = .ok (inLo, inHi) ∧
        e = .wrapped ⟨lo, hi, inLo, inHi⟩ a.value (.decide ⟨lo, hi, inLo, inHi⟩) := by
  simp only [lowerWrapInto, bind_outcome_eq_ok_iff, outcome_ofExcept, tell_bind_outcome,
    outcome_pure, Except.ok.injEq, Prod.exists]
  constructor
  · rintro ⟨inLo, inHi, range, -, -, rfl⟩
    exact ⟨inLo, inHi, range, rfl⟩
  · rintro ⟨inLo, inHi, range, rfl⟩
    exact ⟨inLo, inHi, range, (), countWrap_outcome .., rfl⟩

/-- A wrap to a signed width is lowered to that many low bits, read with a sign. -/
theorem lowerWidthWrap_eq_ok_iff {a : Operand} {bound : Ty} {w : Width} :
    (lowerWidthWrap a bound w).outcome = .ok e ↔
      ∃ n, w = .known n ∧ n.toNat ≠ 0 ∧
        e = .untyped .asSInt [.untyped .bits [a.value] [(n.toNat - 1 : Nat), 0]] [] := by
  unfold lowerWidthWrap
  split
  · rename_i n
    split
    · simp_all
    · simp_all only [count_bind_outcome, outcome_pure, Except.ok.injEq, Width.known.injEq, ne_eq,
        exists_eq_left', not_false_eq_true, true_and, eq_comm]
  · simp

/-- A wrap reads the low bits for a signed width, and wraps into a range otherwise. -/
theorem lowerWrap_eq_ok_iff :
    (lowerWrap warn operands).outcome = .ok e ↔
      ∃ a b, operands = [a, b] ∧
        ((∃ w, b.recorded = .sint w ∧ (lowerWidthWrap a b.recorded w).outcome = .ok e) ∨
          ∃ lo hi, b.recorded.WrapRange lo hi ∧ (lowerWrapInto warn a lo hi).outcome = .ok e) := by
  unfold lowerWrap
  split
  · rename_i a b
    simp only [List.cons.injEq, and_true, and_assoc, exists_and_left, exists_eq_left']
    constructor
    · intro done
      split at done
      · rename_i w bound
        exact .inl ⟨w, bound, done⟩
      · rename_i w bound
        exact .inr ⟨_, _, bound ▸ .uint w, done⟩
      · rename_i t bound
        simp only [bind_outcome_eq_ok_iff, outcome_ofExcept, Interval.resolved_eq_ok_iff] at done
        obtain ⟨⟨lo, hi⟩, ends, done⟩ := done
        exact .inr ⟨lo, hi, bound ▸ .interval ends, done⟩
      · cases done
    · rintro (⟨w, bound, done⟩ | ⟨lo, hi, range, done⟩)
      · rw [bound] at done ⊢
        exact done
      · generalize b.recorded = bound at range
        cases range with
        | uint w => exact done
        | interval ends =>
          simp only [bind_outcome_eq_ok_iff, outcome_ofExcept, Interval.resolved_eq_ok_iff]
          exact ⟨_, ends, done⟩
  · rename_i other
    simp only [outcome_fail, reduceCtorEq, false_iff]
    rintro ⟨a, b, rfl, -⟩
    exact other a b rfl

end Operand

/-- The operators that are not reserved for intervals stay, on lowered operands and at the lowered
type. -/
theorem Operator.lower_of_generic {op : Operator} (generic : op.isIntervalOnly = false)
    (warn : Bool) (operands : List Operand) (consts : List Int) (ty : Ty) :
    op.lower warn operands consts ty =
      (do return .prim op (operands.map Operand.value) consts (← ty.lower)) := by
  cases op <;> first | rfl | cases generic

namespace Expr

variable {warn : Bool}

/-- Operands are lowered one by one, each kept beside its recorded type. -/
theorem lowerOperands_outcome_eq_ok_iff {es : List Expr} {operands : List Operand} :
    (lowerOperands warn es).outcome = .ok operands ↔
      List.Forall₂ (fun e o => (e.lower warn).outcome = .ok o.value ∧ o.recorded = e.ty) es
        operands := by
  induction es generalizing operands with
  | nil => cases operands <;> simp [lowerOperands]
  | cons e es ih =>
    simp only [lowerOperands, bind_outcome_eq_ok_iff, outcome_pure, Except.ok.injEq, ih,
      List.forall₂_cons_left_iff]
    constructor
    · rintro ⟨value, head, rest, tail, rfl⟩
      exact ⟨_, rest, ⟨head, rfl⟩, tail, rfl⟩
    · rintro ⟨⟨value, _⟩, rest, ⟨head, rfl⟩, tail, rfl⟩
      exact ⟨value, head, rest, tail, rfl⟩

end Expr

namespace Stmt

variable {warn : Bool}

/-- The second statement is what lowering makes of the first, place by place: it declares the same
name, at the lowered type if it declares one, and holds the lowered expressions and statements. -/
structure LoweredTo (warn : Bool) (s s' : Stmt) : Prop where
  name_eq : s'.declaredName? = s.declaredName?
  ty : Option.Rel (fun t t' => t.lower.outcome = .ok t') s.declaredTy? s'.declaredTy?
  exprs : List.Forall₂ (fun e e' => (e.lower warn).outcome = .ok e') s.exprs s'.exprs
  stmts : List.Forall₂ (fun s s' => (s.lower warn).outcome = .ok s') s.stmts s'.stmts

/-- A lowered statement is lowered part by part. -/
theorem loweredTo_of_lower {s s' : Stmt} (done : (s.lower warn).outcome = .ok s') :
    s.LoweredTo warn s' := by
  cases s with
  | wire name ty =>
    simp only [lower, bind_outcome_eq_ok_iff, outcome_pure, Except.ok.injEq] at done
    obtain ⟨ty', tyDone, rfl⟩ := done
    exact ⟨rfl, .some tyDone, .nil, .nil⟩
  | reg name ty clock reset =>
    simp only [lower, bind_outcome_eq_ok_iff] at done
    obtain ⟨ty', tyDone, done⟩ := done
    cases reset with
    | none =>
      simp only [mapExprsM, bind_outcome_eq_ok_iff, outcome_pure, Except.ok.injEq] at done
      obtain ⟨clock', clockDone, rfl⟩ := done
      exact ⟨rfl, .some tyDone, .cons clockDone .nil, .nil⟩
    | some reset =>
      simp only [mapExprsM, bind_outcome_eq_ok_iff, outcome_pure, Except.ok.injEq] at done
      obtain ⟨clock', clockDone, signal', signalDone, init', initDone, rfl⟩ := done
      exact ⟨rfl, .some tyDone, .cons clockDone (.cons signalDone (.cons initDone .nil)), .nil⟩
  | node name value =>
    simp only [lower, bind_outcome_eq_ok_iff, outcome_pure, Except.ok.injEq] at done
    obtain ⟨value', valueDone, rfl⟩ := done
    exact ⟨rfl, .none, .cons valueDone .nil, .nil⟩
  | connect loc value | partialConnect loc value =>
    simp only [lower, bind_outcome_eq_ok_iff, outcome_pure, Except.ok.injEq] at done
    obtain ⟨loc', locDone, value', valueDone, rfl⟩ := done
    exact ⟨rfl, .none, .cons locDone (.cons valueDone .nil), .nil⟩
  | when cond conseq alt =>
    simp only [lower, bind_outcome_eq_ok_iff, outcome_pure, Except.ok.injEq] at done
    obtain ⟨conseq', conseqDone, alt', altDone, cond', condDone, rfl⟩ := done
    exact ⟨rfl, .none, .cons condDone .nil, .cons conseqDone (.cons altDone .nil)⟩
  | block stmts =>
    simp only [lower, bind_outcome_eq_ok_iff, outcome_pure, Except.ok.injEq, lowerAll_eq_mapM,
      mapM_outcome_eq_ok_iff] at done
    obtain ⟨stmts', each, rfl⟩ := done
    exact ⟨rfl, .none, .nil, each⟩
  | invalid loc =>
    simp only [lower, bind_outcome_eq_ok_iff, outcome_pure, Except.ok.injEq] at done
    obtain ⟨loc', locDone, rfl⟩ := done
    exact ⟨rfl, .none, .cons locDone .nil, .nil⟩
  | skip =>
    cases done
    exact ⟨rfl, .none, .nil, .nil⟩

end Stmt

/-- Lowering a module gives one with lowered ports and a lowered body. -/
theorem Module.lower_eq_ok_iff {warn : Bool} {m m' : Module} :
    (m.lower warn).outcome = .ok m' ↔
      m'.name = m.name ∧
        List.Forall₂ (fun p p' => p.lower.outcome = .ok p') m.ports m'.ports ∧
        Option.Rel (fun body body' => (body.lower warn).outcome = .ok body') m.body? m'.body? := by
  simp only [lower, tell_bind_outcome, bind_outcome_eq_ok_iff, outcome_mapBodyM, outcome_mapPortsM,
    mapBodyM_eq_ok_iff, mapPortsM_eq_ok_iff]
  constructor
  · rintro ⟨middle, ⟨name, ports, body⟩, name', body', ports'⟩
    exact ⟨name'.trans name, ports ▸ ports', body' ▸ body⟩
  · rintro ⟨name, ports, body⟩
    exact ⟨⟨m.name, m.ports, m'.body?⟩, ⟨rfl, rfl, body⟩, name, rfl, ports⟩

/-- A port is lowered by its type. -/
theorem Port.lower_eq_ok_iff {p p' : Port} :
    p.lower.outcome = .ok p' ↔
      p'.name = p.name ∧ p'.direction = p.direction ∧ p.ty.lower.outcome = .ok p'.ty := by
  obtain ⟨name, direction, ty⟩ := p'
  simp only [lower, mapTyM, bind_outcome_eq_ok_iff, outcome_pure, Except.ok.injEq, Port.mk.injEq]
  constructor
  · rintro ⟨ty', tyDone, rfl, rfl, rfl⟩
    exact ⟨rfl, rfl, tyDone⟩
  · rintro ⟨rfl, rfl, tyDone⟩
    exact ⟨ty, tyDone, rfl, rfl, rfl⟩

/-- A circuit is lowered module by module. -/
theorem Circuit.lower_eq_ok_iff {warn : Bool} {c c' : Circuit} :
    (c.lower warn).outcome = .ok c' ↔
      c'.main = c.main ∧
        List.Forall₂ (fun m m' => (m.lower warn).outcome = .ok m') c.modules c'.modules := by
  rw [lower, outcome_mapModulesM, mapModulesM_eq_ok_iff]

end IntervalHdl
