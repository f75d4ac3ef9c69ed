import IntervalHdl.Proofs.Meaning
import IntervalHdl.Proofs.Alignment.Steps
import IntervalHdl.Proofs.Lowering.Steps

/-!
# Well-recorded circuits

The straight-line circuits whose recorded types can be trusted: every interval has integer bounds
and a known point, references have the types of their declarations, and each operator is recorded at
the point and in a range that its operands call for. Nodes do not take the names of ports; of nodes
with one name, the most recent one counts.
-/

namespace IntervalHdl
set_option autoImplicit false

/-- The interval from `lo` to `hi` at the point `p`, at its intrinsic width. -/
structure Interval.Spans (t : Interval) (lo hi : Int) (p : BitCount) : Prop where
  lower : ∃ f, t.lower = .known f ∧ f.num = lo * f.den
  upper : ∃ f, t.upper = .known f ∧ f.num = hi * f.den
  point : t.point = .known p
  width : t.width = intrinsicWidth t.lower t.upper t.point
  ordered : lo ≤ hi

/-- What a trusted type says of its values: a number in a range on a grid, or a flag. -/
inductive Shape where
  | number (lo hi : Int) (point : BitCount)
  | flag

namespace Shape

/-- The numbers that the shape admits. -/
def Covers : Shape → ℚ → Prop
  | .number lo hi _, q => lo ≤ q ∧ q ≤ hi
  | .flag, q => q = 0 ∨ q = 1

/-- The integer that carries a number of the shape. -/
def Encodes : Shape → ℚ → Int → Prop
  | .number _ _ p, q, v => (v : ℚ) = q * 2 ^ p.toNat
  | .flag, q, v => (v : ℚ) = q

end Shape

/-- The type has the shape. -/
inductive Ty.HasShape : Ty → Shape → Prop where
  | number {t : Interval} {lo hi : Int} {p : BitCount} (spans : t.Spans lo hi p) :
    HasShape (.interval t) (.number lo hi p)
  | flag : HasShape (.uint (.known (.ofNat 1))) .flag

/-- Every interval in the type, at any depth, has integer bounds and a known point. -/
inductive Ty.Whole : Ty → Prop where
  | uint (w : Width) : Whole (.uint w)
  | sint (w : Width) : Whole (.sint w)
  | interval {t : Interval} {lo hi : Int} {p : BitCount} (spans : t.Spans lo hi p) :
    Whole (.interval t)
  | clock : Whole .clock
  | bundle {fields : List (Field Ty)} (each : ∀ f ∈ fields, Whole f.ty) : Whole (.bundle fields)
  | vector {elem : Ty} (size : UInt64) (each : Whole elem) : Whole (.vector elem size)
  | unknown : Whole .unknown

/-- The operator compares its operands. -/
def Operator.IsComparison (op : Operator) : Prop :=
  op = .lt ∨ op = .leq ∨ op = .gt ∨ op = .geq ∨ op = .eq ∨ op = .neq

/-- The expression is recorded as its operands call for, over the declarations of a scope. -/
inductive Expr.Recorded (declared : Scope) : Expr → Shape → Prop where
  | ref {name : String} {ty : Ty} {s : Shape} (found : declared.lookup name = some ty)
    (shape : ty.HasShape s) : Recorded declared (.ref name ty) s
  | add {a b : Expr} {t : Interval} {la ha lb hb lo hi : Int} {p q : BitCount}
    (left : Recorded declared a (.number la ha p)) (right : Recorded declared b (.number lb hb q))
    (spans : t.Spans lo hi (max p q)) (low : lo ≤ la + lb) (high : ha + hb ≤ hi) :
    Recorded declared (.prim .add [a, b] [] (.interval t)) (.number lo hi (max p q))
  | sub {a b : Expr} {t : Interval} {la ha lb hb lo hi : Int} {p q : BitCount}
    (left : Recorded declared a (.number la ha p)) (right : Recorded declared b (.number lb hb q))
    (spans : t.Spans lo hi (max p q)) (low : lo ≤ la - hb) (high : ha - lb ≤ hi) :
    Recorded declared (.prim .sub [a, b] [] (.interval t)) (.number lo hi (max p q))
  | mul {a b : Expr} {t : Interval} {la ha lb hb lo hi : Int} {p q r : BitCount}
    (left : Recorded declared a (.number la ha p)) (right : Recorded declared b (.number lb hb q))
    (spans : t.Spans lo hi r) (point : r.toNat = p.toNat + q.toNat)
    (low : ∀ x ∈ [la, ha], ∀ y ∈ [lb, hb], lo ≤ x * y)
    (high : ∀ x ∈ [la, ha], ∀ y ∈ [lb, hb], x * y ≤ hi) :
    Recorded declared (.prim .mul [a, b] [] (.interval t)) (.number lo hi r)
  | compare {op : Operator} {a b : Expr} {la ha lb hb : Int} {p q : BitCount}
    (comparison : op.IsComparison) (left : Recorded declared a (.number la ha p))
    (right : Recorded declared b (.number lb hb q)) :
    Recorded declared (.prim op [a, b] [] (.uint (.known (.ofNat 1)))) .flag
  | compareFlags {op : Operator} {a b : Expr} (comparison : op.IsComparison)
    (left : Recorded declared a .flag) (right : Recorded declared b .flag) :
    Recorded declared (.prim op [a, b] [] (.uint (.known (.ofNat 1)))) .flag
  | mux {c a b : Expr} {t : Interval} {la ha lb hb lo hi : Int} {p q : BitCount}
    (cond : Recorded declared c .flag) (tval : Recorded declared a (.number la ha p))
    (fval : Recorded declared b (.number lb hb q)) (spans : t.Spans lo hi (max p q))
    (low : lo ≤ min la lb) (high : max ha hb ≤ hi) :
    Recorded declared (.mux c a b (.interval t)) (.number lo hi (max p q))
  | setp {a : Expr} {t : Interval} {lo hi : Int} {p q : BitCount} {rest : List Int}
    (arg : Recorded declared a (.number lo hi p)) (spans : t.Spans lo hi q) :
    Recorded declared (.prim .setp [a] ((q.toNat : Int) :: rest) (.interval t)) (.number lo hi q)
  | incp {a : Expr} {t : Interval} {lo hi : Int} {n p q : BitCount}
    (arg : Recorded declared a (.number lo hi p)) (spans : t.Spans lo hi q)
    (point : q.toNat = p.toNat + n.toNat) :
    Recorded declared (.prim .incp [a] [(n.toNat : Int)] (.interval t)) (.number lo hi q)
  | decp {a : Expr} {t : Interval} {lo hi : Int} {n p q : BitCount}
    (arg : Recorded declared a (.number lo hi p)) (spans : t.Spans lo hi q)
    (point : p.toNat = q.toNat + n.toNat) :
    Recorded declared (.prim .decp [a] [(n.toNat : Int)] (.interval t)) (.number lo hi q)
  | clip {a b : Expr} {t : Interval} {la ha lb hb lo hi : Int} {p q : BitCount} {consts : List Int}
    (arg : Recorded declared a (.number la ha p)) (range : Recorded declared b (.number lb hb q))
    (spans : t.Spans lo hi (max p q)) :
    Recorded declared (.prim .clip [a, b] consts (.interval t)) (.number lo hi (max p q))
  | wrap {a b : Expr} {t : Interval} {la ha lb hb lo hi : Int} {p q : BitCount} {consts : List Int}
    (arg : Recorded declared a (.number la ha p)) (range : Recorded declared b (.number lb hb q))
    (spans : t.Spans lo hi (max p q)) (low : lo ≤ lb) (high : hb ≤ hi) :
    Recorded declared (.prim .wrap [a, b] consts (.interval t)) (.number lo hi (max p q))

/-- The statements are nodes under names that are no ports' and connections to interval-typed ports,
well recorded in the scope that the statements before them leave. -/
inductive RecordedBody (ports : Scope) : Scope → List Stmt → Prop where
  | nil {declared : Scope} : RecordedBody ports declared []
  | node {declared : Scope} {name : String} {value : Expr} {s : Shape} {stmts : List Stmt}
    (fresh : ports.lookup name = none) (recorded : value.Recorded declared s)
    (rest : RecordedBody ports (declared.declare name value.ty) stmts) :
    RecordedBody ports declared (.node name value :: stmts)
  | connect {declared : Scope} {name : String} {t : Interval} {lo hi la ha : Int} {p q : BitCount}
    {value : Expr} {stmts : List Stmt} (found : ports.lookup name = some (.interval t))
    (spans : t.Spans lo hi p) (recorded : value.Recorded declared (.number la ha q))
    (rest : RecordedBody ports declared stmts) :
    RecordedBody ports declared (.connect (.ref name (.interval t)) value :: stmts)

/-- The module is a well-recorded straight-line program. -/
structure Module.Recorded (m : Module) : Prop where
  whole : ∀ p ∈ m.ports, p.ty.Whole
  body : ∃ stmts, m.body? = some (.block stmts) ∧
    RecordedBody (Scope.ofPorts m.ports) (Scope.ofPorts m.ports) stmts

/-! ## Intervals with integer bounds -/

namespace Fraction

/-- A fraction that is an integer, as a rational. -/
theorem toRat_of_integer {f : Fraction} {n : Int} (integer : f.num = n * f.den) : f.toRat = n := by
  have nonzero : (f.den : ℚ) ≠ 0 := by exact_mod_cast f.den_ne_zero
  rw [toRat, integer]
  push_cast
  exact mul_div_cancel_right₀ _ nonzero

/-- An integer is on every grid, so nothing is rounded. -/
theorem scaledFloor_of_integer {f : Fraction} {n : Int} (integer : f.num = n * f.den) (p : Nat) :
    f.scaledFloor p = n * 2 ^ p := by
  rw [scaledFloor, integer, mul_right_comm]
  exact Int.mul_fdiv_cancel _ f.den_ne_zero

end Fraction

/-- The type of the signed integers that carry the numbers from `lo` to `hi` at a point. -/
def Interval.carrier (lo hi : Int) (p : BitCount) : Ty :=
  .sint (.known (max (max (signedWidth (lo * 2 ^ p.toNat)) (signedWidth (hi * 2 ^ p.toNat)))
    (p + .ofNat 1)))

namespace Interval.Spans

variable {t : Interval} {lo hi : Int} {p : BitCount}

/-- The ends of an integer range are encoded exactly. -/
theorem encodings (spans : t.Spans lo hi p) :
    t.encodings? = some (lo * 2 ^ p.toNat, hi * 2 ^ p.toNat) := by
  obtain ⟨f, lower, low⟩ := spans.lower
  obtain ⟨g, upper, high⟩ := spans.upper
  exact encodings?_eq_some_iff.mpr ⟨f, g, p, lower, upper, spans.point,
    Fraction.scaledFloor_of_integer low _, Fraction.scaledFloor_of_integer high _⟩

theorem resolved (spans : t.Spans lo hi p) :
    t.resolved = .ok (lo * 2 ^ p.toNat, hi * 2 ^ p.toNat) :=
  resolved_eq_ok_iff.mpr spans.encodings

/-- The intrinsic width holds the encodings of both ends. -/
theorem width_eq (spans : t.Spans lo hi p) :
    t.width = .known (max (signedWidth (lo * 2 ^ p.toNat)) (signedWidth (hi * 2 ^ p.toNat))) := by
  obtain ⟨f, lower, low⟩ := spans.lower
  obtain ⟨g, upper, high⟩ := spans.upper
  rw [spans.width, lower, upper, spans.point, ← Fraction.scaledFloor_of_integer low,
    ← Fraction.scaledFloor_of_integer high]
  rfl

/-- The integer type that carries the range. -/
theorem lowered (spans : t.Spans lo hi p) : t.lowered = .ok (carrier lo hi p) :=
  lowered_eq_ok_iff.mpr ⟨_, p, _, spans.encodings, spans.point, spans.width_eq, rfl⟩

theorem lower_outcome (spans : t.Spans lo hi p) :
    (Ty.interval t).lower.outcome = .ok (carrier lo hi p) :=
  (Ty.lower_interval_outcome t).trans spans.lowered

/-- The range stays at another point. -/
theorem atPoint (spans : t.Spans lo hi p) (q : BitCount) : (t.atPoint q).Spans lo hi q :=
  ⟨spans.lower, spans.upper, rfl, rfl, spans.ordered⟩

theorem hasPoint (spans : t.Spans lo hi p) : (Ty.interval t).HasPoint p :=
  ⟨t, rfl, spans.point⟩

theorem of_ofInt (ordered : lo ≤ hi) (p : BitCount) :
    (Interval.of (.ofInt lo) (.ofInt hi) (.known p)).Spans lo hi p :=
  ⟨⟨.ofInt lo, rfl, (mul_one lo).symm⟩, ⟨.ofInt hi, rfl, (mul_one hi).symm⟩, rfl, rfl, ordered⟩

/-- An interval spans one range at one point. -/
theorem unique {lo' hi' : Int} {p' : BitCount} (spans : t.Spans lo hi p)
    (spans' : t.Spans lo' hi' p') : lo = lo' ∧ hi = hi' ∧ p = p' := by
  obtain ⟨f, lower, low⟩ := spans.lower
  obtain ⟨g, upper, high⟩ := spans.upper
  obtain ⟨f', lower', low'⟩ := spans'.lower
  obtain ⟨g', upper', high'⟩ := spans'.upper
  cases Bound.known.inj (lower.symm.trans lower')
  cases Bound.known.inj (upper.symm.trans upper')
  exact ⟨mul_right_cancel₀ f.den_ne_zero (low.symm.trans low'),
    mul_right_cancel₀ g.den_ne_zero (high.symm.trans high'),
    Width.known.inj (spans.point.symm.trans spans'.point)⟩

end Interval.Spans

/-! ## Operators at such intervals -/

namespace Operator

variable {t range : Interval} {lo hi la ha : Int} {p q n r : BitCount} {x y : ℚ} {consts : List Int}

/-- A lowered point rounds the number down to its grid. -/
theorem meaning_decp (spans : t.Spans lo hi p) (point : p.toNat = r.toNat + n.toNat) (ty : Ty) :
    decp.meaning? [(x, .interval t)] [(n.toNat : Int)] ty = some (floorAt r.toNat x) := by
  have lowered : p.toNat - n.toNat = r.toNat := by omega
  simp [meaning?, spans.point, Width.bits?, lowered]

/-- A saturation stands for the nearest number of its range. -/
theorem meaning_clip (spans : t.Spans lo hi p) (tx ty : Ty) :
    clip.meaning? [(x, tx), (y, ty)] consts (.interval t)
      = some (max (lo : ℚ) (min (hi : ℚ) x)) := by
  obtain ⟨f, lower, low⟩ := spans.lower
  obtain ⟨g, upper, high⟩ := spans.upper
  simp [meaning?, lower, upper, Bound.value?, Fraction.toRat_of_integer low,
    Fraction.toRat_of_integer high]

/-- A wrap stands for the number of its range that differs by a multiple of the range's size. -/
theorem meaning_wrap (spans : t.Spans la ha p) (rangeSpans : range.Spans lo hi q) (ty : Ty) :
    wrap.meaning? [(x, .interval t), (y, .interval range)] consts ty
      = some (reduceInto lo (hi - lo + 1 / 2 ^ (max p q).toNat) x) := by
  obtain ⟨f, lower, low⟩ := rangeSpans.lower
  obtain ⟨g, upper, high⟩ := rangeSpans.upper
  simp [meaning?, lower, upper, Bound.value?, spans.point, rangeSpans.point, Width.bits?,
    Fraction.toRat_of_integer low, Fraction.toRat_of_integer high]

end Operator

/-- A type has one shape at most. -/
theorem Ty.HasShape.unique {t : Ty} {s s' : Shape} (shape : t.HasShape s) (shape' : t.HasShape s') :
    s = s' := by
  cases shape with
  | number spans =>
    cases shape' with
    | number spans' =>
      obtain ⟨rfl, rfl, rfl⟩ := spans.unique spans'
      rfl
  | flag =>
    cases shape'
    rfl

/-- No trusted range is empty. -/
theorem Ty.HasShape.inhabited {ty : Ty} {s : Shape} (shape : ty.HasShape s) :
    ∃ q v, s.Covers q ∧ s.Encodes q v := by
  cases shape with
  | @number t lo hi p spans =>
    refine ⟨lo, lo * 2 ^ p.toNat, ⟨le_rfl, Int.cast_le.mpr spans.ordered⟩, ?_⟩
    show ((lo * 2 ^ p.toNat : Int) : ℚ) = lo * 2 ^ p.toNat
    push_cast
    rfl
  | flag => exact ⟨0, 0, .inl rfl, Int.cast_zero⟩

/-- A type of numbers is an interval that spans them. -/
theorem Ty.HasShape.interval {ty : Ty} {lo hi : Int} {p : BitCount}
    (shape : ty.HasShape (.number lo hi p)) :
    ∃ t : Interval, t.Spans lo hi p ∧ ty = .interval t := by
  cases shape with
  | number spans => exact ⟨_, spans, rfl⟩

/-- A well-recorded expression is recorded at a type of its shape. -/
theorem Expr.Recorded.hasShape {declared : Scope} {e : Expr} {s : Shape}
    (recorded : e.Recorded declared s) : e.ty.HasShape s := by
  cases recorded with
  | ref _ shape => exact shape
  | compare | compareFlags => exact .flag
  | add _ _ spans | sub _ _ spans | mul _ _ spans | mux _ _ _ spans | setp _ spans
  | incp _ spans | decp _ spans | clip _ _ spans | wrap _ _ spans => exact .number spans

theorem Expr.Recorded.interval {declared : Scope} {e : Expr} {lo hi : Int} {p : BitCount}
    (recorded : e.Recorded declared (.number lo hi p)) :
    ∃ t : Interval, t.Spans lo hi p ∧ e.ty = .interval t :=
  recorded.hasShape.interval

/-- Types whose intervals are whole can be lowered. -/
theorem Ty.Whole.lower_ok {t : Ty} (whole : t.Whole) : ∃ t', t.lower.outcome = .ok t' := by
  induction whole with
  | uint w => exact ⟨_, rfl⟩
  | sint w => exact ⟨_, rfl⟩
  | clock => exact ⟨_, rfl⟩
  | unknown => exact ⟨_, rfl⟩
  | interval spans => exact ⟨_, spans.lower_outcome⟩
  | @bundle fields _ ih =>
    have each : ∃ fields', List.Forall₂ (fun f (f' : Field Ty) => f'.name = f.name ∧
        f'.flip = f.flip ∧ f.ty.lower.outcome = .ok f'.ty) fields fields' :=
      exists_forall₂ fun f found =>
        (ih f found).elim fun ty' done => ⟨⟨f.name, f.flip, ty'⟩, rfl, rfl, done⟩
    obtain ⟨fields', each⟩ := each
    exact ⟨_, lower_bundle_eq_ok_iff.mpr ⟨_, lowerFields_outcome_eq_ok_iff.mpr each, rfl⟩⟩
  | vector size _ ih =>
    obtain ⟨elem', done⟩ := ih
    exact ⟨_, lower_vector_eq_ok_iff.mpr ⟨elem', done, rfl⟩⟩

end IntervalHdl
