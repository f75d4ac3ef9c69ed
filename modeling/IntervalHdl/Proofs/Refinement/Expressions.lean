import IntervalHdl.Proofs.Refinement.Computation
import IntervalHdl.Proofs.IntervalFreedom

/-!
# Aligned and lowered expressions keep their meaning

An aligned expression carries a number if it lowers to an expression that computes the number's
encoding. A rescale carries the number rounded down to the new point, and each well-recorded node
carries its meaning when its operands carry theirs; so every well-recorded expression is aligned to
one that carries its meaning (`Expr.Recorded.carried`).
-/

namespace IntervalHdl
set_option autoImplicit false

open Reported

section Expressions

variable {source lowered : Scope}

/-- The expression computes the integers of a shape. -/
def Shape.ComputedBy (lowered : Scope) (e : Expr) (v : Situation source → Int) : Shape → Prop
  | .number _ _ _ => ComputesSigned lowered e v
  | .flag => ComputesFlag lowered e v

/-- The aligned expression has a type of the shape, and lowers to one that computes the encoding of
a number of the shape in every situation. -/
structure Carries (lowered : Scope) (e : Expr) (s : Shape) (q : Situation source → ℚ) : Prop where
  shape : e.ty.HasShape s
  computed : ∃ e' v, (∀ warn, (e.lower warn).outcome = .ok e') ∧ s.ComputedBy lowered e' v ∧
    ∀ S, s.Covers (q S) ∧ s.Encodes (q S) (v S)

/-- Lowering an operator node lowers the operands and then the operator. -/
theorem Expr.lower_prim {warn : Bool} {op : Operator} {args : List Expr} {consts : List Int}
    {ty : Ty} {e : Expr} (operands : List Operand)
    (each : List.Forall₂ (fun e o => (e.lower warn).outcome = .ok o.value ∧ o.recorded = e.ty) args
      operands)
    (done : (op.lower warn operands consts ty).outcome = .ok e) :
    ((Expr.prim op args consts ty).lower warn).outcome = .ok e := by
  rw [Expr.lower, bind_outcome_eq_ok_iff]
  exact ⟨operands, Expr.lowerOperands_outcome_eq_ok_iff.mpr each, done⟩

/-- An operator that is not reserved for intervals stays over its lowered operands. -/
theorem Expr.lower_prim_generic {warn : Bool} {op : Operator} {args args' : List Expr}
    {consts : List Int} {ty ty' : Ty} (generic : op.isIntervalOnly = false)
    (each : List.Forall₂ (fun e e' => (e.lower warn).outcome = .ok e') args args')
    (tyDone : ty.lower.outcome = .ok ty') :
    ((Expr.prim op args consts ty).lower warn).outcome = .ok (.prim op args' consts ty') := by
  have operands : ∃ operands : List Operand, operands.map Operand.value = args' ∧
      List.Forall₂ (fun e o => (e.lower warn).outcome = .ok o.value ∧ o.recorded = e.ty) args
        operands := by
    induction each with
    | nil => exact ⟨[], rfl, .nil⟩
    | @cons e e' _ _ head _ ih =>
      obtain ⟨operands, rfl, tail⟩ := ih
      exact ⟨⟨e', e.ty⟩ :: operands, rfl, .cons ⟨head, rfl⟩ tail⟩
  obtain ⟨operands, rfl, operandsDone⟩ := operands
  refine Expr.lower_prim _ operandsDone ?_
  rw [Operator.lower_of_generic generic, bind_outcome_eq_ok_iff]
  exact ⟨ty', tyDone, rfl⟩

/-! ## Moves of the point -/

section Moves

variable {e : Expr} {t : Interval} {lo hi : Int} {p target : BitCount} {q : Situation source → ℚ}

/-- What carries a number is recorded at its interval. -/
theorem Carries.interval (arg : Carries lowered e (.number lo hi p) q) :
    ∃ t : Interval, t.Spans lo hi p ∧ e.ty = .interval t :=
  arg.shape.interval

/-- What carries a flag is recorded at one unsigned bit. -/
theorem Carries.flag (arg : Carries lowered e .flag q) : e.ty = .uint (.known (.ofNat 1)) := by
  generalize e.ty = ty, arg.shape = shape
  cases shape
  rfl

/-- Raising the point keeps the number. -/
theorem Carries.incp {n : BitCount} (arg : Carries lowered e (.number lo hi p) q)
    (spans : t.Spans lo hi target) (point : target.toNat = p.toNat + n.toNat) :
    Carries lowered (.prim .incp [e] [(n.toNat : Int)] (.interval t)) (.number lo hi target) q := by
  obtain ⟨e', v, lowers, computes, values⟩ := arg.computed
  refine ⟨.number spans, .untyped .shl [e'] [(n.toNat : Int)], _, fun warn => ?_,
    ComputesSigned.shl computes n, fun S => ⟨(values S).1, ?_⟩⟩
  · exact Expr.lower_prim [⟨e', e.ty⟩] (.cons ⟨lowers warn, rfl⟩ .nil) rfl
  · have encodes : (v S : ℚ) = q S * 2 ^ p.toNat := (values S).2
    show ((v S * 2 ^ n.toNat : Int) : ℚ) = q S * 2 ^ target.toNat
    push_cast
    rw [encodes, point, pow_add, mul_assoc]

/-- Lowering the point rounds down. -/
theorem Carries.decp {n : BitCount} (arg : Carries lowered e (.number lo hi p) q)
    (spans : t.Spans lo hi target) (point : p.toNat = target.toNat + n.toNat) :
    Carries lowered (.prim .decp [e] [(n.toNat : Int)] (.interval t)) (.number lo hi target)
      fun S => floorAt target.toNat (q S) := by
  obtain ⟨e', v, lowers, computes, values⟩ := arg.computed
  refine ⟨.number spans, .untyped .shr [e'] [(n.toNat : Int)], _, fun warn => ?_,
    ComputesSigned.shr computes n, fun S => ?_⟩
  · exact Expr.lower_prim [⟨e', e.ty⟩] (.cons ⟨lowers warn, rfl⟩ .nil) rfl
  · obtain ⟨⟨low, high⟩, encodes⟩ := values S
    refine ⟨⟨le_floorAt low, (floorAt_le _).trans high⟩, ?_⟩
    have shifted := floorAt_of_encoding (p := target.toNat) (by omega) encodes
    rwa [show p.toNat - target.toNat = n.toNat by omega] at shifted

/-- Rounding at a point that is not coarser does nothing to a number that is carried. -/
theorem Carries.floorAt_eq (arg : Carries lowered e (.number lo hi p) q) (finer : p ≤ target)
    (S : Situation source) : floorAt target.toNat (q S) = q S := by
  obtain ⟨e', v, -, -, values⟩ := arg.computed
  exact floorAt_of_le finer (values S).2

/-- A rescale carries the number rounded down to the new point. -/
theorem Carries.rescaled (arg : Carries lowered e (.number lo hi p) q) (target : BitCount) :
    ∃ e', e.Rescaled target e' ∧
      Carries lowered e' (.number lo hi target) fun S => floorAt target.toNat (q S) := by
  obtain ⟨t, spans, ty⟩ := arg.interval
  rcases Nat.lt_trichotomy p.toNat target.toNat with below | same | above
  · refine ⟨_, .moved ty spans.point (by rintro rfl; omega), ?_⟩
    rw [rescaleStep, if_pos (BitCount.lt_iff.mpr below)]
    simp only [arg.floorAt_eq (Nat.le_of_lt below)]
    exact arg.incp (spans.atPoint target) (by simp only [BitCount.toNat_sub]; omega)
  · obtain rfl := BitCount.ext same
    refine ⟨e, .same ⟨t, ty, spans.point⟩, ?_⟩
    simp only [arg.floorAt_eq (Nat.le_refl _)]
    exact arg
  · refine ⟨_, .moved ty spans.point (by rintro rfl; omega), ?_⟩
    rw [rescaleStep, if_neg (by rw [BitCount.lt_iff]; omega)]
    exact arg.decp (spans.atPoint target) (by simp only [BitCount.toNat_sub]; omega)

/-- A rescale to a finer point carries the same number. -/
theorem Carries.raised (arg : Carries lowered e (.number lo hi p) q) (finer : p ≤ target) :
    ∃ e', e.Rescaled target e' ∧ Carries lowered e' (.number lo hi target) q := by
  obtain ⟨e', moved, carries⟩ := arg.rescaled target
  simp only [arg.floorAt_eq finer] at carries
  exact ⟨e', moved, carries⟩

end Moves

/-! ## Operators over lowered operands -/

section Operators

variable {a b : Expr} {t : Interval} {la ha lb hb lo hi : Int} {p q r : BitCount}
  {x y : Situation source → ℚ}

/-- An operator on two numbers that is kept by lowering, and computes on encodings what it means on
numbers. -/
theorem Carries.binary {op : Operator} {f : Int → Int → Int} {g : ℚ → ℚ → ℚ}
    (generic : op.isIntervalOnly = false) (left : Carries lowered a (.number la ha p) x)
    (right : Carries lowered b (.number lb hb q) y) (spans : t.Spans lo hi r)
    (computes : ∀ {a b : Expr} {recorded : Ty} {v w : Situation source → Int},
      ComputesSigned lowered a v → ComputesSigned lowered b w →
        ComputesSigned lowered (.prim op [a, b] [] recorded) fun S => f (v S) (w S))
    (value : ∀ {x y : ℚ} {v w : Int}, (Shape.number la ha p).Covers x →
      (Shape.number lb hb q).Covers y → (v : ℚ) = x * 2 ^ p.toNat → (w : ℚ) = y * 2 ^ q.toNat →
        (Shape.number lo hi r).Covers (g x y) ∧ (f v w : ℚ) = g x y * 2 ^ r.toNat) :
    Carries lowered (.prim op [a, b] [] (.interval t)) (.number lo hi r)
      fun S => g (x S) (y S) := by
  obtain ⟨a', v, aLowers, aComputes, aValues⟩ := left.computed
  obtain ⟨b', w, bLowers, bComputes, bValues⟩ := right.computed
  refine ⟨.number spans, .prim op [a', b'] [] (Interval.carrier lo hi r), _, fun warn => ?_,
    computes aComputes bComputes,
    fun S => value (aValues S).1 (bValues S).1 (aValues S).2 (bValues S).2⟩
  exact Expr.lower_prim_generic generic (.cons (aLowers warn) (.cons (bLowers warn) .nil))
    spans.lower_outcome

/-- A sum of numbers at one point. -/
theorem Carries.add (left : Carries lowered a (.number la ha r) x)
    (right : Carries lowered b (.number lb hb r) y) (spans : t.Spans lo hi r)
    (low : lo ≤ la + lb) (high : ha + hb ≤ hi) :
    Carries lowered (.prim .add [a, b] [] (.interval t)) (.number lo hi r)
      fun S => x S + y S := by
  refine left.binary (f := fun v w => v + w) (g := fun x y => x + y) rfl right spans
    ComputesSigned.add fun {x y v w} xIn yIn xEncodes yEncodes => ?_
  have low' : (lo : ℚ) ≤ la + lb := by exact_mod_cast low
  have high' : (ha + hb : ℚ) ≤ hi := by exact_mod_cast high
  refine ⟨⟨by linarith [xIn.1, yIn.1], by linarith [xIn.2, yIn.2]⟩, ?_⟩
  push_cast
  rw [xEncodes, yEncodes, add_mul]

/-- A difference of numbers at one point. -/
theorem Carries.sub (left : Carries lowered a (.number la ha r) x)
    (right : Carries lowered b (.number lb hb r) y) (spans : t.Spans lo hi r)
    (low : lo ≤ la - hb) (high : ha - lb ≤ hi) :
    Carries lowered (.prim .sub [a, b] [] (.interval t)) (.number lo hi r)
      fun S => x S - y S := by
  refine left.binary (f := fun v w => v - w) (g := fun x y => x - y) rfl right spans
    ComputesSigned.sub fun {x y v w} xIn yIn xEncodes yEncodes => ?_
  have low' : (lo : ℚ) ≤ la - hb := by exact_mod_cast low
  have high' : (ha - lb : ℚ) ≤ hi := by exact_mod_cast high
  refine ⟨⟨by linarith [xIn.1, yIn.2], by linarith [xIn.2, yIn.1]⟩, ?_⟩
  push_cast
  rw [xEncodes, yEncodes, sub_mul]

section Products

variable {R : Type} [CommRing R] [LinearOrder R] [IsStrictOrderedRing R]

/-- A bound on the products with both ends of a range is one on the products with what lies
between. -/
theorem le_mul_of_ends {l h m z bound : R} (above : l ≤ z) (below : z ≤ h)
    (atLow : bound ≤ l * m) (atHigh : bound ≤ h * m) : bound ≤ z * m := by
  rcases le_total 0 m with nonneg | nonpos
  · exact atLow.trans (mul_le_mul_of_nonneg_right above nonneg)
  · exact atHigh.trans (mul_le_mul_of_nonpos_right below nonpos)

/-- A bound on the products of the corners of two ranges is one on all products. -/
theorem le_mul_of_corners {l h l' h' z z' bound : R} (zIn : l ≤ z ∧ z ≤ h)
    (zIn' : l' ≤ z' ∧ z' ≤ h') (corners : ∀ u ∈ [l, h], ∀ u' ∈ [l', h'], bound ≤ u * u') :
    bound ≤ z * z' := by
  have withEnd : ∀ u' ∈ [l', h'], bound ≤ z * u' := fun u' found =>
    le_mul_of_ends zIn.1 zIn.2 (corners l (by simp) u' found) (corners h (by simp) u' found)
  rw [mul_comm]
  refine le_mul_of_ends zIn'.1 zIn'.2 ?_ ?_
  · rw [mul_comm]
    exact withEnd l' (by simp)
  · rw [mul_comm]
    exact withEnd h' (by simp)

/-- The products of two ranges lie between bounds on the products of their corners. -/
theorem mul_between_of_corners {l h l' h' z z' lo hi : R} (zIn : l ≤ z ∧ z ≤ h)
    (zIn' : l' ≤ z' ∧ z' ≤ h') (low : ∀ u ∈ [l, h], ∀ u' ∈ [l', h'], lo ≤ u * u')
    (high : ∀ u ∈ [l, h], ∀ u' ∈ [l', h'], u * u' ≤ hi) : lo ≤ z * z' ∧ z * z' ≤ hi := by
  refine ⟨le_mul_of_corners zIn zIn' low, ?_⟩
  have negated : -hi ≤ z * -z' :=
    le_mul_of_corners zIn ⟨neg_le_neg zIn'.2, neg_le_neg zIn'.1⟩ ?_
  · rw [mul_neg, neg_le_neg_iff] at negated
    exact negated
  · simp only [List.forall_mem_cons, List.not_mem_nil, false_imp_iff, implies_true, and_true,
      mul_neg, neg_le_neg_iff] at high ⊢
    obtain ⟨lowRow, highRow⟩ := high
    exact ⟨lowRow.symm, highRow.symm⟩

end Products

/-- A product of numbers, at the sum of their points. -/
theorem Carries.mul (left : Carries lowered a (.number la ha p) x)
    (right : Carries lowered b (.number lb hb q) y) (spans : t.Spans lo hi r)
    (point : r.toNat = p.toNat + q.toNat) (low : ∀ u ∈ [la, ha], ∀ w ∈ [lb, hb], lo ≤ u * w)
    (high : ∀ u ∈ [la, ha], ∀ w ∈ [lb, hb], u * w ≤ hi) :
    Carries lowered (.prim .mul [a, b] [] (.interval t)) (.number lo hi r)
      fun S => x S * y S := by
  refine left.binary (f := fun v w => v * w) (g := fun x y => x * y) rfl right spans
    ComputesSigned.mul fun {x y v w} xIn yIn xEncodes yEncodes => ?_
  refine ⟨mul_between_of_corners xIn yIn ?_ ?_, ?_⟩
  · simp only [List.forall_mem_cons, List.not_mem_nil, false_imp_iff, implies_true, and_true]
      at low ⊢
    exact_mod_cast low
  · simp only [List.forall_mem_cons, List.not_mem_nil, false_imp_iff, implies_true, and_true]
      at high ⊢
    exact_mod_cast high
  · push_cast
    rw [xEncodes, yEncodes, point, pow_add]
    ring

/-- Whether the comparison holds. -/
def Operator.holds (op : Operator) (x y : ℚ) : Bool := (op.compares x y).getD false

/-- A comparison of rationals as the program's operators name it. -/
theorem Operator.compares_eq_holds {op : Operator} (comparison : op.IsComparison) (x y : ℚ) :
    op.compares x y = some (op.holds x y) := by
  rcases comparison with rfl | rfl | rfl | rfl | rfl | rfl <;> rfl

theorem Operator.IsComparison.generic {op : Operator} (comparison : op.IsComparison) :
    op.isIntervalOnly = false := by
  rcases comparison with rfl | rfl | rfl | rfl | rfl | rfl <;> rfl

theorem encodes_flagValue (holds : Bool) : Shape.flag.Covers (flagValue holds) ∧
    Shape.flag.Encodes (flagValue holds) (flagValue holds) := by
  cases holds
  · exact ⟨.inl rfl, Int.cast_zero⟩
  · exact ⟨.inr rfl, Int.cast_one⟩

/-- A comparison of numbers at one point. -/
theorem Carries.compare {op : Operator} (left : Carries lowered a (.number la ha p) x)
    (comparison : op.IsComparison) (right : Carries lowered b (.number lb hb p) y) :
    Carries lowered (.prim op [a, b] [] (.uint (.known (.ofNat 1)))) .flag
      fun S => flagValue (op.holds (x S) (y S)) := by
  obtain ⟨a', v, aLowers, aComputes, aValues⟩ := left.computed
  obtain ⟨b', w, bLowers, bComputes, bValues⟩ := right.computed
  refine ⟨.flag, .prim op [a', b'] [] (.uint (.known (.ofNat 1))),
    fun S => flagValue (op.holds (x S) (y S)), fun warn => ?_,
    ComputesSigned.compare aComputes comparison bComputes fun S => ?_, fun S => encodes_flagValue _⟩
  · exact Expr.lower_prim_generic comparison.generic
      (.cons (aLowers warn) (.cons (bLowers warn) .nil)) rfl
  · -- the encodings are ordered as the numbers are
    have grid : StrictMono fun x : ℚ => x * 2 ^ p.toNat :=
      strictMono_mul_right_of_pos (by positivity)
    have aEncodes : (v S : ℚ) = x S * 2 ^ p.toNat := (aValues S).2
    have bEncodes : (w S : ℚ) = y S * 2 ^ p.toNat := (bValues S).2
    rw [← Operator.compares_of_strictMono Int.cast_strictMono (β := ℚ) op, aEncodes, bEncodes,
      Operator.compares_of_strictMono grid, Operator.compares_eq_holds comparison]

/-- A comparison of flags. -/
theorem Carries.compareFlags {op : Operator} (left : Carries lowered a .flag x)
    (comparison : op.IsComparison) (right : Carries lowered b .flag y) :
    Carries lowered (.prim op [a, b] [] (.uint (.known (.ofNat 1)))) .flag
      fun S => flagValue (op.holds (x S) (y S)) := by
  obtain ⟨a', v, aLowers, aComputes, aValues⟩ := left.computed
  obtain ⟨b', w, bLowers, bComputes, bValues⟩ := right.computed
  refine ⟨.flag, .prim op [a', b'] [] (.uint (.known (.ofNat 1))),
    fun S => flagValue (op.holds (x S) (y S)), fun warn => ?_,
    Computes.compare comparison aComputes bComputes (.inr ⟨_, _, rfl, rfl⟩) fun S => ?_,
    fun S => encodes_flagValue _⟩
  · exact Expr.lower_prim_generic comparison.generic
      (.cons (aLowers warn) (.cons (bLowers warn) .nil)) rfl
  · have aEncodes : (v S : ℚ) = x S := (aValues S).2
    have bEncodes : (w S : ℚ) = y S := (bValues S).2
    rw [← Operator.compares_of_strictMono Int.cast_strictMono (β := ℚ) op, aEncodes, bEncodes,
      Operator.compares_eq_holds comparison]

/-- A selection between numbers at one point. -/
theorem Carries.select {c : Expr} {z : Situation source → ℚ} (cond : Carries lowered c .flag z)
    (tval : Carries lowered a (.number la ha r) x) (fval : Carries lowered b (.number lb hb r) y)
    (spans : t.Spans lo hi r) (low : lo ≤ min la lb) (high : max ha hb ≤ hi) :
    Carries lowered (.mux c a b (.interval t)) (.number lo hi r)
      fun S => if z S = 0 then y S else x S := by
  obtain ⟨c', u, cLowers, cComputes, cValues⟩ := cond.computed
  obtain ⟨a', v, aLowers, aComputes, aValues⟩ := tval.computed
  obtain ⟨b', w, bLowers, bComputes, bValues⟩ := fval.computed
  refine ⟨.number spans, .mux c' a' b' (Interval.carrier lo hi r), _, fun warn => ?_,
    ComputesSigned.select cComputes aComputes bComputes, fun S => ?_⟩
  · simp only [Expr.lower, bind_outcome_eq_ok_iff]
    exact ⟨c', cLowers warn, a', aLowers warn, b', bLowers warn, _, spans.lower_outcome, rfl⟩
  · have decides : (u S : ℚ) = z S := (cValues S).2
    have same : u S = 0 ↔ z S = 0 := by rw [← decides, Int.cast_eq_zero]
    obtain ⟨⟨aLow, aHigh⟩, aEncodes⟩ := aValues S
    obtain ⟨⟨bLow, bHigh⟩, bEncodes⟩ := bValues S
    obtain ⟨lowA, lowB⟩ := le_min_iff.mp low
    obtain ⟨highA, highB⟩ := max_le_iff.mp high
    simp only [same]
    split
    · exact ⟨⟨(Int.cast_le.mpr lowB).trans bLow, bHigh.trans (Int.cast_le.mpr highB)⟩, bEncodes⟩
    · exact ⟨⟨(Int.cast_le.mpr lowA).trans aLow, aHigh.trans (Int.cast_le.mpr highA)⟩, aEncodes⟩

/-- The encoding of a number lies between those of the bounds of its range. -/
theorem encoding_between {z : ℚ} {v : Int} (covers : (Shape.number lo hi p).Covers z)
    (encodes : (v : ℚ) = z * 2 ^ p.toNat) : lo * 2 ^ p.toNat ≤ v ∧ v ≤ hi * 2 ^ p.toNat := by
  have grid : (0 : ℚ) ≤ 2 ^ p.toNat := by positivity
  have low : (lo : ℚ) * 2 ^ p.toNat ≤ v := encodes ▸ mul_le_mul_of_nonneg_right covers.1 grid
  have high : (v : ℚ) ≤ hi * 2 ^ p.toNat := encodes ▸ mul_le_mul_of_nonneg_right covers.2 grid
  exact ⟨by exact_mod_cast low, by exact_mod_cast high⟩

/-- A number lies in a range if its encoding lies between those of the ends. -/
theorem covers_of_encoding_between {z : ℚ} {v : Int} (encodes : (v : ℚ) = z * 2 ^ p.toNat)
    (low : lo * 2 ^ p.toNat ≤ v) (high : v ≤ hi * 2 ^ p.toNat) :
    (Shape.number lo hi p).Covers z := by
  have grid : (0 : ℚ) < 2 ^ p.toNat := by positivity
  have low' : (lo : ℚ) * 2 ^ p.toNat ≤ z * 2 ^ p.toNat := by
    rw [← encodes]
    exact_mod_cast low
  have high' : z * 2 ^ p.toNat ≤ (hi : ℚ) * 2 ^ p.toNat := by
    rw [← encodes]
    exact_mod_cast high
  exact ⟨le_of_mul_le_mul_right low' grid, le_of_mul_le_mul_right high' grid⟩

/-- The check for moving numbers of one range into another, both at the same point. -/
def RangeCheck.atPoint (p : BitCount) (lo hi inLo inHi : Int) : RangeCheck :=
  ⟨lo * 2 ^ p.toNat, hi * 2 ^ p.toNat, inLo * 2 ^ p.toNat, inHi * 2 ^ p.toNat⟩

theorem scaled_le (ordered : lo ≤ hi) (p : BitCount) : lo * 2 ^ p.toNat ≤ hi * 2 ^ p.toNat :=
  mul_le_mul_of_nonneg_right ordered (by positivity)

/-- A saturation of a number into a range at its point. -/
theorem Carries.clip {consts : List Int} (arg : Carries lowered a (.number la ha p) x)
    (range : Carries lowered b (.number lb hb p) y) (spans : t.Spans lo hi p) :
    Carries lowered (.prim .clip [a, b] consts (.interval t)) (.number lo hi p)
      fun S => max (lo : ℚ) (min (hi : ℚ) (x S)) := by
  obtain ⟨a', v, aLowers, aComputes, aValues⟩ := arg.computed
  obtain ⟨b', _, bLowers, -, -⟩ := range.computed
  obtain ⟨ta, aSpans, aTy⟩ := arg.interval
  have ordered : (lo : ℚ) ≤ hi := Int.cast_le.mpr spans.ordered
  refine ⟨.number spans, _, _, fun warn => ?_,
    aComputes.saturated (.atPoint p lo hi la ha) (.decide (.atPoint p lo hi la ha)),
    fun S => ⟨⟨le_max_left _ _, max_le ordered (min_le_left _ _)⟩, ?_⟩⟩
  · refine Expr.lower_prim [⟨a', a.ty⟩, ⟨b', b.ty⟩]
      (.cons ⟨aLowers warn, rfl⟩ (.cons ⟨bLowers warn, rfl⟩ .nil))
      (Operand.lowerClip_eq_ok_iff.mpr ⟨_, _, _, _, la * 2 ^ p.toNat, ha * 2 ^ p.toNat, rfl,
        spans.resolved, ?_, rfl⟩)
    rw [aTy]
    exact aSpans.resolved
  · obtain ⟨low, high⟩ := encoding_between (aValues S).1 (aValues S).2
    have encodes : (v S : ℚ) = x S * 2 ^ p.toNat := (aValues S).2
    have grid : (0 : ℚ) ≤ 2 ^ p.toNat := by positivity
    rw [SaturateAction.apply_decide (scaled_le spans.ordered p) low high]
    show ((max (lo * 2 ^ p.toNat) (min (hi * 2 ^ p.toNat) (v S)) : Int) : ℚ) = _
    push_cast
    rw [encodes, max_mul_of_nonneg _ _ grid, min_mul_of_nonneg _ _ grid]

/-- A wrap of a number into the range of its second operand, at their common point. -/
theorem Carries.wrap {consts : List Int} (arg : Carries lowered a (.number la ha p) x)
    (range : Carries lowered b (.number lb hb p) y) (spans : t.Spans lo hi p) (low : lo ≤ lb)
    (high : hb ≤ hi) :
    Carries lowered (.prim .wrap [a, b] consts (.interval t)) (.number lo hi p)
      fun S => reduceInto lb (hb - lb + 1 / 2 ^ p.toNat) (x S) := by
  obtain ⟨a', v, aLowers, aComputes, aValues⟩ := arg.computed
  obtain ⟨b', _, bLowers, -, -⟩ := range.computed
  obtain ⟨ta, aSpans, aTy⟩ := arg.interval
  obtain ⟨tb, bSpans, bTy⟩ := range.interval
  have ordered := scaled_le bSpans.ordered p
  have size : (RangeCheck.atPoint p lb hb la ha).size
      = hb * 2 ^ p.toNat - lb * 2 ^ p.toNat + 1 := rfl
  refine ⟨.number spans, _, _, fun warn => ?_,
    aComputes.wrapped (.atPoint p lb hb la ha) (.decide (.atPoint p lb hb la ha))
      (by omega), fun S => ?_⟩
  · refine Expr.lower_prim [⟨a', a.ty⟩, ⟨b', b.ty⟩]
      (.cons ⟨aLowers warn, rfl⟩ (.cons ⟨bLowers warn, rfl⟩ .nil))
      (Operand.lowerWrap_eq_ok_iff.mpr
        ⟨_, _, rfl, .inr ⟨lb * 2 ^ p.toNat, hb * 2 ^ p.toNat, ?_, ?_⟩⟩)
    · show b.ty.WrapRange _ _
      rw [bTy]
      exact .interval bSpans.encodings
    · refine Operand.lowerWrapInto_eq_ok_iff.mpr
        ⟨la * 2 ^ p.toNat, ha * 2 ^ p.toNat, ?_, rfl⟩
      rw [aTy]
      exact aSpans.resolved
  · obtain ⟨above, below⟩ := encoding_between (aValues S).1 (aValues S).2
    have encodes : (v S : ℚ) = x S * 2 ^ p.toNat := (aValues S).2
    have reduced := reduceInto_of_encoding encodes bSpans.ordered
    rw [WrapAction.apply_decide ordered above below]
    refine ⟨covers_of_encoding_between reduced ?_ ?_, reduced⟩
    · have := Int.emod_nonneg (v S - lb * 2 ^ p.toNat)
        (b := hb * 2 ^ p.toNat - lb * 2 ^ p.toNat + 1) (by omega)
      have := scaled_le low p
      omega
    · have := Int.emod_lt_of_pos (v S - lb * 2 ^ p.toNat)
        (b := hb * 2 ^ p.toNat - lb * 2 ^ p.toNat + 1) (by omega)
      have := scaled_le high p
      omega

end Operators

/-! ## Well-recorded expressions -/

/-- The expression is aligned to one that carries its meaning. -/
structure Expr.CarriedBy (lowered : Scope) (e a : Expr) (s : Shape) (x : Situation source → ℚ) :
    Prop where
  aligned : e.align.outcome = .ok a
  means : ∀ S : Situation source, e.meaning? S.meant = some (x S)
  carries : Carries lowered a s x

section Recorded

variable {a b a' b' : Expr} {la ha lb hb : Int} {p q : BitCount} {x y : Situation source → ℚ}

/-- A reference carries what its name stands for. -/
theorem Expr.CarriedBy.ref {name : String} {ty : Ty} {s : Shape}
    (scopes : source.LoweredTo lowered) (found : source.lookup name = some ty)
    (shape : ty.HasShape s) :
    (Expr.ref name ty).CarriedBy lowered (.ref name ty) s
      fun S : Situation source => S.meant name := by
  obtain ⟨ty', declared, loweredTo⟩ := scopes name ty s found shape
  have computes (recorded : Ty) :
      Computes lowered (.ref name recorded) ty' fun S : Situation source => S.held name := by
    refine ⟨.ref name ty', ?_, rfl, fun S => rfl, fun S fits unsaturated => ?_⟩
    · refine Expr.infer_eq_ok_iff.mpr ⟨_, .ref name recorded, ?_⟩
      simp only [Expr.inferNode, Scope.resolve_eq_ok_iff.mpr declared]
      rfl
    · have holds := fits name ty s ty' found shape declared unsaturated.here
      exact ⟨congrArg some (Ty.fit_of_holds holds), holds⟩
  refine ⟨?_, fun S => rfl, shape, ?_⟩
  · exact Expr.align_eq_ok_iff.mpr ⟨_, .ref name ty, .other rfl id⟩
  · cases shape with
    | @number t lo hi p spans =>
      cases loweredTo
      refine ⟨.ref name (Interval.carrier lo hi p), _, fun warn => ?_,
        ⟨_, computes _⟩,
        fun S => ⟨S.covered found (.number spans), S.encoded found (.number spans)⟩⟩
      simp only [Expr.lower, bind_outcome_eq_ok_iff]
      exact ⟨_, spans.lower_outcome, rfl⟩
    | flag =>
      cases loweredTo
      exact ⟨.ref name (.uint (.known (.ofNat 1))), _, fun warn => rfl, computes _,
        fun S => ⟨S.covered found .flag, S.encoded found .flag⟩⟩

/-- Numbers that meet are aligned to a common point. -/
theorem Expr.CarriedBy.meet (op : Operator) (left : a.CarriedBy lowered a' (.number la ha p) x)
    (right : b.CarriedBy lowered b' (.number lb hb q) y) (common : op.needsCommonPoint = true) :
    ∃ c d, (∀ consts ty, (Expr.prim op [a, b] consts ty).align.outcome
        = .ok (.prim op [c, d] consts (op.repoint (max p q) ty))) ∧
      Carries lowered c (.number la ha (max p q)) x ∧
      Carries lowered d (.number lb hb (max p q)) y := by
  obtain ⟨ta, aSpans, aTy⟩ := left.carries.interval
  obtain ⟨tb, bSpans, bTy⟩ := right.carries.interval
  have greater : commonPoint [p, q] = max p q :=
    BitCount.ext (by simp [commonPoint])
  obtain ⟨c, aMoved, cCarries⟩ :=
    left.carries.raised (show p ≤ max p q by simp [BitCount.le_iff])
  obtain ⟨d, bMoved, dCarries⟩ :=
    right.carries.raised (show q ≤ max p q by simp [BitCount.le_iff])
  refine ⟨c, d, fun consts ty => ?_, cCarries, dCarries⟩
  rw [← greater] at aMoved bMoved ⊢
  refine Expr.align_eq_ok_iff.mpr
    ⟨_, .prim op consts ty (.cons left.aligned (.cons right.aligned .nil)),
      .meet consts ty ?_ (.cons ⟨ta, aTy, aSpans.point⟩ (.cons ⟨tb, bTy, bSpans.point⟩ .nil))
        (.cons aMoved (.cons bMoved .nil))⟩
  simp [meets, common, aTy, bTy, Ty.isInterval]

/-- An operator that does not move its operands stays over them. -/
theorem Expr.align_prim_keep (op : Operator) {args args' : List Expr} {consts : List Int} {ty : Ty}
    (each : List.Forall₂ (fun e e' => e.align.outcome = .ok e') args args') (stays : op ≠ .setp)
    (apart : meets op args' = false) :
    (Expr.prim op args consts ty).align.outcome = .ok (.prim op args' consts ty) :=
  Expr.align_eq_ok_iff.mpr ⟨_, .prim op consts ty each, .keep consts ty stays apart⟩

/-- A set point is aligned to its operand, moved there. -/
theorem Expr.align_setp {arg arg' e : Expr} {consts : List Int} {ty : Ty}
    (aligned : arg.align.outcome = .ok arg') (moved : arg'.Rescaled p e) :
    (Expr.prim .setp [arg] ((p.toNat : Int) :: consts) ty).align.outcome = .ok e :=
  Expr.align_eq_ok_iff.mpr ⟨_, .prim .setp _ ty (.cons aligned .nil),
    .setp ty (BitCount.ofInt?_eq_some_iff.mpr rfl) moved⟩

/-- The branches of a selection are aligned to a common point. -/
theorem Expr.CarriedBy.meetBranches {c c' : Expr} (cond : c.align.outcome = .ok c')
    (tval : a.CarriedBy lowered a' (.number la ha p) x)
    (fval : b.CarriedBy lowered b' (.number lb hb q) y) (t : Interval) :
    ∃ d e, (Expr.mux c a b (.interval t)).align.outcome
        = .ok (.mux c' d e (.interval (t.atPoint (max p q)))) ∧
      Carries lowered d (.number la ha (max p q)) x ∧
      Carries lowered e (.number lb hb (max p q)) y := by
  obtain ⟨ta, aSpans, aTy⟩ := tval.carries.interval
  obtain ⟨tb, bSpans, bTy⟩ := fval.carries.interval
  obtain ⟨d, aMoved, dCarries⟩ :=
    tval.carries.raised (show p ≤ max p q by simp [BitCount.le_iff])
  obtain ⟨e, bMoved, eCarries⟩ :=
    fval.carries.raised (show q ≤ max p q by simp [BitCount.le_iff])
  refine ⟨d, e, ?_, dCarries, eCarries⟩
  exact Expr.align_eq_ok_iff.mpr ⟨_, .mux (.interval t) cond tval.aligned fval.aligned,
    .select c' t ⟨ta, aTy, aSpans.point⟩ ⟨tb, bTy, bSpans.point⟩ aMoved bMoved⟩

/-- The number that an operator of one operand stands for. -/
theorem Expr.meaning_unary {op : Operator} {consts : List Int} {ty : Ty} {r : ℚ}
    {meant : String → ℚ} (arg : a.meaning? meant = some r) :
    (Expr.prim op [a] consts ty).meaning? meant = op.meaning? [(r, a.ty)] consts ty := by
  simp [Expr.meaning?, Expr.meanings?, arg]

/-- The number that an operator of two operands stands for. -/
theorem Expr.meaning_binary {op : Operator} {consts : List Int} {ty : Ty} {r r' : ℚ}
    {meant : String → ℚ} (left : a.meaning? meant = some r) (right : b.meaning? meant = some r') :
    (Expr.prim op [a, b] consts ty).meaning? meant
      = op.meaning? [(r, a.ty), (r', b.ty)] consts ty := by
  simp [Expr.meaning?, Expr.meanings?, left, right]

theorem Operator.IsComparison.stays {op : Operator} (comparison : op.IsComparison) :
    op ≠ .setp := by
  rcases comparison with rfl | rfl | rfl | rfl | rfl | rfl <;> nofun

theorem Operator.IsComparison.needsCommonPoint {op : Operator} (comparison : op.IsComparison) :
    op.needsCommonPoint = true := by
  rcases comparison with rfl | rfl | rfl | rfl | rfl | rfl <;> rfl

/-- A comparison stands for the flag of what it says. -/
theorem Operator.IsComparison.meaning {op : Operator} (comparison : op.IsComparison) (r r' : ℚ)
    (t t' ty : Ty) : op.meaning? [(r, t), (r', t')] [] ty = some (flagValue (op.holds r r')) := by
  have meaning : op.meaning? [(r, t), (r', t')] [] ty = (op.compares r r').map flagValue := by
    rcases comparison with rfl | rfl | rfl | rfl | rfl | rfl <;> rfl
  rw [meaning, Operator.compares_eq_holds comparison]
  rfl

theorem Operator.IsComparison.repoint {op : Operator} (comparison : op.IsComparison) (p : BitCount)
    (ty : Ty) : op.repoint p ty = ty := by
  rcases comparison with rfl | rfl | rfl | rfl | rfl | rfl <;> rfl

/-- Every well-recorded expression is aligned to one that carries its meaning. -/
theorem Expr.Recorded.carried {e : Expr} {s : Shape} (recorded : e.Recorded source s)
    (scopes : source.LoweredTo lowered) :
    ∃ (a : Expr) (x : Situation source → ℚ), e.CarriedBy lowered a s x := by
  -- operands that meet are first brought to the greater point, where the operator is exact
  induction recorded with
  | ref found shape => exact ⟨_, _, .ref scopes found shape⟩
  | add _ _ spans low high left right =>
    obtain ⟨a', x, left⟩ := left
    obtain ⟨b', y, right⟩ := right
    obtain ⟨c, d, aligned, cCarries, dCarries⟩ := left.meet .add right rfl
    exact ⟨_, _, aligned _ _, fun S => Expr.meaning_binary (left.means S) (right.means S),
      cCarries.add dCarries spans low high⟩
  | sub _ _ spans low high left right =>
    obtain ⟨a', x, left⟩ := left
    obtain ⟨b', y, right⟩ := right
    obtain ⟨c, d, aligned, cCarries, dCarries⟩ := left.meet .sub right rfl
    exact ⟨_, _, aligned _ _, fun S => Expr.meaning_binary (left.means S) (right.means S),
      cCarries.sub dCarries spans low high⟩
  | mul _ _ spans point low high left right =>
    obtain ⟨a', x, left⟩ := left
    obtain ⟨b', y, right⟩ := right
    exact ⟨_, _,
      Expr.align_prim_keep .mul (.cons left.aligned (.cons right.aligned .nil)) (by decide) rfl,
      fun S => Expr.meaning_binary (left.means S) (right.means S),
      left.carries.mul right.carries spans point low high⟩
  | @compare op a b _ _ _ _ _ _ comparison _ _ left right =>
    obtain ⟨a', x, left⟩ := left
    obtain ⟨b', y, right⟩ := right
    obtain ⟨c, d, aligned, cCarries, dCarries⟩ := left.meet op right comparison.needsCommonPoint
    refine ⟨_, _, ?_, fun S => ?_, cCarries.compare comparison dCarries⟩
    · rw [aligned, comparison.repoint]
    · rw [Expr.meaning_binary (left.means S) (right.means S), comparison.meaning]
  | @compareFlags op a b comparison _ _ left right =>
    obtain ⟨a', x, left⟩ := left
    obtain ⟨b', y, right⟩ := right
    have apart : meets op [a', b'] = false := by
      simp [meets, left.carries.flag, Ty.isInterval]
    have aligned (ty : Ty) :
        (Expr.prim op [a, b] [] ty).align.outcome = .ok (.prim op [a', b'] [] ty) :=
      Expr.align_prim_keep op (.cons left.aligned (.cons right.aligned .nil)) comparison.stays apart
    refine ⟨_, _, aligned _, fun S => ?_, left.carries.compareFlags comparison right.carries⟩
    rw [Expr.meaning_binary (left.means S) (right.means S), comparison.meaning]
  | @mux c a b t _ _ _ _ _ _ p q _ _ _ spans low high cond left right =>
    obtain ⟨c', z, cond⟩ := cond
    obtain ⟨a', x, left⟩ := left
    obtain ⟨b', y, right⟩ := right
    obtain ⟨d, e, aligned, dCarries, eCarries⟩ := left.meetBranches cond.aligned right t
    refine ⟨_, _, aligned, fun S => ?_,
      cond.carries.select dCarries eCarries (spans.atPoint (max p q)) low high⟩
    simp [Expr.meaning?, cond.means S, left.means S, right.means S]
  | @setp _ _ _ _ _ q _ _ _ arg =>
    obtain ⟨a', x, arg⟩ := arg
    obtain ⟨c, moved, carries⟩ := arg.carries.rescaled q
    exact ⟨_, _, Expr.align_setp arg.aligned moved, fun S => Expr.meaning_unary (arg.means S),
      carries⟩
  | incp _ spans point arg =>
    obtain ⟨a', x, arg⟩ := arg
    exact ⟨_, _, Expr.align_prim_keep .incp (.cons arg.aligned .nil) (by decide) rfl,
      fun S => Expr.meaning_unary (arg.means S), arg.carries.incp spans point⟩
  | decp recorded spans point arg =>
    obtain ⟨a', x, arg⟩ := arg
    obtain ⟨ta, aSpans, aTy⟩ := recorded.interval
    refine ⟨_, _, Expr.align_prim_keep .decp (.cons arg.aligned .nil) (by decide) rfl, fun S => ?_,
      arg.carries.decp spans point⟩
    rw [Expr.meaning_unary (arg.means S), aTy, Operator.meaning_decp aSpans point]
  | @clip _ _ _ _ _ _ _ _ _ p q _ _ _ spans arg range =>
    obtain ⟨a', x, arg⟩ := arg
    obtain ⟨b', y, range⟩ := range
    obtain ⟨c, d, aligned, cCarries, dCarries⟩ := arg.meet .clip range rfl
    refine ⟨_, _, aligned _ _, fun S => ?_, cCarries.clip dCarries (spans.atPoint (max p q))⟩
    rw [Expr.meaning_binary (arg.means S) (range.means S), Operator.meaning_clip spans]
  | @wrap _ _ _ _ _ _ _ _ _ p q _ recorded rangeRecorded spans low high arg range =>
    obtain ⟨a', x, arg⟩ := arg
    obtain ⟨b', y, range⟩ := range
    obtain ⟨ta, aSpans, aTy⟩ := recorded.interval
    obtain ⟨tb, bSpans, bTy⟩ := rangeRecorded.interval
    obtain ⟨c, d, aligned, cCarries, dCarries⟩ := arg.meet .wrap range rfl
    refine ⟨_, _, aligned _ _, fun S => ?_,
      cCarries.wrap dCarries (spans.atPoint (max p q)) low high⟩
    rw [Expr.meaning_binary (arg.means S) (range.means S), aTy, bTy,
      Operator.meaning_wrap aSpans bSpans]

end Recorded

end Expressions

end IntervalHdl
