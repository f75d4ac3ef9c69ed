import IntervalHdl.Proofs.Alignment.Coherence
import IntervalHdl.Proofs.Meaning
import IntervalHdl.Proofs.Removal.CarriedWidths
import IntervalHdl.Proofs.Removal.Formed

/-!
# A wrap is a floor modulo

A wrap into a range is lowered to nothing, to one comparison, to two, or to a remainder, by the
ranges of its operands. Whichever it is, hardware computes the number of the target range that
differs from the operand by a multiple of the size of the range (`Expr.wrap_reduces`), and every
node on the way is wide enough for what it computes. Bounds are rounded down at the point where the
operands meet, so the operand has to stay in its rounded range when it is moved there: it does where
its least value is on its own grid. The operands meet at the types that alignment leaves them at.
For a selection or a saturation that is recorded at another point, the law by recorded types fails
(`Expr.wrap_recorded_differs`).
-/

namespace IntervalHdl
set_option autoImplicit false

open Reported

/-! ## Bounds at two points -/

namespace Fraction

variable {f g : Fraction} {p : Nat}

theorem scaledFloor_le_scaledFloor (ordered : f.toRat ≤ g.toRat) (p : Nat) :
    f.scaledFloor p ≤ g.scaledFloor p := by
  rw [scaledFloor_eq_floor, scaledFloor_eq_floor]
  have grid : (0 : ℚ) ≤ 2 ^ p := by positivity
  exact Int.floor_le_floor (mul_le_mul_of_nonneg_right ordered grid)

/-- A bound at a finer point is not below the bound at a coarser one. -/
theorem scaledFloor_mul_le (f : Fraction) (p n : Nat) :
    f.scaledFloor p * 2 ^ n ≤ f.scaledFloor (p + n) := by
  rw [← f.scaledFloor_shifted p n]
  exact Int.ediv_mul_le _ (by positivity)

/-- A bound that is on the coarser grid is the same at both points. -/
theorem scaledFloor_of_whole {k : Int} (whole : f.toRat * 2 ^ p = k) (n : Nat) :
    f.scaledFloor (p + n) = f.scaledFloor p * 2 ^ n := by
  have finer : f.toRat * 2 ^ (p + n) = ((k * 2 ^ n : Int) : ℚ) := by
    rw [pow_add, ← mul_assoc, whole]
    push_cast
    rfl
  rw [scaledFloor_eq_floor, scaledFloor_eq_floor, finer, whole, Int.floor_intCast,
    Int.floor_intCast]

end Fraction

/-- A value in a rounded range stays in it at a finer point, if the least value is on the coarser
grid. -/
theorem between_at_finer {lo hi : Fraction} {p q : BitCount} {v : Int} (finer : p ≤ q)
    (whole : (∃ k : Int, lo.toRat * 2 ^ p.toNat = k) ∨ q = p)
    (low : lo.scaledFloor p.toNat ≤ v) (high : v ≤ hi.scaledFloor p.toNat) :
    lo.scaledFloor q.toNat ≤ v * 2 ^ (q.toNat - p.toNat) ∧
      v * 2 ^ (q.toNat - p.toNat) ≤ hi.scaledFloor q.toNat := by
  rw [BitCount.le_iff] at finer
  obtain ⟨n, apart⟩ : ∃ n, q.toNat = p.toNat + n := ⟨q.toNat - p.toNat, by omega⟩
  have grid : (0 : Int) ≤ 2 ^ n := by positivity
  have amount : q.toNat - p.toNat = n := by omega
  rw [amount, apart]
  constructor
  · have same : lo.scaledFloor (p.toNat + n) = lo.scaledFloor p.toNat * 2 ^ n := by
      rcases whole with ⟨k, whole⟩ | rfl
      · exact lo.scaledFloor_of_whole whole n
      · obtain rfl : n = 0 := by omega
        rw [pow_zero, mul_one, Nat.add_zero]
    rw [same]
    exact mul_le_mul_of_nonneg_right low grid
  · calc v * 2 ^ n ≤ hi.scaledFloor p.toNat * 2 ^ n := mul_le_mul_of_nonneg_right high grid
      _ ≤ hi.scaledFloor (p.toNat + n) := hi.scaledFloor_mul_le p.toNat n

/-! ## The target range -/

/-- A value at the point `p` meets a wrap bound of this type at the second point, and is wrapped into
the range between the two numbers there: that of a bounded interval, or of an unsigned width. -/
inductive Ty.WrapsInto (p : BitCount) : Ty → BitCount → Int → Int → Prop where
  | interval {t : Interval} {lo hi : Fraction} {q : BitCount} (lower : t.lower = .known lo)
    (upper : t.upper = .known hi) (point : t.point = .known q) (ordered : lo.toRat ≤ hi.toRat) :
    WrapsInto p (.interval t) (max p q) (lo.scaledFloor (max p q).toNat)
      (hi.scaledFloor (max p q).toNat)
  | uint (w : BitCount) : WrapsInto p (.uint (.known w)) p 0 (2 ^ w.toNat - 1)

namespace Ty.WrapsInto

variable {p q : BitCount} {bound : Ty} {least greatest : Int}

theorem ordered (into : bound.WrapsInto p q least greatest) : least ≤ greatest := by
  cases into with
  | interval _ _ _ ordered => exact Fraction.scaledFloor_le_scaledFloor ordered _
  | uint w =>
    have : (0 : Int) < 2 ^ w.toNat := by positivity
    omega

theorem finer (into : bound.WrapsInto p q least greatest) : p ≤ q := by
  cases into with
  | interval => exact BitCount.le_max_left _ _
  | uint => exact BitCount.le_refl p

end Ty.WrapsInto

namespace Interval

/-- The bounds at another point. -/
theorem encodings?_eq_of_bounds {t : Interval} {lo hi : Fraction} {q : BitCount}
    (lower : t.lower = .known lo) (upper : t.upper = .known hi) (point : t.point = .known q) :
    t.encodings? = some (lo.scaledFloor q.toNat, hi.scaledFloor q.toNat) :=
  encodings?_eq_some_iff.mpr ⟨lo, hi, q, lower, upper, point, rfl, rfl⟩

end Interval

namespace Expr

/-- The expression is aligned and lowered to the second one. -/
def LowersTo (warn : Bool) (a l : Expr) : Prop :=
  ∃ a', a.align.outcome = .ok a' ∧ (a'.lower warn).outcome = .ok l

section Operands

variable {warn : Bool} {s : Scope} {a a' b l e : Expr} {t : Interval} {lo hi : Fraction}
  {p q w : BitCount}

/-- What has a point can be moved to any other. -/
theorem exists_rescaled_of_hasPoint (recorded : a.ty.HasPoint p) (q : BitCount) :
    ∃ a', Rescaled q a a' := by
  obtain ⟨t, ty, point⟩ := recorded
  by_cases same : p = q
  · exact ⟨a, .same ⟨t, ty, same ▸ point⟩⟩
  · exact ⟨_, .moved ty point same⟩

/-- A moved expression keeps its bounds. -/
theorem Rescaled.encodings (moved : Rescaled q a a') (ty : a.ty = .interval t)
    (lower : t.lower = .known lo) (upper : t.upper = .known hi) :
    ∃ t', a'.ty = .interval t' ∧
      t'.encodings? = some (lo.scaledFloor q.toNat, hi.scaledFloor q.toNat) := by
  cases moved with
  | same recorded =>
    rw [ty, Ty.hasPoint_interval_iff] at recorded
    exact ⟨t, ty, Interval.encodings?_eq_of_bounds lower upper recorded⟩
  | @moved t' _ ty' =>
    cases ty.symm.trans ty'
    exact ⟨t.atPoint q, rfl, Interval.encodings?_eq_of_bounds lower upper rfl⟩

/-- A move of the point is lowered to a shift. -/
theorem lower_rescaleStep (lowered : (a.lower warn).outcome = .ok l) (p q : BitCount) (ty : Ty) :
    ((Expr.prim (rescaleStep p q).1 [a] [((rescaleStep p q).2.toNat : Int)] ty).lower warn).outcome
      = .ok (.untyped (if p < q then .shl else .shr) [l] [((rescaleStep p q).2.toNat : Int)]) := by
  have each : List.Forall₂
      (fun e (o : Operand) => (e.lower warn).outcome = .ok o.value ∧ o.recorded = e.ty)
      [a] [⟨l, a.ty⟩] := .cons ⟨lowered, rfl⟩ .nil
  unfold rescaleStep
  split <;>
    exact lower_prim_eq_ok_iff.mpr ⟨_, each, Operand.lowerShift_eq_ok_iff.mpr ⟨_, rfl, rfl⟩⟩

/-- A moved expression is lowered to a shift, if it is moved at all. -/
theorem Rescaled.lowers (moved : Rescaled q a a') (lowered : (a.lower warn).outcome = .ok l) :
    ∃ l', (a'.lower warn).outcome = .ok l' := by
  cases moved with
  | same => exact ⟨l, lowered⟩
  | moved => exact ⟨_, lower_rescaleStep lowered _ _ _⟩

/-- What can be lowered after it was moved can be lowered before. -/
theorem Rescaled.lowers_iff (moved : Rescaled q a a') :
    (∃ l, (a'.lower warn).outcome = .ok l) ↔ ∃ l, (a.lower warn).outcome = .ok l := by
  constructor
  · rintro ⟨l, lowered⟩
    cases moved with
    | same => exact ⟨l, lowered⟩
    | moved =>
      obtain ⟨_, operands, -⟩ := lower_prim_eq_ok_iff.mp lowered
      obtain ⟨o, ⟨lowered', -⟩, -⟩ := single_of_forall₂ operands
      exact ⟨o.value, lowered'⟩
  · rintro ⟨l, lowered⟩
    exact moved.lowers lowered

/-- An expression moved to a finer point is shifted to the left. -/
theorem Rescaled.formed (moved : Rescaled q a a') (recorded : a.ty.HasPoint p) (finer : p ≤ q)
    (lowered : (a.lower warn).outcome = .ok l) (typed : l.infer s = .ok e)
    (signed : e.ty = .sint (.known w)) :
    ∃ l' n, (a'.lower warn).outcome = .ok l' ∧
      FormedOver s e l' (.sint (.known n)) fun v => v * 2 ^ (q.toNat - p.toNat) := by
  have operand : FormedOver s e l (.sint (.known w)) id := signed ▸ .operand typed
  cases moved with
  | same recorded' =>
    cases recorded.unique recorded'
    refine ⟨l, w, lowered, ?_⟩
    simp only [Nat.sub_self, pow_zero, mul_one]
    exact operand
  | moved ty point apart =>
    cases recorded.unique ⟨_, ty, point⟩
    have below : p < q := by
      rw [BitCount.le_iff] at finer
      rw [BitCount.lt_iff]
      exact lt_of_le_of_ne finer fun same => apart (BitCount.ext same)
    refine ⟨_, w + (q - p), lower_rescaleStep lowered _ _ _, ?_⟩
    rw [rescaleStep, if_pos below, if_pos below, ← BitCount.toNat_sub]
    exact operand.shl (q - p)

/-- Two operands that have points are moved to the finer one. -/
theorem meet_nodeAligned (op : Operator) (meeting : op.needsCommonPoint = true)
    (consts : List Int) (ty : Ty) (left : a.ty.HasPoint p) (right : b.ty.HasPoint q) :
    ∃ a' b', NodeAligned (.prim op [a, b] consts ty)
        (.prim op [a', b'] consts (op.repoint (max p q) ty)) ∧
      Rescaled (max p q) a a' ∧ Rescaled (max p q) b b' := by
  have common : commonPoint [p, q] = max p q := BitCount.ext (by simp [commonPoint])
  have meet : meets op [a, b] = true := by
    simp [meets, meeting, left.isInterval, right.isInterval]
  obtain ⟨a', leftMoved⟩ := exists_rescaled_of_hasPoint left (max p q)
  obtain ⟨b', rightMoved⟩ := exists_rescaled_of_hasPoint right (max p q)
  have moved : List.Forall₂ (Rescaled (commonPoint [p, q])) [a, b] [a', b'] := by
    rw [common]
    exact .cons leftMoved (.cons rightMoved .nil)
  have aligned := NodeAligned.meet consts ty meet (.cons left (.cons right .nil)) moved
  rw [common] at aligned
  exact ⟨a', b', aligned, leftMoved, rightMoved⟩

/-- A wrap whose operands are aligned stays one, over operands at the point where they meet. -/
theorem wrap_nodeAligned {least greatest : Int} (consts : List Int) (ty : Ty)
    (recorded : a.ty.HasPoint p) (lowered : (b.lower warn).outcome = .ok l)
    (into : b.ty.WrapsInto p q least greatest) :
    ∃ a' b' lb ty', NodeAligned (.prim .wrap [a, b] consts ty) (.prim .wrap [a', b'] consts ty') ∧
      Rescaled q a a' ∧ (b'.lower warn).outcome = .ok lb ∧ b'.ty.WrapRange least greatest := by
  generalize rangeTy : b.ty = bound at into
  cases into with
  | @interval t lo hi q lower upper point =>
    have range : b.ty.HasPoint q := ⟨t, rangeTy, point⟩
    obtain ⟨a', b', aligned, aMoved, bMoved⟩ := meet_nodeAligned .wrap rfl consts ty recorded range
    obtain ⟨lb, bLowered⟩ := bMoved.lowers lowered
    obtain ⟨t', ty', ends⟩ := bMoved.encodings rangeTy lower upper
    exact ⟨a', b', lb, _, aligned, aMoved, bLowered, ty' ▸ .interval ends⟩
  | uint w =>
    have apart : meets .wrap [a, b] = false := by
      simp [meets, rangeTy, Ty.isInterval]
    exact ⟨a, b, l, ty, .keep consts ty (by decide) apart, .same recorded, lowered, rangeTy ▸ .uint w⟩

end Operands

/-- A wrap after alignment, lowering and inference is a floor modulo. Let alignment leave the operand
at a bounded interval type, which is the recorded one if every node of the operand is settled
(`alignedTy_of_settled`), and let the operand be lowered to a signed integer that holds its value.
Then the stages succeed, hardware evaluates the result to the number of the target range that
differs from the value by a multiple of the size of the range, and no node that they form over the
operand is cut to its width. The recorded types of other operands would not do
(`wrap_recorded_differs`). -/
theorem wrap_reduces {warn : Bool} {s : Scope} {a b l lb e : Expr} {t : Interval}
    {lo hi : Fraction} {p q w : BitCount} {least greatest : Int} (consts : List Int) (ty : Ty)
    (recorded : a.alignedTy = .interval t) (lower : t.lower = .known lo)
    (upper : t.upper = .known hi) (point : t.point = .known p) (arg : LowersTo warn a l)
    (typed : l.infer s = .ok e) (signed : e.ty = .sint (.known w)) (range : LowersTo warn b lb)
    (into : b.alignedTy.WrapsInto p q least greatest)
    (whole : (∃ k : Int, lo.toRat * 2 ^ p.toNat = k) ∨ q = p) :
    ∃ z n, Removed warn s (.prim .wrap [a, b] consts ty) z ∧ z.ty = .sint (.known n) ∧
      (z.Unsaturated → ∀ env v, e.hardwareAt env [] = some v → FitsSigned w.toNat v →
        lo.scaledFloor p.toNat ≤ v → v ≤ hi.scaledFloor p.toNat →
        z.hardwareAt env []
            = some (least + (v * 2 ^ (q.toNat - p.toNat) - least) % (greatest - least + 1)) ∧
          Above e (Uncut env) z) := by
  obtain ⟨a', argAligned, argLowered⟩ := arg
  obtain ⟨b', rangeAligned, rangeLowered⟩ := range
  have argTy : a'.ty = .interval t := (ty_of_align argAligned).trans recorded
  rw [← ty_of_align rangeAligned] at into
  have atPoint : a'.ty.HasPoint p := ⟨t, argTy, point⟩
  obtain ⟨a'', b'', lb', ty', aligned, moved, rangeLowered', target⟩ :=
    wrap_nodeAligned consts ty atPoint rangeLowered into
  obtain ⟨t', argTy', ends⟩ := moved.encodings argTy lower upper
  obtain ⟨la, m, argLowered', formed⟩ := moved.formed atPoint into.finer argLowered typed signed
  let check : RangeCheck :=
    ⟨least, greatest, lo.scaledFloor q.toNat, hi.scaledFloor q.toNat⟩
  have ordered : check.lo ≤ check.hi := into.ordered
  have size : check.size = greatest - least + 1 := rfl
  have nonempty : check.size ≠ 0 := by
    have : least ≤ greatest := ordered
    omega
  obtain ⟨n, z, zTyped, zTy, delivers⟩ := formed.wrapped check nonempty (.decide check)
  have wrapped : (Operand.lowerWrap warn [⟨la, a''.ty⟩, ⟨lb', b''.ty⟩]).outcome
      = .ok (.wrapped check la (.decide check)) := by
    refine Operand.lowerWrap_eq_ok_iff.mpr ⟨_, _, rfl, .inr ⟨least, greatest, target, ?_⟩⟩
    exact Operand.lowerWrapInto_eq_ok_iff.mpr
      ⟨_, _, Operator.operandRange_eq_ok_iff.mpr ⟨t', argTy', ends⟩, rfl⟩
  refine ⟨z, n, ⟨_, _, align_prim_eq_ok_iff.mpr ⟨_, .cons argAligned (.cons rangeAligned .nil),
    aligned⟩, lower_prim_eq_ok_iff.mpr ⟨_, .cons ⟨argLowered', rfl⟩ (.cons ⟨rangeLowered', rfl⟩
      .nil), wrapped⟩, zTyped⟩, zTy, ?_⟩
  intro unsaturated env v value fits low high
  have holds : e.ty.Holds v := by
    rw [signed]
    exact fits
  obtain ⟨low', high'⟩ := between_at_finer into.finer whole low high
  have reduced : (WrapAction.decide check).apply check (v * 2 ^ (q.toNat - p.toNat))
      = least + (v * 2 ^ (q.toNat - p.toNat) - least) % (greatest - least + 1) :=
    WrapAction.apply_decide ordered low' high'
  have result := delivers env v value holds unsaturated
  exact ⟨result.value.trans (congrArg some reduced), result.uncut⟩

/-- An integer from -8 to 7 is wrapped into the halves from 0 to 3/2, by a remainder: six halves
below zero are two above it. -/
theorem wrap_reduces_halves :
    let sint (n : Nat) : Ty := .sint (.known (.ofNat n))
    let literal (k : Int) (n : Nat) : Expr := .sint k (.known (.ofNat n))
    let outer : Interval := .of (.ofInt (-8)) (.ofInt 7) (.known (.ofNat 0))
    let inner : Interval := .of (.ofInt 0) (.known ⟨3, 2, by decide⟩) (.known (.ofNat 1))
    let scope : Scope := [("a", sint 4), ("b", sint 3)]
    let operand : Expr := .ref "a" (sint 4)
    let residue : Expr :=
      .prim .rem [.prim .sub [.prim .shl [operand] [1] (sint 5), literal 0 1] [] (sint 6),
        literal 4 4] [] (sint 4)
    let typed : Expr :=
      .prim .add [.mux (.prim .lt [residue, literal 0 1] [] (.uint (.known (.ofNat 1))))
        (.prim .add [residue, literal 4 4] [] (sint 5)) residue (sint 5), literal 0 1] [] (sint 6)
    let held : Environment := fun _ _ => -3
    Removed true scope (.prim .wrap [.ref "a" (.interval outer), .ref "b" (.interval inner)] []
        (.interval inner)) typed ∧
      typed.hardwareAt held [] = some 2 ∧ Above operand (Uncut held) typed := by
  intro sint literal outer inner scope operand residue typed held
  have whole : (Fraction.ofInt (-8)).toRat * 2 ^ 0 = ((-8 : Int) : ℚ) := by
    norm_num [Fraction.toRat, Fraction.ofInt]
  have ordered : (Fraction.ofInt 0).toRat ≤ Fraction.toRat ⟨3, 2, by decide⟩ := by
    norm_num [Fraction.toRat, Fraction.ofInt]
  have arg : LowersTo true (.ref "a" (.interval outer)) operand := ⟨_, rfl, rfl⟩
  have range : LowersTo true (.ref "b" (.interval inner)) (.ref "b" (sint 3)) := ⟨_, rfl, rfl⟩
  obtain ⟨z, _, removed, -, reduces⟩ := wrap_reduces (s := scope) (e := operand) []
    (.interval inner) rfl rfl rfl rfl arg rfl rfl range (.interval rfl rfl rfl ordered)
    (.inl ⟨-8, whole⟩)
  obtain rfl : z = typed := removed.unique ⟨_, _, rfl, rfl, rfl⟩
  have unsaturated : typed.Unsaturated := by
    simp [typed, residue, operand, literal, sint, Unsaturated, Ty.Unsaturated, Expr.ty, Ty.width,
      BitCount.limit]
  have value : operand.hardwareAt held [] = some (-3) := by decide
  obtain ⟨result, uncut⟩ :=
    reduces unsaturated held (-3) value (by decide) (by decide) (by decide)
  exact ⟨removed, result, uncut⟩

/-! ### An operand that is recorded elsewhere -/

/-- An expression holds a value by its recorded type: it is recorded at a bounded interval whose
least value is on its own grid, and becomes a signed integer of this value, which lies between the
recorded bounds. -/
structure HoldsRecorded (warn : Bool) (s : Scope) (env : Environment) (a : Expr) (t : Interval)
    (v : Int) : Prop where
  ty : a.ty = .interval t
  range : ∃ lo hi p, t.lower = .known lo ∧ t.upper = .known hi ∧ t.point = .known p ∧
    lo.toRat ≤ hi.toRat ∧ (∃ k : Int, lo.toRat * 2 ^ p.toNat = k) ∧
      lo.scaledFloor p.toNat ≤ v ∧ v ≤ hi.scaledFloor p.toNat
  value : ∃ l e w, LowersTo warn a l ∧ l.infer s = .ok e ∧ e.ty = .sint (.known w) ∧
    e.hardwareAt env [] = some v ∧ FitsSigned w.toNat v

/-- A selection between values from 0 to 1 at the points 1 and 2. It is recorded at the point 1, and
alignment leaves it at the point 2. -/
def coarse : Expr :=
  let value (p : Nat) : Ty := .interval (.of (.ofInt 0) (.ofInt 1) (.known (.ofNat p)))
  .mux (.ref "s" (.uint (.known (.ofNat 1)))) (.ref "x" (value 1)) (.ref "y" (value 2)) (value 1)

/-- The range from 0 to 1/2 at the point 1. -/
def halves : Interval := .of (.ofInt 0) (.known ⟨1, 2, by decide⟩) (.known (.ofNat 1))

/-- The lowered declarations of the selection's operands and of a name of that range. -/
def coarseScope : Scope :=
  [("s", .uint (.known (.ofNat 1))), ("x", .sint (.known (.ofNat 3))),
    ("y", .sint (.known (.ofNat 4))), ("b", .sint (.known (.ofNat 2)))]

/-- The value at the point 2 is selected, and encoded by 2. -/
def coarseHeld : Environment := fun name _ => if name = "y" then 2 else 0

theorem coarse_holdsRecorded :
    coarse.HoldsRecorded true coarseScope coarseHeld
      (.of (.ofInt 0) (.ofInt 1) (.known (.ofNat 1))) 2 := by
  refine ⟨rfl, ⟨_, _, _, rfl, rfl, rfl, ?_, ⟨0, ?_⟩, by decide, by decide⟩, ?_⟩
  · norm_num [Fraction.toRat, Fraction.ofInt]
  · norm_num [Fraction.toRat, Fraction.ofInt]
  · exact ⟨_, _, .ofNat 4, ⟨_, rfl, rfl⟩, rfl, rfl, by decide, by decide⟩

/-- The point that alignment leaves the operand at cannot be replaced by the recorded one: by the
recorded points the selection would be wrapped at the point 1, to 0, but it is wrapped at the point
2, where its encoding 2 is in the range. -/
theorem wrap_recorded_differs :
    let sint (n : Nat) : Ty := .sint (.known (.ofNat n))
    let flag : Ty := .uint (.known (.ofNat 1))
    let literal (k : Int) (n : Nat) : Expr := .sint k (.known (.ofNat n))
    let selected : Expr :=
      .mux (.ref "s" flag) (.prim .shl [.ref "x" (sint 3)] [1] (sint 4)) (.ref "y" (sint 4)) (sint 4)
    let typed : Expr :=
      .mux (.prim .gt [selected, literal 2 3] [] flag)
        (.prim .sub [selected, literal 3 3] [] (sint 5)) selected (sint 5)
    coarse.HoldsRecorded true coarseScope coarseHeld
        (.of (.ofInt 0) (.ofInt 1) (.known (.ofNat 1))) 2 ∧
      (Ty.interval halves).WrapsInto (.ofNat 1) (.ofNat 1) 0 1 ∧
      Removed true coarseScope
        (.prim .wrap [coarse, .ref "b" (.interval halves)] [] (.interval halves)) typed ∧
      typed.Unsaturated ∧ typed.hardwareAt coarseHeld [] = some 2 ∧
      typed.hardwareAt coarseHeld [] ≠ some (0 + (2 * 2 ^ (1 - 1) - 0) % (1 - 0 + 1)) := by
  intro sint flag literal selected typed
  have ordered : (Fraction.ofInt 0).toRat ≤ Fraction.toRat ⟨1, 2, by decide⟩ := by
    norm_num [Fraction.toRat, Fraction.ofInt]
  have into : (Ty.interval halves).WrapsInto (.ofNat 1) (.ofNat 1) 0 1 :=
    .interval (p := .ofNat 1) (q := .ofNat 1) rfl rfl rfl ordered
  have unsaturated : typed.Unsaturated := by
    simp [typed, selected, literal, flag, sint, Unsaturated, Ty.Unsaturated, Expr.ty, Ty.width,
      BitCount.limit]
  exact ⟨coarse_holdsRecorded, into, ⟨_, _, rfl, rfl, rfl⟩, unsaturated, by decide, by decide⟩

end Expr

end IntervalHdl
