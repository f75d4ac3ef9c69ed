import IntervalHdl.Proofs.Nodes
import IntervalHdl.Proofs.Removal.Rescaling

/-!
# A saturation is a clamp

A saturation into a range is lowered to the comparisons that the ranges of operand and target call
for, each of the moved operand with an end of the target (`Expr.removed_clip_iff` says which node
comes out). Hardware clamps into the target range, and every node on the way is wide enough. Each
comparison is there exactly if some value in the range of the moved operand is on the far side of
that end (`Expr.clip_saturates`). As for a wrap, operands count by the types that alignment leaves
them at.
-/

namespace IntervalHdl
set_option autoImplicit false

namespace SaturateAction

variable {c : RangeCheck}

/-- The decided saturation compares with the low end exactly if something comes in below it. -/
theorem low_decide_iff (nonempty : c.inLo ≤ c.inHi) :
    (decide c).sides.low = true ↔ ∃ u, c.Incoming u ∧ u < c.lo := by
  have compares : (decide c).sides.low = true ↔ c.inLo < c.lo := by
    rw [← not_le, ← RangeCheck.fitsLow_iff]
    unfold decide
    split <;> simp [sides, *]
  rw [compares]
  constructor
  · intro below
    exact ⟨c.inLo, ⟨le_refl _, nonempty⟩, below⟩
  · rintro ⟨u, ⟨above, -⟩, below⟩
    omega

/-- It compares with the high end exactly if something comes in above it. -/
theorem high_decide_iff (nonempty : c.inLo ≤ c.inHi) :
    (decide c).sides.high = true ↔ ∃ u, c.Incoming u ∧ c.hi < u := by
  have compares : (decide c).sides.high = true ↔ c.hi < c.inHi := by
    rw [← not_le, ← RangeCheck.fitsHigh_iff]
    unfold decide
    split <;> simp [sides, *]
  rw [compares]
  constructor
  · intro above
    exact ⟨c.inHi, ⟨nonempty, le_refl _⟩, above⟩
  · rintro ⟨u, ⟨-, below⟩, above⟩
    omega

end SaturateAction

namespace Expr

/-! ## The nodes of a saturation -/

/-- A typed value, compared with a number. -/
def compared (op : Operator) (x : Expr) (k : Int) : Expr :=
  .prim op [x, .minimalSInt k] [] (.uint (.known (.ofNat 1)))

/-- A typed value `y` of width `n`, replaced by a number where `x` compares so with it. -/
def clamped (op : Operator) (x : Expr) (k : Int) (y : Expr) (n : BitCount) : Expr :=
  .mux (x.compared op k) (.minimalSInt k) y (.sint (.known (max (signedWidth k) n)))

/-- The typed saturation of a value of width `n`. -/
def clampedBy (c : RangeCheck) (x : Expr) (n : BitCount) : SaturateAction → Expr
  | .passThrough => x
  | .clampLow => x.clamped .lt c.lo x n
  | .clampHigh => x.clamped .gt c.hi x n
  | .clampBoth => x.clamped .gt c.hi (x.clamped .lt c.lo x n) (max (signedWidth c.lo) n)

section Nodes

variable {op : Operator} {x y : Expr} {k : Int} {n : BitCount}

/-- A comparison of a value is not inside the value. -/
theorem compared_not_mem (op : Operator) (x : Expr) (k : Int) : x.compared op k ∉ x.nodes := by
  intro present
  have shorter := length_nodes_le_of_mem present
  simp only [compared, nodes, allNodes, List.length_append, List.length_singleton] at shorter
  omega

/-- The comparisons of a value in a clamp of it are the one of the clamp and those inside. -/
theorem compared_mem_clamped_iff {op' : Operator} {k' : Int} :
    x.compared op k ∈ (x.clamped op' k' y n).nodes ↔
      (op = op' ∧ k = k') ∨ x.compared op k ∈ y.nodes := by
  have outside := compared_not_mem op x k
  have literal : x.compared op k ≠ .minimalSInt k' := nofun
  have clamp : x.compared op k ≠ x.clamped op' k' y n := nofun
  have same : x.compared op k = x.compared op' k' ↔ op = op' ∧ k = k' := by
    constructor
    · intro equal
      cases equal
      exact ⟨rfl, rfl⟩
    · rintro ⟨rfl, rfl⟩
      rfl
  have split : (x.clamped op' k' y n).nodes
      = x.nodes ++ [.minimalSInt k', x.compared op' k', .minimalSInt k'] ++ y.nodes
        ++ [x.clamped op' k' y n] := by
    simp [clamped, compared, minimalSInt, nodes, allNodes]
  rw [split]
  simp [outside, literal, clamp, same]

/-- The comparison with the low end is there exactly if the action compares on that side. -/
theorem low_mem_nodes_iff (c : RangeCheck) (x : Expr) (n : BitCount) (action : SaturateAction) :
    x.compared .lt c.lo ∈ (x.clampedBy c n action).nodes ↔ action.sides.low = true := by
  cases action <;>
    simp [clampedBy, compared_mem_clamped_iff, compared_not_mem, SaturateAction.sides]

/-- The comparison with the high end is there exactly if the action compares on that side. -/
theorem high_mem_nodes_iff (c : RangeCheck) (x : Expr) (n : BitCount) (action : SaturateAction) :
    x.compared .gt c.hi ∈ (x.clampedBy c n action).nodes ↔ action.sides.high = true := by
  cases action <;>
    simp [clampedBy, compared_mem_clamped_iff, compared_not_mem, SaturateAction.sides]

end Nodes

section Typed

variable {s : Scope} {op : Operator} {l m x y : Expr} {k : Int} {n w : BitCount}

theorem infer_minimalSInt (s : Scope) (k : Int) :
    (minimalSInt k).infer s = .ok (.minimalSInt k) :=
  infer_eq_ok_iff.mpr ⟨_, .sint k _, rfl⟩

/-- A comparison with a literal is typed as a flag. -/
theorem infer_compared (kind : op = .lt ∨ op = .gt) (typed : l.infer s = .ok x)
    (signed : x.ty = .sint (.known w)) (k : Int) :
    (untyped op [l, .minimalSInt k] []).infer s = .ok (x.compared op k) := by
  apply infer_prim_eq_ok_iff.mpr
  refine ⟨_, _, .cons typed (.cons (infer_minimalSInt s k) .nil), ?_, rfl⟩
  rcases kind with rfl | rfl <;>
    simp only [Operator.resultTy, Operator.binary, signed] <;>
    rfl

/-- A clamp against a literal is typed at the wider of the literal and the other branch. -/
theorem infer_clamped (kind : op = .lt ∨ op = .gt) (typed : l.infer s = .ok x)
    (signed : x.ty = .sint (.known w)) (k : Int) (inner : m.infer s = .ok y)
    (innerTy : y.ty = .sint (.known n)) :
    (select (.untyped op [l, .minimalSInt k] []) (.minimalSInt k) m).infer s
      = .ok (x.clamped op k y n) := by
  apply infer_eq_ok_iff.mpr
  refine ⟨_, .mux .unknown (infer_compared kind typed signed k) (infer_minimalSInt s k) inner, ?_⟩
  have literalTy : (minimalSInt k).ty = .sint (.known (signedWidth k)) := rfl
  have flagTy : (x.compared op k).ty = .uint (.known (.ofNat 1)) := rfl
  simp only [inferNode, flagTy, literalTy, innerTy, muxTy]
  rfl

/-- Inference gives a saturation the typed form. -/
theorem infer_saturated (c : RangeCheck) (typed : l.infer s = .ok x)
    (signed : x.ty = .sint (.known n)) (action : SaturateAction) :
    (saturated c l action).infer s = .ok (x.clampedBy c n action) := by
  have low := infer_clamped (.inl rfl) typed signed c.lo typed signed
  cases action with
  | passThrough => exact typed
  | clampLow => exact low
  | clampHigh => exact infer_clamped (.inr rfl) typed signed c.hi typed signed
  | clampBoth => exact infer_clamped (.inr rfl) typed signed c.hi low rfl

end Typed

/-! ## What is computed -/

section Exact

variable {env : Environment} {x y : Expr} {op : Operator} {flag : Bool} {k u v : Int}
  {n : BitCount}

/-- A comparison computes its flag. -/
theorem exactAt_compared (kind : op = .lt ∨ op = .gt) (value : x.exactAt env [] = some v)
    (compares : op.compares v k = some flag) :
    (x.compared op k).exactAt env [] = some (flagValue flag) := by
  have literal : (minimalSInt k).exactAt env [] = some k := rfl
  refine valueAt_prim (r := .unsigned) (.cons value (.cons literal .nil)) ?_
  rcases kind with rfl | rfl <;> cases compares <;> rfl

/-- A clamp computes the literal where the comparison holds, and the other branch elsewhere. -/
theorem exactAt_clamped (kind : op = .lt ∨ op = .gt) (value : x.exactAt env [] = some v)
    (compares : op.compares v k = some flag) (inner : y.exactAt env [] = some u) :
    (x.clamped op k y n).exactAt env [] = some (if flag then k else u) := by
  have cond := exactAt_compared kind value compares
  have literal : (minimalSInt k).exactAt env [] = some k := rfl
  have found : (Ty.sint (.known (max (signedWidth k) n))).leaf? []
      = some (.sint (.known (max (signedWidth k) n))) := rfl
  simp only [clamped, exactAt, valueAt, found, cond, literal, inner, Option.bind_eq_bind,
    Option.bind_some]
  cases flag <;> rfl

/-- A saturation computes what its action applies. -/
theorem exactAt_clampedBy (value : x.exactAt env [] = some v) (c : RangeCheck) (n : BitCount)
    (action : SaturateAction) :
    (x.clampedBy c n action).exactAt env [] = some (action.apply c v) := by
  have low := exactAt_clamped (n := n) (.inl rfl) value (k := c.lo) rfl value
  have high {y : Expr} {m : BitCount} {u : Int} (inner : y.exactAt env [] = some u) :
      (x.clamped .gt c.hi y m).exactAt env [] = some (if c.hi < v then c.hi else u) := by
    have clamp := exactAt_clamped (n := m) (.inr rfl) value (k := c.hi) rfl inner
    simp only [decide_eq_true_eq] at clamp
    exact clamp
  simp only [decide_eq_true_eq] at low
  cases action with
  | passThrough => exact value
  | clampLow => exact low
  | clampHigh => exact high value
  | clampBoth => exact high low

end Exact

namespace Delivers

variable {env : Environment} {operand x y : Expr} {op : Operator} {flag : Bool} {k u v : Int}
  {n : BitCount}

/-- A literal of least width delivers its number, if that is representable. -/
theorem minimalSInt (representable : Representable k) :
    Delivers env operand (.minimalSInt k) k :=
  .literal ((fitsSigned_signedBits k).cut representable)

/-- A comparison delivers its flag. -/
theorem compared (kind : op = .lt ∨ op = .gt) (arg : Delivers env operand x v)
    (representable : Representable k) (compares : op.compares v k = some flag) :
    Delivers env operand (x.compared op k) (flagValue flag) := by
  refine .prim (r := .unsigned) (.cons arg (.cons (.minimalSInt representable) .nil)) ?_
    (fitsUnsigned_flagValue flag)
  rcases kind with rfl | rfl <;> cases compares <;> rfl

/-- A clamp delivers the literal where the comparison holds, and the other branch elsewhere. -/
theorem clamped (kind : op = .lt ∨ op = .gt) (arg : Delivers env operand x v)
    (representable : Representable k) (compares : op.compares v k = some flag)
    (inner : Delivers env operand y u) (innerTy : y.ty = .sint (.known n)) :
    Delivers env operand (x.clamped op k y n) (if flag then k else u) := by
  have selected := (arg.compared kind representable compares).select
    (.minimalSInt representable) inner rfl innerTy
  cases flag
  · exact selected
  · exact selected

/-- A saturation computes what its action applies, if the ends that it compares with are
representable. -/
theorem clampedBy (arg : Delivers env operand x v) (signed : x.ty = .sint (.known n))
    (c : RangeCheck) (action : SaturateAction)
    (low : action.sides.low = true → Representable c.lo)
    (high : action.sides.high = true → Representable c.hi) :
    Delivers env operand (x.clampedBy c n action) (action.apply c v) := by
  have lowClamp (representable : Representable c.lo) :
      Delivers env operand (x.clamped .lt c.lo x n) (if v < c.lo then c.lo else v) := by
    have clamp := arg.clamped (.inl rfl) representable rfl arg signed
    simp only [decide_eq_true_eq] at clamp
    exact clamp
  have highClamp {y : Expr} {m : BitCount} {u : Int} (representable : Representable c.hi)
      (inner : Delivers env operand y u) (innerTy : y.ty = .sint (.known m)) :
      Delivers env operand (x.clamped .gt c.hi y m) (if c.hi < v then c.hi else u) := by
    have clamp := arg.clamped (.inr rfl) representable rfl inner innerTy
    simp only [decide_eq_true_eq] at clamp
    exact clamp
  cases action with
  | passThrough => exact arg
  | clampLow => exact lowClamp (low rfl)
  | clampHigh => exact highClamp (high rfl) arg signed
  | clampBoth => exact highClamp (high rfl) (lowClamp (low rfl)) rfl

end Delivers

end Expr

/-! ## What the stages make of a saturation -/

/-- The check of a value with the bounds `lo` and `hi` against the bounds `least` and `greatest`, all
rounded down at the point. -/
def RangeCheck.rounded (q : BitCount) (least greatest lo hi : Fraction) : RangeCheck :=
  ⟨least.scaledFloor q.toNat, greatest.scaledFloor q.toNat, lo.scaledFloor q.toNat,
    hi.scaledFloor q.toNat⟩

namespace Expr

section Stages

variable {warn : Bool} {s : Scope} {a b l e z : Expr} {t T : Interval}
  {lo hi least greatest : Fraction} {p q w : BitCount}

/-- A saturation passes the stages exactly if its second operand does, which is then dropped. -/
theorem removed_clip_iff (consts : List Int) (recorded : a.alignedTy = .interval t)
    (lower : t.lower = .known lo) (upper : t.upper = .known hi) (point : t.point = .known p)
    (arg : LowersTo warn a l) (typed : l.infer s = .ok e) (signed : e.ty = .sint (.known w))
    (bound : b.alignedTy.HasPoint q) (targetLower : T.lower = .known least)
    (targetUpper : T.upper = .known greatest) :
    let c := RangeCheck.rounded (max p q) least greatest lo hi
    Removed warn s (.prim .clip [a, b] consts (.interval T)) z ↔
      (∃ lb, LowersTo warn b lb) ∧
        z = (e.shifted w p (max p q)).clampedBy c (movedWidth p (max p q) w) (.decide c) := by
  intro c
  obtain ⟨a', argAligned, argLowered⟩ := arg
  have argTy : a'.ty = .interval t := (ty_of_align argAligned).trans recorded
  have atPoint : a'.ty.HasPoint p := ⟨t, argTy, point⟩
  have aligns {b' : Expr} (boundAligned : b.align.outcome = .ok b') :
      ∃ a'' b'', (Expr.prim .clip [a, b] consts (.interval T)).align.outcome
          = .ok (.prim .clip [a'', b''] consts (.interval (T.atPoint (max p q)))) ∧
        Rescaled (max p q) a' a'' ∧ Rescaled (max p q) b' b'' := by
    rw [← ty_of_align boundAligned] at bound
    obtain ⟨a'', b'', aligned, argMoved, boundMoved⟩ :=
      meet_nodeAligned .clip rfl consts (.interval T) atPoint bound
    refine ⟨a'', b'', align_prim_eq_ok_iff.mpr ⟨_, ?_, aligned⟩, argMoved, boundMoved⟩
    exact .cons argAligned (.cons boundAligned .nil)
  have passes {lb : Expr} (range : LowersTo warn b lb) :
      Removed warn s (.prim .clip [a, b] consts (.interval T))
        ((e.shifted w p (max p q)).clampedBy c (movedWidth p (max p q) w) (.decide c)) := by
    obtain ⟨b', boundAligned, boundLowered⟩ := range
    obtain ⟨a'', b'', aligned, argMoved, boundMoved⟩ := aligns boundAligned
    obtain ⟨lb', boundLowered'⟩ := boundMoved.lowers boundLowered
    obtain ⟨la, argLowered', argTyped⟩ := argMoved.typed atPoint argLowered typed signed
    obtain ⟨t', argTy', ends⟩ := argMoved.encodings argTy lower upper
    have target : (Ty.interval (T.atPoint (max p q))).clipRange = .ok (c.lo, c.hi) :=
      Interval.resolved_eq_ok_iff.mpr
        (Interval.encodings?_eq_of_bounds targetLower targetUpper rfl)
    have incoming : Operator.clip.operandRange a''.ty = .ok (c.inLo, c.inHi) :=
      Operator.operandRange_eq_ok_iff.mpr ⟨t', argTy', ends⟩
    have operands : List.Forall₂
        (fun e (o : Operand) => (e.lower warn).outcome = .ok o.value ∧ o.recorded = e.ty)
        [a'', b''] [⟨la, a''.ty⟩, ⟨lb', b''.ty⟩] :=
      .cons ⟨argLowered', rfl⟩ (.cons ⟨boundLowered', rfl⟩ .nil)
    have lowered : ((Expr.prim .clip [a'', b''] consts (.interval (T.atPoint (max p q)))).lower
        warn).outcome = .ok (.saturated c la (.decide c)) := by
      refine lower_prim_eq_ok_iff.mpr ⟨_, operands, ?_⟩
      exact Operand.lowerClip_eq_ok_iff.mpr ⟨_, _, _, _, _, _, rfl, target, incoming, rfl⟩
    refine ⟨_, _, aligned, lowered, ?_⟩
    exact infer_saturated c argTyped (ty_shifted signed p (max p q)) (.decide c)
  constructor
  · intro removed
    obtain ⟨_, _, aligned, lowered, -⟩ := id removed
    obtain ⟨_, each, -⟩ := align_prim_eq_ok_iff.mp aligned
    obtain ⟨_, b', -, boundAligned, rfl⟩ := pair_of_forall₂ each
    obtain ⟨a'', b'', aligned', -, boundMoved⟩ := aligns boundAligned
    cases aligned.symm.trans aligned'
    obtain ⟨_, operands, -⟩ := lower_prim_eq_ok_iff.mp lowered
    obtain ⟨_, o, -, ⟨boundLowered, -⟩, -⟩ := pair_of_forall₂ operands
    obtain ⟨lb, boundLowered'⟩ := boundMoved.lowers_iff.mp ⟨o.value, boundLowered⟩
    have range : LowersTo warn b lb := ⟨b', boundAligned, boundLowered'⟩
    exact ⟨⟨lb, range⟩, removed.unique (passes range)⟩
  · rintro ⟨⟨lb, range⟩, rfl⟩
    exact passes range

end Stages

/-- A saturation after alignment, lowering and inference is a clamp, with no comparison that is not
needed. Let alignment leave the operand at a bounded interval type and the second operand at an
interval at some point, which are the recorded types if every node of the operands is settled
(`alignedTy_of_settled`), and let the operand be lowered to a signed integer. Then the stages
succeed exactly if they accept the second operand. What they give compares with the low end of the
target exactly if some value in the range of the moved operand is below it, and likewise with the
high end. It computes the moved value clamped into the target. Hardware does the same and cuts no
node that is formed over the operand to its width, as long as the moved value and the ends that it
is compared with are representable at all. The recorded types of other operands would not do
(`clip_recorded_differs`). -/
theorem clip_saturates {warn : Bool} {s : Scope} {a b l e : Expr} {t T : Interval}
    {lo hi least greatest : Fraction} {p r w : BitCount} (consts : List Int)
    (recorded : a.alignedTy = .interval t) (lower : t.lower = .known lo)
    (upper : t.upper = .known hi) (ordered : lo.toRat ≤ hi.toRat) (point : t.point = .known p)
    (arg : LowersTo warn a l) (typed : l.infer s = .ok e) (signed : e.ty = .sint (.known w))
    (bound : b.alignedTy.HasPoint r) (targetLower : T.lower = .known least)
    (targetUpper : T.upper = .known greatest) (targetOrdered : least.toRat ≤ greatest.toRat)
    (whole : (∃ k : Int, lo.toRat * 2 ^ p.toNat = k) ∨ max p r = p) :
    let clip : Expr := .prim .clip [a, b] consts (.interval T)
    let q := max p r
    let x := e.shifted w p q
    let c := RangeCheck.rounded q least greatest lo hi
    ((∃ z, Removed warn s clip z) ↔ ∃ lb, LowersTo warn b lb) ∧
      ∀ z, Removed warn s clip z →
        (x.compared .lt c.lo ∈ z.nodes ↔ ∃ u, c.Incoming u ∧ u < c.lo) ∧
        (x.compared .gt c.hi ∈ z.nodes ↔ ∃ u, c.Incoming u ∧ c.hi < u) ∧
        ∀ env v, lo.scaledFloor p.toNat ≤ v → v ≤ hi.scaledFloor p.toNat →
          let moved := v * 2 ^ (q.toNat - p.toNat)
          (e.exactAt env [] = some v →
            z.exactAt env [] = some (min (max moved c.lo) c.hi)) ∧
          (e.hardwareAt env [] = some v → FitsSigned w.toNat v → Representable moved →
            (x.compared .lt c.lo ∈ z.nodes → Representable c.lo) →
            (x.compared .gt c.hi ∈ z.nodes → Representable c.hi) →
            z.hardwareAt env [] = some (min (max moved c.lo) c.hi) ∧ Above e (Uncut env) z) := by
  intro clip q x c
  have removed (z : Expr) : Removed warn s clip z ↔ (∃ lb, LowersTo warn b lb) ∧
      z = x.clampedBy c (movedWidth p q w) (.decide c) :=
    removed_clip_iff consts recorded lower upper point arg typed signed bound targetLower targetUpper
  have nonempty : c.inLo ≤ c.inHi := Fraction.scaledFloor_le_scaledFloor ordered _
  have target : c.lo ≤ c.hi := Fraction.scaledFloor_le_scaledFloor targetOrdered _
  refine ⟨⟨?_, ?_⟩, ?_⟩
  · rintro ⟨z, done⟩
    exact ((removed z).mp done).1
  · intro range
    exact ⟨_, (removed _).mpr ⟨range, rfl⟩⟩
  intro z done
  obtain ⟨-, rfl⟩ := (removed z).mp done
  rw [low_mem_nodes_iff, high_mem_nodes_iff]
  refine ⟨SaturateAction.low_decide_iff nonempty, SaturateAction.high_decide_iff nonempty, ?_⟩
  intro env v inLow inHigh moved
  have finer : p ≤ q := BitCount.le_max_left p r
  have encoding : movedEncoding p q v = moved := movedEncoding_of_le finer
  obtain ⟨movedLow, movedHigh⟩ := between_at_finer finer whole inLow inHigh
  have clamp : (SaturateAction.decide c).apply c moved = min (max moved c.lo) c.hi := by
    rw [SaturateAction.apply_decide target movedLow movedHigh]
    omega
  rw [← clamp]
  constructor
  · intro value
    have exact := exactAt_shifted value w p q
    rw [encoding] at exact
    exact exactAt_clampedBy exact c _ (.decide c)
  · intro value fits representable lowEnd highEnd
    have holds : e.ty.Holds v := by
      rw [signed]
      exact fits
    rw [← encoding] at representable ⊢
    have operand : Delivers env e x (movedEncoding p q v) :=
      Delivers.shifted ⟨value, holds, .operand⟩ signed representable
    have result := operand.clampedBy (ty_shifted signed p q) c (.decide c) lowEnd highEnd
    exact ⟨result.value, result.uncut⟩

/-- An integer from -8 to 7 is clamped into the halves from -1/2 to 3, which takes both comparisons:
six halves below zero become one. -/
theorem clip_saturates_halves :
    let sint (n : Nat) : Ty := .sint (.known (.ofNat n))
    let outer : Interval := .of (.ofInt (-8)) (.ofInt 7) (.known (.ofNat 0))
    let inner : Interval := .of (.known ⟨-1, 2, by decide⟩) (.ofInt 3) (.known (.ofNat 1))
    let scope : Scope := [("a", sint 4), ("b", sint 4)]
    let operand : Expr := .ref "a" (sint 4)
    let moved : Expr := .prim .shl [operand] [1] (sint 5)
    let low : Expr := moved.compared .lt (-1)
    let high : Expr := moved.compared .gt 6
    let typed : Expr :=
      .mux high (.minimalSInt 6) (.mux low (.minimalSInt (-1)) moved (sint 5)) (sint 5)
    let held : Environment := fun _ _ => -3
    Removed true scope (.prim .clip [.ref "a" (.interval outer), .ref "b" (.interval inner)] []
        (.interval inner)) typed ∧
      low ∈ typed.nodes ∧ high ∈ typed.nodes ∧
      typed.hardwareAt held [] = some (-1) ∧ Above operand (Uncut held) typed := by
  intro sint outer inner scope operand moved low high typed held
  have whole : (Fraction.ofInt (-8)).toRat * 2 ^ 0 = ((-8 : Int) : ℚ) := by
    norm_num [Fraction.toRat, Fraction.ofInt]
  have ordered : (Fraction.ofInt (-8)).toRat ≤ (Fraction.ofInt 7).toRat := by
    norm_num [Fraction.toRat, Fraction.ofInt]
  have targetOrdered : Fraction.toRat ⟨-1, 2, by decide⟩ ≤ (Fraction.ofInt 3).toRat := by
    norm_num [Fraction.toRat, Fraction.ofInt]
  have arg : LowersTo true (.ref "a" (.interval outer)) operand := ⟨_, rfl, rfl⟩
  have range : LowersTo true (.ref "b" (.interval inner)) (.ref "b" (sint 4)) := ⟨_, rfl, rfl⟩
  have bound : (Expr.ref "b" (.interval inner)).alignedTy.HasPoint (.ofNat 1) := ⟨inner, rfl, rfl⟩
  obtain ⟨passes, clamps⟩ := clip_saturates (s := scope) (e := operand) (T := inner) [] rfl rfl rfl
    ordered rfl arg rfl rfl bound rfl rfl targetOrdered (.inl ⟨-8, whole⟩)
  obtain ⟨z, removed⟩ := passes.mpr ⟨_, range⟩
  obtain ⟨lowIff, highIff, values⟩ := clamps z removed
  obtain rfl : z = typed := removed.unique ⟨_, _, rfl, rfl, rfl⟩
  have value : operand.hardwareAt held [] = some (-3) := by decide
  have representable {k : Int} (fits : FitsSigned (BitCount.ofNat 5).toNat k) : Representable k :=
    fits.representable
  obtain ⟨-, computes⟩ := values held (-3) (by decide) (by decide)
  obtain ⟨result, uncut⟩ := computes value (by decide) (representable (by decide))
    (fun _ => representable (by decide)) (fun _ => representable (by decide))
  have below : low ∈ typed.nodes := lowIff.mpr ⟨-16, ⟨by decide, by decide⟩, by decide⟩
  have above : high ∈ typed.nodes := highIff.mpr ⟨14, ⟨by decide, by decide⟩, by decide⟩
  exact ⟨removed, below, above, result, uncut⟩

/-- Here too the recorded point does not do: by the recorded points the selection would be clamped at
the point 1, to 1, but it is clamped at the point 2, where its encoding 2 is in the target. -/
theorem clip_recorded_differs :
    let sint (n : Nat) : Ty := .sint (.known (.ofNat n))
    let selected : Expr := .mux (.ref "s" (.uint (.known (.ofNat 1))))
      (.prim .shl [.ref "x" (sint 3)] [1] (sint 4)) (.ref "y" (sint 4)) (sint 4)
    let typed : Expr :=
      .mux (selected.compared .gt 2) (.minimalSInt 2) selected (sint 4)
    coarse.HoldsRecorded true coarseScope coarseHeld
        (.of (.ofInt 0) (.ofInt 1) (.known (.ofNat 1))) 2 ∧
      (Ty.interval halves).HasPoint (.ofNat 1) ∧ halves.encodings? = some (0, 1) ∧
      Removed true coarseScope
        (.prim .clip [coarse, .ref "b" (.interval halves)] [] (.interval halves)) typed ∧
      typed.hardwareAt coarseHeld [] = some 2 ∧
      typed.hardwareAt coarseHeld [] ≠ some (min (max (2 * 2 ^ (1 - 1)) 0) 1) := by
  intro sint selected typed
  exact ⟨coarse_holdsRecorded, ⟨halves, rfl, rfl⟩, rfl, ⟨_, _, rfl, rfl, rfl⟩, by decide, by decide⟩

end Expr

end IntervalHdl
