import IntervalHdl.Proofs.Removal.SettledWidths

/-!
# What lowering forms over an operand

A wrap is lowered to nodes over the lowered operand, which may be any expression. Nothing is asked
of the inside of the operand here: `Expr.FormedOver` says what hardware makes of the formed nodes in
terms of the value of the operand, and that each of them computes a number that its inferred width
holds, so that none is cut.
-/

namespace IntervalHdl
set_option autoImplicit false

namespace Expr

/-- The property holds at every node from the root down to the occurrences of an operand. -/
inductive Above (operand : Expr) (P : Expr → Prop) : Expr → Prop where
  | operand : Above operand P operand
  | node {x : Expr} (here : P x) (inside : ∀ child ∈ x.children, Above operand P child) :
    Above operand P x

/-- What a node computes over the hardware values of its operands, before it is cut to its width.
Names and components compute nothing. -/
def ownResult? (env : Environment) : Expr → Option Int
  | .uint value _ | .sint value _ => some value
  | .prim op args consts ty => do
    let vals ← values Ty.fit env args
    op.value? (fun _ v => v) (args.map Expr.ty) vals consts ty
  | .mux cond tval fval _ => do
    let c ← cond.hardwareAt env []
    let t ← tval.hardwareAt env []
    let f ← fval.hardwareAt env []
    return if c = 0 then f else t
  | .ref _ _ | .field _ _ _ | .index _ _ _ => none

/-- The inferred width of the node holds what it computes. -/
def Uncut (env : Environment) (x : Expr) : Prop :=
  ∃ (r : Signedness) (n : BitCount) (v : Int),
    x.ty = r.ty (.known n) ∧ x.ownResult? env = some v ∧ r.Fits n.toNat v

/-- Hardware evaluates the expression to the number, which its type holds, and cuts nothing on the
way from the operand. -/
structure Delivers (env : Environment) (operand x : Expr) (v : Int) : Prop where
  value : x.hardwareAt env [] = some v
  holds : x.ty.Holds v
  uncut : Above operand (Uncut env) x

/-- Over an operand whose type holds its value, inference gives the expression the type, and unless
some width is cut off at the greatest bit count, hardware evaluates it to the function of the value
and cuts nothing. -/
def FormedOver (s : Scope) (operand x : Expr) (ty : Ty) (f : Int → Int) : Prop :=
  ∃ x', x.infer s = .ok x' ∧ x'.ty = ty ∧
    ∀ env v, operand.hardwareAt env [] = some v → operand.ty.Holds v → x'.Unsaturated →
      Delivers env operand x' (f v)

end Expr

/-- A number that the type holds is what an operator gives in hardware, too. -/
theorem Operator.value?_fit {op : Operator} {tys : List Ty} {vals consts : List Int} {ty : Ty}
    {v : Int} (value : op.value? (fun _ v => v) tys vals consts ty = some v) (holds : ty.Holds v) :
    op.value? Ty.fit tys vals consts ty = some v := by
  unfold value? at value ⊢
  split at value
  · rename_i arithmetic
    have computed : op.arithmetic? vals consts ty = some v := by simpa using value
    rw [if_pos arithmetic, computed, Option.map_some, Ty.fit_of_holds holds]
  · rename_i bits
    rw [if_neg bits, value]

namespace Expr

namespace Delivers

variable {env : Environment} {operand c t f : Expr} {m n : BitCount} {k x y v : Int}

/-- A literal delivers its value if it has the bits for it. -/
theorem literal (fits : FitsSigned n.toNat k) :
    Delivers env operand (.sint k (.known n)) k where
  value := congrArg some (Ty.fit_of_holds (t := .sint (.known n)) fits)
  holds := fits
  uncut := .node ⟨.signed, n, k, rfl, rfl, fits⟩ fun _ present => by cases present

/-- An operator delivers its result if the type that it is given holds it. -/
theorem prim {op : Operator} {args : List Expr} {vals consts : List Int} {r : Signedness}
    (each : List.Forall₂ (Delivers env operand) args vals)
    (value : op.value? (fun _ v => v) (args.map Expr.ty) vals consts (r.ty (.known n)) = some v)
    (fits : r.Fits n.toNat v) :
    Delivers env operand (.prim op args consts (r.ty (.known n))) v := by
  have operands := each.imp fun _ _ delivers => delivers.value
  have holds : (r.ty (.known n)).Holds v := Ty.holds_known_iff.mpr fits
  refine ⟨valueAt_prim operands (Operator.value?_fit value holds), holds, .node ?_ ?_⟩
  · refine ⟨r, n, v, rfl, ?_, fits⟩
    simp only [ownResult?, values_of_forall₂ operands, Option.bind_eq_bind, Option.bind_some]
    exact value
  · intro child present
    obtain ⟨_, _, delivers⟩ := mem_exists_of_forall₂ each present
    exact delivers.uncut

/-- A selection delivers the branch that its condition names. -/
theorem select (cond : Delivers env operand c k) (left : Delivers env operand t x)
    (right : Delivers env operand f y) (leftTy : t.ty = .sint (.known m))
    (rightTy : f.ty = .sint (.known n)) :
    Delivers env operand (.mux c t f (.sint (.known (max m n)))) (if k = 0 then y else x) := by
  have leftFits := left.holds
  have rightFits := right.holds
  rw [leftTy] at leftFits
  rw [rightTy] at rightFits
  have fits : FitsSigned (max m n).toNat (if k = 0 then y else x) := by
    rw [BitCount.toNat_max]
    split
    · exact rightFits.mono (Nat.le_max_right _ _)
    · exact leftFits.mono (Nat.le_max_left _ _)
  have found : (Ty.sint (.known (max m n))).leaf? [] = some (.sint (.known (max m n))) := rfl
  refine ⟨?_, fits, .node ⟨.signed, _, _, rfl, ?_, fits⟩ ?_⟩
  · simp only [hardwareAt, valueAt, found, cond.value, left.value, right.value,
      Option.bind_eq_bind, Option.bind_some]
    exact congrArg some (Ty.fit_of_holds (t := .sint (.known (max m n))) fits)
  · simp only [ownResult?, cond.value, left.value, right.value, Option.bind_eq_bind,
      Option.bind_some]
    rfl
  · simp only [children, List.forall_mem_cons]
    exact ⟨cond.uncut, left.uncut, right.uncut, List.forall_mem_nil _⟩

end Delivers

/-- The lowered operand is formed over its own typed form. -/
theorem FormedOver.operand {s : Scope} {l e : Expr} (typed : l.infer s = .ok e) :
    FormedOver s e l e.ty id :=
  ⟨e, typed, rfl, fun _ _ value holds _ => ⟨value, holds, .operand⟩⟩

namespace FormedOver

variable {s : Scope} {operand a b c : Expr} {recorded : Ty} {m n : BitCount} {f g h : Int → Int}

/-- An operator of one formed operand is formed where its rule types it and its result fits. -/
theorem unary {op : Operator} {consts : List Int} {p r : Signedness} {k : Int → Int}
    (arg : FormedOver s operand a (p.ty (.known m)) f)
    (typed : ∀ a' : Expr, a'.ty = p.ty (.known m) →
      op.resultTy [a'] consts = .ok (r.ty (.known n)))
    (value : ∀ x, op.value? (fun _ v => v) [p.ty (.known m)] [x] consts (r.ty (.known n))
      = some (k x))
    (fits : n.toNat < BitCount.limit → ∀ x, p.Fits m.toNat x → r.Fits n.toNat (k x)) :
    FormedOver s operand (.prim op [a] consts recorded) (r.ty (.known n)) fun v => k (f v) := by
  obtain ⟨a', argTyped, argTy, delivers⟩ := arg
  refine ⟨.prim op [a'] consts (r.ty (.known n)), ?_, rfl, ?_⟩
  · exact infer_prim_eq_ok_iff.mpr ⟨_, _, .cons argTyped .nil, typed a' argTy, rfl⟩
  · intro env v operandValue operandHolds unsaturated
    obtain ⟨own, inside⟩ := unsaturated_iff.mp unsaturated
    have arg := delivers env v operandValue operandHolds (inside a' List.mem_cons_self)
    have holds := arg.holds
    rw [argTy, Ty.holds_known_iff] at holds
    have narrow : n.toNat < BitCount.limit := own n (by cases r <;> rfl)
    refine .prim (.cons arg .nil) ?_ (fits narrow _ holds)
    rw [List.map_cons, List.map_nil, argTy]
    exact value (f v)

/-- An operator of two formed operands is formed where its rule types it and its result fits. -/
theorem binary {op : Operator} {r : Signedness} {k : Int → Int → Int}
    (left : FormedOver s operand a (.sint (.known m)) f)
    (right : FormedOver s operand b (.sint (.known n)) g) {w : BitCount}
    (typed : ∀ a' b' : Expr, a'.ty = .sint (.known m) → b'.ty = .sint (.known n) →
      op.resultTy [a', b'] [] = .ok (r.ty (.known w)))
    (arithmetic : op.isArithmetic (r.ty (.known w)) = true)
    (value : ∀ x y, op.arithmetic? [x, y] [] (r.ty (.known w)) = some (k x y))
    (uncut : w.toNat < BitCount.limit →
      op.uncutWidth [.sint (.known m), .sint (.known n)] [] ≤ BitCount.limit)
    (divisor : op = .rem → ∀ v, g v ≠ 0) :
    FormedOver s operand (.prim op [a, b] [] recorded) (r.ty (.known w))
      fun v => k (f v) (g v) := by
  obtain ⟨a', leftTyped, leftTy, leftDelivers⟩ := left
  obtain ⟨b', rightTyped, rightTy, rightDelivers⟩ := right
  have result := typed a' b' leftTy rightTy
  refine ⟨.prim op [a', b'] [] (r.ty (.known w)), ?_, rfl, ?_⟩
  · exact infer_prim_eq_ok_iff.mpr ⟨_, _, .cons leftTyped (.cons rightTyped .nil), result, rfl⟩
  · intro env v operandValue operandHolds unsaturated
    obtain ⟨own, inside⟩ := unsaturated_iff.mp unsaturated
    have left := leftDelivers env v operandValue operandHolds (inside a' (by simp [children]))
    have right := rightDelivers env v operandValue operandHolds (inside b' (by simp [children]))
    have narrow : w.toNat < BitCount.limit := own w (by cases r <;> rfl)
    have sized {e : Expr} {n : BitCount} (ty : e.ty = .sint (.known n)) : e.ty.IsSized := by
      rw [ty]
      rintro (_ | _) _ ⟨⟩
      exact ⟨n, rfl⟩
    have operands : Operator.Operands [a', b'] [f v, g v] :=
      .cons ⟨sized leftTy, left.holds⟩ (.cons ⟨sized rightTy, right.holds⟩ .nil)
    obtain ⟨_, computed, holds⟩ := Operator.holds_of_resultTy result arithmetic
      (by simpa only [List.map_cons, List.map_nil, leftTy, rightTy] using uncut narrow)
      (fun isRem _ _ same => by cases same; exact divisor isRem v) operands
    cases (value _ _).symm.trans computed
    refine .prim (.cons left (.cons right .nil)) ?_ (Ty.holds_known_iff.mp holds)
    simp only [Operator.value?, if_pos arithmetic, value, Option.map_some]

theorem literal (s : Scope) (operand : Expr) (k : Int) :
    FormedOver s operand (.minimalSInt k) (.sint (.known (signedWidth k))) fun _ => k := by
  refine ⟨.minimalSInt k, infer_eq_ok_iff.mpr ⟨_, .sint k _, rfl⟩, rfl, ?_⟩
  intro env v _ _ unsaturated
  have width : (signedWidth k).toNat = signedBits k :=
    BitCount.toNat_ofNat_of_lt (Ty.unsaturated_sint_iff.mp unsaturated.here)
  exact .literal (width ▸ fitsSigned_signedBits k)

/-- A sum is as wide as its typing rule says, if the width was not cut off. -/
theorem succ_max_le_limit (narrow : (max m n + .ofNat 1).toNat < BitCount.limit) :
    max m.toNat n.toNat + 1 ≤ BitCount.limit := by
  have width := BitCount.toNat_add_of_lt narrow
  rw [BitCount.toNat_max, BitCount.toNat_ofNat_one] at width
  omega

section Signed

variable (left : FormedOver s operand a (.sint (.known m)) f)
  (right : FormedOver s operand b (.sint (.known n)) g)
include left right

/-- A sum is formed with room for the carry. -/
theorem add : FormedOver s operand (.plus a b) (.sint (.known (max m n + .ofNat 1)))
    fun v => f v + g v := by
  refine left.binary (r := .signed) right (fun a' b' aTy bTy => ?_) rfl (fun _ _ => rfl)
    succ_max_le_limit nofun
  simp only [Operator.resultTy, Operator.binary, aTy, bTy]
  rfl

/-- A difference is formed with room for the borrow. -/
theorem sub : FormedOver s operand (.minus a b) (.sint (.known (max m n + .ofNat 1)))
    fun v => f v - g v := by
  refine left.binary (r := .signed) right (fun a' b' aTy bTy => ?_) rfl (fun _ _ => rfl)
    succ_max_le_limit nofun
  simp only [Operator.resultTy, Operator.binary, aTy, bTy]
  rfl

/-- A remainder is formed at the narrower width, if the divisor is never zero. -/
theorem rem (divisor : ∀ v, g v ≠ 0) : FormedOver s operand (.untyped .rem [a, b] [])
    (.sint (.known (min m n))) fun v => (f v).tmod (g v) := by
  refine left.binary (r := .signed) right (fun a' b' aTy bTy => ?_) rfl (fun _ _ => rfl)
    (fun _ => Nat.zero_le _) fun _ => divisor
  simp only [Operator.resultTy, Operator.binary, aTy, bTy]
  rfl

theorem less : FormedOver s operand (.less a b) (.uint (.known (.ofNat 1)))
    fun v => flagValue (decide (f v < g v)) := by
  refine left.binary (r := .unsigned) (k := fun x y => flagValue (decide (x < y))) right
    (fun a' b' aTy bTy => ?_) rfl (fun _ _ => rfl) (fun _ => Nat.zero_le _) nofun
  simp only [Operator.resultTy, Operator.binary, aTy, bTy]
  rfl

theorem greater : FormedOver s operand (.greater a b) (.uint (.known (.ofNat 1)))
    fun v => flagValue (decide (g v < f v)) := by
  refine left.binary (r := .unsigned) (k := fun x y => flagValue (decide (y < x))) right
    (fun a' b' aTy bTy => ?_) rfl (fun _ _ => rfl) (fun _ => Nat.zero_le _) nofun
  simp only [Operator.resultTy, Operator.binary, aTy, bTy]
  rfl

/-- A selection by a flag. -/
theorem select {test : Int → Prop} [DecidablePred test]
    (cond : FormedOver s operand c (.uint (.known (.ofNat 1)))
      fun v => flagValue (decide (test v))) :
    FormedOver s operand (.select c a b) (.sint (.known (max m n)))
      fun v => if test v then f v else g v := by
  obtain ⟨c', condTyped, condTy, condDelivers⟩ := cond
  obtain ⟨a', leftTyped, leftTy, leftDelivers⟩ := left
  obtain ⟨b', rightTyped, rightTy, rightDelivers⟩ := right
  refine ⟨.mux c' a' b' (.sint (.known (max m n))), ?_, rfl, ?_⟩
  · refine infer_eq_ok_iff.mpr ⟨_, .mux .unknown condTyped leftTyped rightTyped, ?_⟩
    simp only [inferNode, condTy, leftTy, rightTy, muxTy]
    rfl
  · intro env v operandValue operandHolds unsaturated
    have inside := (unsaturated_iff.mp unsaturated).2
    have cond := condDelivers env v operandValue operandHolds (inside c' (by simp [children]))
    have left := leftDelivers env v operandValue operandHolds (inside a' (by simp [children]))
    have right := rightDelivers env v operandValue operandHolds (inside b' (by simp [children]))
    have selected := cond.select left right leftTy rightTy
    simpa only [flagValue_eq_zero_iff, decide_eq_true_eq, ite_not] using selected

end Signed

/-- A shift to the left is formed with a bit for each place. -/
theorem shl (arg : FormedOver s operand a (.sint (.known m)) f) (k : BitCount) :
    FormedOver s operand (.untyped .shl [a] [(k.toNat : Int)]) (.sint (.known (m + k)))
      fun v => f v * 2 ^ k.toNat := by
  refine arg.unary (p := .signed) (r := .signed) (k := fun x => x * 2 ^ k.toNat)
    (fun a' aTy => ?_) (fun x => rfl) fun narrow x fits => ?_
  · have count : Operator.shl.bitCount (k.toNat : Int) = .ok k :=
      Operator.bitCount_eq_ok_iff.mpr rfl
    simp only [Operator.resultTy, Operator.unaryBy, aTy, count]
    rfl
  · rw [BitCount.toNat_add_of_lt narrow]
    exact FitsSigned.shl fits k.toNat

/-- Each action of a wrap forms what it applies. -/
theorem wrapped (arg : FormedOver s operand a (.sint (.known m)) f) (check : RangeCheck)
    (size : check.size ≠ 0) (action : WrapAction) :
    ∃ n, FormedOver s operand (.wrapped check a action) (.sint (.known n))
      fun v => action.apply check (f v) := by
  have lo := literal s operand check.lo
  have hi := literal s operand check.hi
  have modulus : FormedOver s operand (Expr.wrapped.modulus check)
    (.sint (.known (signedWidth check.size))) fun _ => check.size :=
    literal s operand check.size
  have raised := arg.add modulus
  have lowered := arg.sub modulus
  cases action with
  | passThrough => exact ⟨m, arg⟩
  | correctLow => exact ⟨_, raised.select arg (arg.less lo)⟩
  | correctHigh => exact ⟨_, lowered.select arg (arg.greater hi)⟩
  | correctBoth =>
    exact ⟨_, lowered.select (raised.select arg (arg.less lo)) (arg.greater hi)⟩
  | remainder =>
    have residue := (arg.sub lo).rem modulus fun _ => size
    exact ⟨_, ((residue.add modulus).select residue (residue.less (literal s operand 0))).add lo⟩

end FormedOver

end Expr

end IntervalHdl
