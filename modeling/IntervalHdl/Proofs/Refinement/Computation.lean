import IntervalHdl.Proofs.WellRecorded
import IntervalHdl.Proofs.Removal.RangeChecks

/-!
# What lowered expressions compute

A situation gives every trusted name its number and the integer that carries it. A lowered
expression computes a value if inference types it and, in every situation, the typed expression
evaluates to the value; where no width was cut off, hardware evaluation agrees and the value is in
the range of the type. Each node that lowering makes computes what it is made for.
-/

namespace IntervalHdl
set_option autoImplicit false

namespace Shape

/-- The types that carry a shape after lowering. -/
inductive LoweredTo : Shape → Ty → Prop where
  | number (lo hi : Int) (p w : BitCount) : LoweredTo (.number lo hi p) (.sint (.known w))
  | flag : LoweredTo .flag (.uint (.known (.ofNat 1)))

end Shape

/-- The lowered scope declares every trusted name at a type that carries its shape. -/
def Scope.LoweredTo (source lowered : Scope) : Prop :=
  ∀ name ty s, source.lookup name = some ty → ty.HasShape s →
    ∃ ty', lowered.lookup name = some ty' ∧ s.LoweredTo ty'

/-- Numbers for the names of a scope, and the integers that carry them. -/
structure Situation (source : Scope) where
  meant : String → ℚ
  held : String → Int
  covered : ∀ {name ty s}, source.lookup name = some ty → ty.HasShape s → s.Covers (meant name)
  encoded : ∀ {name ty s}, source.lookup name = some ty → ty.HasShape s →
    s.Encodes (meant name) (held name)

/-- Every scope has a situation, since no trusted range is empty. -/
theorem Situation.nonempty (source : Scope) : Nonempty (Situation source) := by
  have each : ∀ name, ∃ (q : ℚ) (v : Int), ∀ ty s, source.lookup name = some ty → ty.HasShape s →
      s.Covers q ∧ s.Encodes q v := by
    intro name
    by_cases trusted : ∃ ty s, source.lookup name = some ty ∧ ty.HasShape s
    · obtain ⟨ty, s, found, shape⟩ := trusted
      obtain ⟨q, v, here⟩ := shape.inhabited
      refine ⟨q, v, fun ty' s' found' shape' => ?_⟩
      cases Option.some.inj (found.symm.trans found')
      cases shape.unique shape'
      exact here
    · exact ⟨0, 0, fun ty s found shape => (trusted ⟨ty, s, found, shape⟩).elim⟩
  choose meant held both using each
  exact ⟨meant, held, fun found shape => (both _ _ _ found shape).1,
    fun found shape => (both _ _ _ found shape).2⟩

/-- The integers fit the types of the lowered scope, as far as these were not cut off. -/
def Situation.Fits {source : Scope} (lowered : Scope) (S : Situation source) : Prop :=
  ∀ name ty s ty', source.lookup name = some ty → ty.HasShape s →
    lowered.lookup name = some ty' → ty'.Unsaturated → ty'.Holds (S.held name)

section Computations

variable {source lowered : Scope}

/-- The typed expression evaluates to the value in every situation. -/
structure Evaluates (lowered : Scope) (e : Expr) (ty : Ty) (v : Situation source → Int) : Prop where
  ty_eq : e.ty = ty
  exact : ∀ S : Situation source, e.exact S.held = some (v S)
  hardware : ∀ S : Situation source, S.Fits lowered → e.Unsaturated →
    e.hardware S.held = some (v S) ∧ ty.Holds (v S)

/-- The expression is typed at `ty` and then evaluates to the value. -/
def Computes (lowered : Scope) (e : Expr) (ty : Ty) (v : Situation source → Int) : Prop :=
  ∃ e', e.infer lowered = .ok e' ∧ Evaluates lowered e' ty v

/-- The expression computes a signed integer of known width. -/
def ComputesSigned (lowered : Scope) (e : Expr) (v : Situation source → Int) : Prop :=
  ∃ w, Computes lowered e (.sint (.known w)) v

/-- The expression computes a bit. -/
abbrev ComputesFlag (lowered : Scope) (e : Expr) (v : Situation source → Int) : Prop :=
  Computes lowered e (.uint (.known (.ofNat 1))) v

/-- Operands that compute are typed together. -/
theorem exists_typed {args : List Expr} {operands : List (Ty × (Situation source → Int))}
    (each : List.Forall₂ (fun a o => Computes lowered a o.1 o.2) args operands) :
    ∃ args', List.Forall₂ (fun a a' => a.infer lowered = .ok a') args args' ∧
      List.Forall₂ (fun a' o => Evaluates lowered a' o.1 o.2) args' operands := by
  induction each with
  | nil => exact ⟨[], .nil, .nil⟩
  | cons head _ ih =>
    obtain ⟨a', headTyped, headEvaluates⟩ := head
    obtain ⟨args', typed, evaluates⟩ := ih
    exact ⟨a' :: args', .cons headTyped typed, .cons headEvaluates evaluates⟩

/-- An operator node over operands that compute values: its result type has to follow from theirs,
and to hold the result wherever their types hold the operands. -/
theorem Computes.prim {op : Operator} {args : List Expr} {consts : List Int} {ty recorded : Ty}
    {v : Situation source → Int} (operands : List (Ty × (Situation source → Int)))
    (each : List.Forall₂ (fun a o => Computes lowered a o.1 o.2) args operands)
    (typed : ∀ args' : List Expr, args'.map Expr.ty = operands.map Prod.fst →
      op.resultTy args' consts = .ok ty)
    (value : ∀ S, op.result? (operands.map fun o => o.2 S) consts ty = some (v S))
    (holds : ∀ S, (∀ o ∈ operands, o.1.Holds (o.2 S)) → ty.Unsaturated → ty.Holds (v S)) :
    Computes lowered (.prim op args consts recorded) ty v := by
  obtain ⟨args', argsTyped, evaluates⟩ := exists_typed each
  have tys : args'.map Expr.ty = operands.map Prod.fst := by
    clear argsTyped typed value holds each
    induction evaluates with
    | nil => rfl
    | cons head _ ih => rw [List.map_cons, List.map_cons, head.ty_eq, ih]
  refine ⟨.prim op args' consts ty, ?_, rfl, fun S => ?_, fun S fits unsaturated => ?_⟩
  · refine Expr.infer_eq_ok_iff.mpr ⟨_, .prim op consts recorded argsTyped, ?_⟩
    simp only [Expr.inferNode, typed args' tys]
    rfl
  · have vals : Expr.evalAllWith (fun _ v => v) S.held args' = some (operands.map fun o => o.2 S) :=
      Expr.evalAllWith_eq_some_iff.mpr <| List.forall₂_map_right_iff.mpr <|
        evaluates.imp fun _ _ evaluates => evaluates.exact S
    simp [Expr.exact, Expr.evalWith, vals, value S]
  · obtain ⟨own, inside⟩ := Expr.unsaturated_iff.mp unsaturated
    have each' : List.Forall₂ (fun a' o => a'.hardware S.held = some (o.2 S) ∧ o.1.Holds (o.2 S))
        args' operands :=
      forall₂_imp_of_mem (fun a' found _ evaluates => evaluates.hardware S fits (inside a' found))
        evaluates
    have vals : Expr.evalAllWith Ty.fit S.held args' = some (operands.map fun o => o.2 S) :=
      Expr.evalAllWith_eq_some_iff.mpr <| List.forall₂_map_right_iff.mpr <|
        each'.imp fun _ _ => And.left
    have result := holds S (forall_mem_of_forall₂ each' fun _ _ _ => And.right) own
    refine ⟨?_, result⟩
    simp [Expr.hardware, Expr.evalWith, vals, value S, Ty.fit_of_holds result]

/-- An operator node on one operand. -/
theorem Computes.unary {op : Operator} {a : Expr} {consts : List Int} {ty ta recorded : Ty}
    {v va : Situation source → Int} (arg : Computes lowered a ta va)
    (typed : ∀ a' : Expr, a'.ty = ta → op.resultTy [a'] consts = .ok ty)
    (value : ∀ S, op.result? [va S] consts ty = some (v S))
    (holds : ∀ S, ta.Holds (va S) → ty.Unsaturated → ty.Holds (v S)) :
    Computes lowered (.prim op [a] consts recorded) ty v := by
  refine .prim [(ta, va)] (.cons arg .nil) (fun args' tys => ?_) value
    fun S each => holds S (each _ List.mem_cons_self)
  obtain ⟨a', rfl, aTy⟩ := List.map_eq_singleton_iff.mp tys
  exact typed a' aTy

/-- An operator node on two operands. -/
theorem Computes.binary {op : Operator} {a b : Expr} {ty ta tb recorded : Ty}
    {v va vb : Situation source → Int} (left : Computes lowered a ta va)
    (right : Computes lowered b tb vb)
    (typed : ∀ a' b' : Expr, a'.ty = ta → b'.ty = tb → op.resultTy [a', b'] [] = .ok ty)
    (value : ∀ S, op.result? [va S, vb S] [] ty = some (v S))
    (holds : ∀ S, ta.Holds (va S) → tb.Holds (vb S) → ty.Unsaturated → ty.Holds (v S)) :
    Computes lowered (.prim op [a, b] [] recorded) ty v := by
  refine .prim [(ta, va), (tb, vb)] (.cons left (.cons right .nil)) (fun args' tys => ?_) value
    fun S each => holds S (each (ta, va) (by simp)) (each (tb, vb) (by simp))
  obtain ⟨a', rest, rfl, aTy, restTy⟩ := List.map_eq_cons_iff.mp tys
  obtain ⟨b', rfl, bTy⟩ := List.map_eq_singleton_iff.mp restTy
  exact typed a' b' aTy bTy

/-- A selection between signed integers. -/
theorem ComputesSigned.select {c a b : Expr} {recorded : Ty} {vc va vb : Situation source → Int}
    (cond : ComputesFlag lowered c vc) (tval : ComputesSigned lowered a va)
    (fval : ComputesSigned lowered b vb) :
    ComputesSigned lowered (.mux c a b recorded) fun S => if vc S = 0 then vb S else va S := by
  obtain ⟨c', condTyped, condEvaluates⟩ := cond
  obtain ⟨m, a', tvalTyped, tvalEvaluates⟩ := tval
  obtain ⟨n, b', fvalTyped, fvalEvaluates⟩ := fval
  refine ⟨max m n, .mux c' a' b' (.sint (.known (max m n))), ?_, rfl, fun S => ?_,
    fun S fits unsaturated => ?_⟩
  · refine Expr.infer_eq_ok_iff.mpr ⟨_, .mux recorded condTyped tvalTyped fvalTyped, ?_⟩
    simp only [Expr.inferNode, condEvaluates.ty_eq, tvalEvaluates.ty_eq, fvalEvaluates.ty_eq, muxTy]
    rfl
  · simp [Expr.exact, Expr.evalWith, condEvaluates.exact S, tvalEvaluates.exact S,
      fvalEvaluates.exact S]
  · have inside := (Expr.unsaturated_iff.mp unsaturated).2
    obtain ⟨condValue, -⟩ := condEvaluates.hardware S fits (inside c' (by simp [Expr.children]))
    obtain ⟨tvalValue, tvalHolds⟩ :=
      tvalEvaluates.hardware S fits (inside a' (by simp [Expr.children]))
    obtain ⟨fvalValue, fvalHolds⟩ :=
      fvalEvaluates.hardware S fits (inside b' (by simp [Expr.children]))
    have result : (Ty.sint (.known (max m n))).Holds (if vc S = 0 then vb S else va S) := by
      simp only [Ty.Holds, BitCount.toNat_max] at tvalHolds fvalHolds ⊢
      split
      · exact fvalHolds.mono (Nat.le_max_right _ _)
      · exact tvalHolds.mono (Nat.le_max_left _ _)
    refine ⟨?_, result⟩
    simp [Expr.hardware, Expr.evalWith, condValue, tvalValue, fvalValue, Ty.fit_of_holds result]

/-- A selection by the flag of a condition. -/
theorem ComputesSigned.choose {c a b : Expr} {recorded : Ty} {holds : Situation source → Prop}
    [DecidablePred holds] {va vb : Situation source → Int}
    (cond : ComputesFlag lowered c fun S => flagValue (decide (holds S)))
    (tval : ComputesSigned lowered a va) (fval : ComputesSigned lowered b vb) :
    ComputesSigned lowered (.mux c a b recorded) fun S => if holds S then va S else vb S := by
  have chosen : ComputesSigned lowered (.mux c a b recorded) _ := .select cond tval fval
  simp only [flagValue_eq_zero_iff, decide_eq_true_eq, ite_not] at chosen
  exact chosen

/-- A literal at its minimal width. -/
theorem computesSigned_literal (n : Int) :
    ComputesSigned lowered (.minimalSInt n) fun _ : Situation source => n := by
  refine ⟨signedWidth n, .minimalSInt n, ?_, rfl, fun S => rfl, fun S _ unsaturated => ?_⟩
  · exact Expr.infer_eq_ok_iff.mpr ⟨_, .sint n _, rfl⟩
  · have width : (signedWidth n).toNat = signedBits n :=
      BitCount.toNat_ofNat_of_lt (Ty.unsaturated_sint_iff.mp unsaturated.here)
    have result : (Ty.sint (.known (signedWidth n))).Holds n := by
      rw [Ty.Holds, width]
      exact fitsSigned_signedBits n
    exact ⟨congrArg some (Ty.fit_of_holds result), result⟩

section Operators

variable {a b : Expr} {recorded : Ty} {va vb : Situation source → Int}

/-- A sum computes the sum, whatever type is recorded on it. -/
theorem ComputesSigned.add (left : ComputesSigned lowered a va)
    (right : ComputesSigned lowered b vb) :
    ComputesSigned lowered (.prim .add [a, b] [] recorded) fun S => va S + vb S := by
  obtain ⟨m, left⟩ := left
  obtain ⟨n, right⟩ := right
  refine ⟨max m n + .ofNat 1, left.binary right (fun a' b' aTy bTy => ?_) (fun S => rfl)
    fun S aHolds bHolds unsaturated => ?_⟩
  · simp only [Operator.resultTy, Operator.binary, aTy, bTy]
    rfl
  · rw [Ty.Holds, BitCount.toNat_add_of_lt (Ty.unsaturated_sint_iff.mp unsaturated)]
    rw [BitCount.toNat_max, BitCount.toNat_ofNat_one]
    exact aHolds.add bHolds

/-- A difference computes the difference. -/
theorem ComputesSigned.sub (left : ComputesSigned lowered a va)
    (right : ComputesSigned lowered b vb) :
    ComputesSigned lowered (.prim .sub [a, b] [] recorded) fun S => va S - vb S := by
  obtain ⟨m, left⟩ := left
  obtain ⟨n, right⟩ := right
  refine ⟨max m n + .ofNat 1, left.binary right (fun a' b' aTy bTy => ?_) (fun S => rfl)
    fun S aHolds bHolds unsaturated => ?_⟩
  · simp only [Operator.resultTy, Operator.binary, aTy, bTy]
    rfl
  · rw [Ty.Holds, BitCount.toNat_add_of_lt (Ty.unsaturated_sint_iff.mp unsaturated)]
    rw [BitCount.toNat_max, BitCount.toNat_ofNat_one]
    exact aHolds.sub bHolds

/-- A product computes the product. -/
theorem ComputesSigned.mul (left : ComputesSigned lowered a va)
    (right : ComputesSigned lowered b vb) :
    ComputesSigned lowered (.prim .mul [a, b] [] recorded) fun S => va S * vb S := by
  obtain ⟨m, left⟩ := left
  obtain ⟨n, right⟩ := right
  refine ⟨m + n, left.binary right (fun a' b' aTy bTy => ?_) (fun S => rfl)
    fun S aHolds bHolds unsaturated => ?_⟩
  · simp only [Operator.resultTy, Operator.binary, aTy, bTy]
    rfl
  · rw [Ty.Holds, BitCount.toNat_add_of_lt (Ty.unsaturated_sint_iff.mp unsaturated)]
    exact aHolds.mul bHolds

/-- A remainder computes the truncated remainder, if the divisor is never zero. -/
theorem ComputesSigned.rem (left : ComputesSigned lowered a va)
    (right : ComputesSigned lowered b vb) (divisor : ∀ S, vb S ≠ 0) :
    ComputesSigned lowered (.prim .rem [a, b] [] recorded) fun S => (va S).tmod (vb S) := by
  obtain ⟨m, left⟩ := left
  obtain ⟨n, right⟩ := right
  refine ⟨min m n, left.binary right (fun a' b' aTy bTy => ?_) (fun S => rfl)
    fun S aHolds bHolds _ => ?_⟩
  · simp only [Operator.resultTy, Operator.binary, aTy, bTy]
    rfl
  · rw [Ty.Holds, BitCount.toNat_min]
    exact aHolds.rem bHolds (divisor S)

/-- A shift to the left multiplies by a power of two. -/
theorem ComputesSigned.shl (arg : ComputesSigned lowered a va) (n : BitCount) :
    ComputesSigned lowered (.prim .shl [a] [(n.toNat : Int)] recorded)
      fun S => va S * 2 ^ n.toNat := by
  obtain ⟨w, arg⟩ := arg
  refine ⟨w + n, arg.unary (fun a' aTy => ?_) (fun S => rfl) fun S aHolds unsaturated => ?_⟩
  · have count : Operator.shl.bitCount (n.toNat : Int) = .ok n :=
      Operator.bitCount_eq_ok_iff.mpr rfl
    simp only [Operator.resultTy, Operator.unaryBy, aTy, count]
    rfl
  · rw [Ty.Holds, BitCount.toNat_add_of_lt (Ty.unsaturated_sint_iff.mp unsaturated)]
    exact aHolds.shl n.toNat

/-- A shift to the right divides by a power of two, rounding down. -/
theorem ComputesSigned.shr (arg : ComputesSigned lowered a va) (n : BitCount) :
    ComputesSigned lowered (.prim .shr [a] [(n.toNat : Int)] recorded)
      fun S => va S / 2 ^ n.toNat := by
  obtain ⟨w, arg⟩ := arg
  refine ⟨max (w - n) (.ofNat 1), arg.unary (fun a' aTy => ?_) (fun S => rfl)
    fun S aHolds _ => ?_⟩
  · have count : Operator.shr.bitCount (n.toNat : Int) = .ok n :=
      Operator.bitCount_eq_ok_iff.mpr rfl
    simp only [Operator.resultTy, Operator.unaryBy, aTy, count]
    rfl
  · rw [Ty.Holds, BitCount.toNat_max, BitCount.toNat_sub, BitCount.toNat_ofNat_one]
    exact aHolds.shr n.toNat

/-- A comparison of operands that share their sign. -/
theorem Computes.compare {op : Operator} {ta tb : Ty} {holds : Situation source → Bool}
    (comparison : op.IsComparison) (left : Computes lowered a ta va)
    (right : Computes lowered b tb vb)
    (signs : (∃ m n, ta = .sint m ∧ tb = .sint n) ∨ ∃ m n, ta = .uint m ∧ tb = .uint n)
    (value : ∀ S, op.compares (va S) (vb S) = some (holds S)) :
    ComputesFlag lowered (.prim op [a, b] [] recorded) fun S => flagValue (holds S) := by
  refine left.binary right (fun a' b' aTy bTy => ?_) (fun S => ?_)
    fun S _ _ _ => fitsUnsigned_flagValue (holds S)
  · rcases signs with ⟨m, n, rfl, rfl⟩ | ⟨m, n, rfl, rfl⟩ <;>
      rcases comparison with rfl | rfl | rfl | rfl | rfl | rfl <;>
      simp only [Operator.resultTy, Operator.binary, aTy, bTy] <;>
      rfl
  · have result : op.result? [va S, vb S] [] (.uint (.known (.ofNat 1)))
        = (op.compares (va S) (vb S)).map flagValue := by
      rcases comparison with rfl | rfl | rfl | rfl | rfl | rfl <;> rfl
    rw [result, value S]
    rfl

/-- A comparison computes its flag. -/
theorem ComputesSigned.compare {op : Operator} {holds : Situation source → Bool}
    (left : ComputesSigned lowered a va) (comparison : op.IsComparison)
    (right : ComputesSigned lowered b vb)
    (value : ∀ S, op.compares (va S) (vb S) = some (holds S)) :
    ComputesFlag lowered (.prim op [a, b] [] recorded) fun S => flagValue (holds S) := by
  obtain ⟨m, left⟩ := left
  obtain ⟨n, right⟩ := right
  exact Computes.compare comparison left right (.inl ⟨_, _, rfl, rfl⟩) value

end Operators

/-! ## Saturations and wraps -/

section RangeChecks

variable {a : Expr} {v : Situation source → Int}

/-- One of two values, by whether a value lies below a constant. -/
theorem ComputesSigned.selectLess {x y : Expr} {vx vy : Situation source → Int} (bound : Int)
    (arg : ComputesSigned lowered a v) (tval : ComputesSigned lowered x vx)
    (fval : ComputesSigned lowered y vy) :
    ComputesSigned lowered (.select (.less a (.minimalSInt bound)) x y)
      fun S => if v S < bound then vx S else vy S := by
  refine ComputesSigned.choose ?_ tval fval
  exact arg.compare (by simp [Operator.IsComparison]) (computesSigned_literal bound) fun S => rfl

/-- One of two values, by whether a value lies above a constant. -/
theorem ComputesSigned.selectGreater {x y : Expr} {vx vy : Situation source → Int} (bound : Int)
    (arg : ComputesSigned lowered a v) (tval : ComputesSigned lowered x vx)
    (fval : ComputesSigned lowered y vy) :
    ComputesSigned lowered (.select (.greater a (.minimalSInt bound)) x y)
      fun S => if bound < v S then vx S else vy S := by
  refine ComputesSigned.choose ?_ tval fval
  exact arg.compare (by simp [Operator.IsComparison]) (computesSigned_literal bound) fun S => rfl

/-- A lowered saturation computes what its action applies. -/
theorem ComputesSigned.saturated (arg : ComputesSigned lowered a v) (check : RangeCheck)
    (action : SaturateAction) :
    ComputesSigned lowered (.saturated check a action) fun S => action.apply check (v S) := by
  have literal (n : Int) : ComputesSigned lowered (.minimalSInt n) fun _ : Situation source => n :=
    computesSigned_literal n
  have lo := literal check.lo
  have hi := literal check.hi
  cases action with
  | passThrough => exact arg
  | clampLow => exact arg.selectLess check.lo lo arg
  | clampHigh => exact arg.selectGreater check.hi hi arg
  | clampBoth => exact arg.selectGreater check.hi hi (arg.selectLess check.lo lo arg)

/-- A lowered wrap computes what its action applies. -/
theorem ComputesSigned.wrapped (arg : ComputesSigned lowered a v) (check : RangeCheck)
    (action : WrapAction) (size : check.size ≠ 0) :
    ComputesSigned lowered (.wrapped check a action) fun S => action.apply check (v S) := by
  have literal (n : Int) : ComputesSigned lowered (.minimalSInt n) fun _ : Situation source => n :=
    computesSigned_literal n
  have lo := literal check.lo
  have modulus : ComputesSigned lowered (Expr.wrapped.modulus check) _ := literal check.size
  cases action with
  | passThrough => exact arg
  | correctLow => exact arg.selectLess check.lo (arg.add modulus) arg
  | correctHigh => exact arg.selectGreater check.hi (arg.sub modulus) arg
  | correctBoth =>
    exact arg.selectGreater check.hi (arg.sub modulus)
      (arg.selectLess check.lo (arg.add modulus) arg)
  | remainder =>
    have offset : ComputesSigned lowered (.minus a (.minimalSInt check.lo)) _ := arg.sub lo
    have residue : ComputesSigned lowered
        (.untyped .rem [.minus a (.minimalSInt check.lo), Expr.wrapped.modulus check] []) _ :=
      offset.rem modulus fun _ => size
    exact (residue.selectLess 0 (residue.add modulus) residue).add lo

end RangeChecks

end Computations

end IntervalHdl
