import IntervalHdl.Removal.Alignment
import IntervalHdl.Proofs.Evaluation

/-!
# Meaning of interval expressions

What interval expressions say about numbers, without encodings: values are rational numbers, a
binary point is a grid of fractions, and lowering a point rounds down to it. A body of nodes and
connections is run statement by statement, by whatever evaluation and whatever rounding at its
locations, and leaves a trace of effects; so the meaning of a body and the two evaluations of its
lowered form are runs of one kind.
-/

namespace IntervalHdl
set_option autoImplicit false

namespace Fraction

/-- The number of a fraction. -/
def toRat (f : Fraction) : ℚ := f.num / f.den

theorem toRat_of_equal {a b : Fraction} (same : a.equal b = true) :
    a.toRat = b.toRat := by
  have den (f : Fraction) : (f.den : ℚ) ≠ 0 := Int.cast_ne_zero.mpr f.den_ne_zero
  rw [toRat, toRat, div_eq_div_iff (den a) (den b)]
  exact_mod_cast equal_iff.mp same

theorem scaledFloor_eq_floor (f : Fraction) (p : Nat) : f.scaledFloor p = ⌊f.toRat * 2 ^ p⌋ := by
  have scaled : f.toRat * 2 ^ p = ((f.num * 2 ^ p : Int) : ℚ) / (f.den : ℚ) := by
    rw [toRat, div_mul_eq_mul_div]
    push_cast
    rfl
  have division {a d : Int} (positive : 0 < d) : a.fdiv d = ⌊(a : ℚ) / (d : ℚ)⌋ := by
    obtain ⟨n, rfl⟩ := Int.eq_ofNat_of_zero_le positive.le
    rw [Int.fdiv_eq_ediv_of_nonneg _ positive.le]
    exact (Rat.floor_intCast_div_natCast a n).symm
  rw [scaled, scaledFloor]
  rcases lt_or_gt_of_ne f.den_ne_zero with below | above
  · rw [← Int.neg_fdiv_neg, division (by omega)]
    push_cast
    rw [neg_div_neg_eq]
  · exact division above

end Fraction

/-- The greatest multiple of `2 ^ -p` that is not above `q`. -/
def floorAt (p : Nat) (q : ℚ) : ℚ := ⌊q * 2 ^ p⌋ / 2 ^ p

/-- The number from `lo` up to `lo + size` that differs from `q` by a multiple of `size`. -/
def reduceInto (lo size q : ℚ) : ℚ := q - size * ⌊(q - lo) / size⌋

namespace Operator

/-- What an operator recorded at a type means, from the values and recorded types of its operands.
A saturation goes into the bounds of its recorded type, a wrap into the range of its second operand,
in steps of the finer of the two grids. -/
def meaning? (op : Operator) (args : List (ℚ × Ty)) (consts : List Int) (ty : Ty) : Option ℚ :=
  match op, args, consts, ty with
  | .add, [(a, _), (b, _)], [], _ => some (a + b)
  | .sub, [(a, _), (b, _)], [], _ => some (a - b)
  | .mul, [(a, _), (b, _)], [], _ => some (a * b)
  | .setp, [(a, _)], p :: _, _ => some (floorAt p.toNat a)
  | .incp, [(a, _)], [_], _ => some a
  | .decp, [(a, .interval t)], [n], _ => do
    let p ← t.point.bits?
    return floorAt (p.toNat - n.toNat) a
  | .clip, [(a, _), _], _, .interval t => do
    let lo ← t.lower.value?
    let hi ← t.upper.value?
    return max lo.toRat (min hi.toRat a)
  | .wrap, [(a, .interval t), (_, .interval range)], _, _ => do
    let p ← t.point.bits?
    let q ← range.point.bits?
    let lo ← range.lower.value?
    let hi ← range.upper.value?
    return reduceInto lo.toRat (hi.toRat - lo.toRat + 1 / 2 ^ (max p q).toNat) a
  | op, [(a, _), (b, _)], [], _ => (op.compares a b).map flagValue
  | _, _, _, _ => none

end Operator

namespace Expr

mutual

/-- What an expression means over given values of the names. -/
def meaning? (read : String → ℚ) : Expr → Option ℚ
  | .ref name _ => some (read name)
  | .field _ _ _ => none
  | .index _ _ _ => none
  | .uint value _ => some value
  | .sint value _ => some value
  | .prim op args consts ty => do
    let args ← meanings? read args
    op.meaning? args consts ty
  | .mux cond tval fval _ => do
    let c ← cond.meaning? read
    let t ← tval.meaning? read
    let f ← fval.meaning? read
    return if c = 0 then f else t

/-- What expressions mean in order, with their recorded types. -/
def meanings? (read : String → ℚ) : List Expr → Option (List (ℚ × Ty))
  | [] => some []
  | e :: es => do
    let q ← e.meaning? read
    let qs ← meanings? read es
    return (q, e.ty) :: qs

end

end Expr

/-! ## Runs -/

/-- What a statement does: a node gets its value, or a location the value stored there. A node has
the recorded type of its value. -/
structure Effect (V : Type) where
  name : String
  /-- The type of the node or of the location. -/
  ty : Ty
  /-- The type of the expression that the value comes from. -/
  source : Ty
  value : V

/-- The effects of nodes and connections to names, in order, over given values of the names. A node
gives its name a new value from there on. -/
def runBody {V : Type} (eval : (String → V) → Expr → Option V) (store : Ty → V → V)
    (read : String → V) : List Stmt → Option (List (Effect V))
  | [] => some []
  | .node name value :: stmts => do
    let v ← eval read value
    let rest ← runBody eval store (Function.update read name v) stmts
    return ⟨name, value.ty, value.ty, v⟩ :: rest
  | .connect (.ref name ty) value :: stmts => do
    let v ← eval read value
    let rest ← runBody eval store read stmts
    return ⟨name, ty, value.ty, store ty v⟩ :: rest
  | _ => none

/-- A value as a location of the type keeps it: rounded down to the point of an interval. -/
def Ty.storedMeaning : Ty → ℚ → ℚ
  | .interval t, q =>
    match t.point with
    | .known p => floorAt p.toNat q
    | .unknown => q
  | _, q => q

namespace Module

/-- The effects of a module whose body is a block, by an evaluation. -/
def runWith {V : Type} (eval : (String → V) → Expr → Option V) (store : Ty → V → V)
    (read : String → V) (m : Module) : Option (List (Effect V)) :=
  match m.body? with
  | some (.block stmts) => runBody eval store read stmts
  | _ => none

/-- What the body of a module means. -/
def runMeaning : (String → ℚ) → Module → Option (List (Effect ℚ)) :=
  runWith Expr.meaning? Ty.storedMeaning

/-- The run of a module over unbounded integers. -/
def runExact : (String → Int) → Module → Option (List (Effect Int)) :=
  runWith Expr.exact fun _ v => v

/-- The run of a module with every result and every stored value cut to its width. -/
def runHardware : (String → Int) → Module → Option (List (Effect Int)) :=
  runWith Expr.hardware Ty.fit

/-- No width in the body was cut off. -/
def Unsaturated (m : Module) : Prop :=
  ∀ body ∈ m.body?, body.Everywhere fun s => ∀ e ∈ s.exprs, e.Unsaturated

end Module

/-! ## Grids -/

section Grids

variable {p q : Nat} {v : Int}

/-- Rounding at a point, of a number given by its encoding at a finer one, is a shift. -/
theorem floorAt_of_encoding (coarser : p ≤ q) {x : ℚ} (encodes : (v : ℚ) = x * 2 ^ q) :
    (v / 2 ^ (q - p) : Int) = floorAt p x * 2 ^ p := by
  have scaled : x * 2 ^ p = (v : ℚ) / (2 ^ (q - p) : Nat) := by
    push_cast
    rw [encodes, eq_div_iff (by positivity), mul_assoc, ← pow_add, Nat.add_sub_cancel' coarser]
  rw [floorAt, div_mul_cancel₀ _ (by positivity), scaled, Rat.floor_intCast_div_natCast]
  push_cast
  rfl

/-- A number on the grid is not changed by rounding at a finer one. -/
theorem floorAt_of_le (finer : q ≤ p) {x : ℚ} (encodes : (v : ℚ) = x * 2 ^ q) :
    floorAt p x = x := by
  have whole : x * 2 ^ p = ((v * 2 ^ (p - q) : Int) : ℚ) := by
    push_cast
    rw [encodes, mul_assoc, ← pow_add, Nat.add_sub_cancel' finer]
  rw [floorAt, whole, Int.floor_intCast, ← whole, mul_div_cancel_right₀ _ (by positivity)]

/-- Rounding down does not leave a range that begins at an integer. -/
theorem le_floorAt {lo : Int} {x : ℚ} (above : (lo : ℚ) ≤ x) : (lo : ℚ) ≤ floorAt p x := by
  have positive : (0 : ℚ) < 2 ^ p := by positivity
  rw [floorAt, le_div_iff₀ positive]
  have scaled : ((lo * 2 ^ p : Int) : ℚ) ≤ x * 2 ^ p := by
    push_cast
    exact mul_le_mul_of_nonneg_right above positive.le
  exact_mod_cast Int.le_floor.mpr scaled

theorem floorAt_le (x : ℚ) : floorAt p x ≤ x := by
  have positive : (0 : ℚ) < 2 ^ p := by positivity
  rw [floorAt, div_le_iff₀ positive]
  exact Int.floor_le _

/-- Reduction into a range is that of the encodings on its grid. -/
theorem reduceInto_of_encoding {lo hi : Int} {x : ℚ} (encodes : (v : ℚ) = x * 2 ^ p)
    (ordered : lo ≤ hi) :
    ((lo * 2 ^ p + (v - lo * 2 ^ p) % (hi * 2 ^ p - lo * 2 ^ p + 1) : Int) : ℚ) =
      reduceInto lo (hi - lo + 1 / 2 ^ p) x * 2 ^ p := by
  have grid : (0 : ℚ) < 2 ^ p := by positivity
  obtain ⟨size, size_eq⟩ : ∃ size : Nat, (size : Int) = hi * 2 ^ p - lo * 2 ^ p + 1 := by
    have : lo * 2 ^ p ≤ hi * 2 ^ p := mul_le_mul_of_nonneg_right ordered (by positivity)
    exact Int.eq_ofNat_of_zero_le (by omega) |>.imp fun _ same => same.symm
  have size_rat : (hi - lo + 1 / 2 ^ p : ℚ) * 2 ^ p = size := by
    have cast : (size : ℚ) = (hi * 2 ^ p - lo * 2 ^ p + 1 : Int) := by exact_mod_cast size_eq
    rw [cast, add_mul, div_mul_cancel₀ _ grid.ne', sub_mul]
    push_cast
    ring
  have steps : ⌊(x - lo) / (hi - lo + 1 / 2 ^ p : ℚ)⌋ = (v - lo * 2 ^ p) / (size : Int) := by
    rw [← Rat.floor_intCast_div_natCast, ← size_rat, ← mul_div_mul_right _ _ grid.ne']
    push_cast
    rw [encodes]
    ring_nf
  rw [reduceInto, steps, ← size_eq, Int.emod_def, sub_mul, mul_right_comm, size_rat, ← encodes]
  push_cast
  ring

end Grids

end IntervalHdl
