import IntervalHdl.Proofs.Typing.Results

/-!
# Evaluation of integer expressions

Typed integer expressions are evaluated in two ways: over unbounded integers (`Expr.exact`), and as
hardware does, with every result cut to the width of its type (`Expr.hardware`). Remainders truncate
toward zero, shifts to the right round down. The lemmas about `FitsSigned` say that the widths of
the typing rules hold every exact result, so that cutting changes nothing.
-/

namespace IntervalHdl
set_option autoImplicit false

/-- The value is one of the two's-complement numbers of `n` bits. -/
def FitsSigned (n : Nat) (v : Int) : Prop := -2 ^ n ≤ 2 * v ∧ 2 * v < 2 ^ n

/-- The value is one of the unsigned numbers of `n` bits. -/
def FitsUnsigned (n : Nat) (v : Int) : Prop := 0 ≤ v ∧ v < 2 ^ n

instance (n : Nat) (v : Int) : Decidable (FitsSigned n v) := inferInstanceAs (Decidable (_ ∧ _))

instance (n : Nat) (v : Int) : Decidable (FitsUnsigned n v) := inferInstanceAs (Decidable (_ ∧ _))

/-- A number of so many signed bits is left as it is by a cut to them. -/
theorem FitsSigned.bmod_eq {n : Nat} {v : Int} (fits : FitsSigned n v) : v.bmod (2 ^ n) = v := by
  refine Int.bmod_eq_of_le_mul_two ?_ ?_
  · push_cast
    linarith [fits.1]
  · push_cast
    linarith [fits.2]

namespace Ty

/-- The value is in the range of an integer type of known width. -/
def Holds : Ty → Int → Prop
  | .uint (.known w), v => FitsUnsigned w.toNat v
  | .sint (.known w), v => FitsSigned w.toNat v
  | _, _ => True

/-- The value cut to the width of an integer type. -/
def fit : Ty → Int → Int
  | .uint (.known w), v => v % 2 ^ w.toNat
  | .sint (.known w), v => v.bmod (2 ^ w.toNat)
  | _, v => v

/-- The width lies below the greatest bit count, so it was not cut off there. -/
def Unsaturated (t : Ty) : Prop := ∀ w, t.width = .known w → w.toNat < BitCount.limit

theorem unsaturated_sint_iff {w : BitCount} :
    (Ty.sint (.known w)).Unsaturated ↔ w.toNat < BitCount.limit := by
  simp [Unsaturated, width]

/-- A value in the range of its type is left as it is by the cut to the type. -/
theorem fit_of_holds {t : Ty} {v : Int} (holds : t.Holds v) : t.fit v = v := by
  unfold Holds at holds
  unfold fit
  split at holds
  · exact Int.emod_eq_of_lt holds.1 holds.2
  · exact FitsSigned.bmod_eq holds
  · rfl

end Ty

/-- The number of a flag. -/
def flagValue {α : Type} [Zero α] [One α] (holds : Bool) : α := if holds then 1 else 0

@[simp] theorem flagValue_eq_zero_iff {holds : Bool} : (flagValue holds : Int) = 0 ↔ ¬ holds := by
  cases holds <;> simp [flagValue]

namespace Operator

/-- A comparison of two values. -/
def compares {α : Type} [LinearOrder α] (op : Operator) (a b : α) : Option Bool :=
  match op with
  | .lt => some (a < b)
  | .leq => some (a ≤ b)
  | .gt => some (b < a)
  | .geq => some (b ≤ a)
  | .eq => some (a = b)
  | .neq => some (a ≠ b)
  | _ => none

/-- The result over unbounded integers, recorded at a type. Only the operators that a removal leaves
have one. -/
def result? (op : Operator) (vals : List Int) (consts : List Int) (ty : Ty) : Option Int :=
  match op, vals, consts with
  | .add, [a, b], [] => some (a + b)
  | .sub, [a, b], [] => some (a - b)
  | .mul, [a, b], [] => some (a * b)
  | .rem, [a, b], [] => some (a.tmod b)
  | .pad, [a], [_] => some a
  | .asUInt, [a], [] | .asSInt, [a], [] => some (ty.fit a)
  | .bits, [a], [hi, lo] => some (a / 2 ^ lo.toNat % 2 ^ (hi - lo + 1).toNat)
  | .shl, [a], [n] => some (a * 2 ^ n.toNat)
  | .shr, [a], [n] => some (a / 2 ^ n.toNat)
  | op, [a, b], [] => (op.compares a b).map flagValue
  | _, _, _ => none

/-- Comparisons agree on values that are ordered alike. -/
theorem compares_of_strictMono {α β : Type} [LinearOrder α] [LinearOrder β] {f : α → β}
    (mono : StrictMono f) (op : Operator) (a b : α) :
    op.compares (f a) (f b) = op.compares a b := by
  cases op <;> simp [compares, mono.lt_iff_lt, mono.le_iff_le, mono.injective.eq_iff]

end Operator

namespace Expr

mutual

/-- Evaluation of an expression over given values of the names, each result put through `keep`. -/
def evalWith (keep : Ty → Int → Int) (read : String → Int) : Expr → Option Int
  | .ref name ty => some (keep ty (read name))
  | .field _ _ _ => none
  | .index _ _ _ => none
  | .uint value width => some (keep (.uint width) value)
  | .sint value width => some (keep (.sint width) value)
  | .prim op args consts ty => do
    let vals ← evalAllWith keep read args
    let v ← op.result? vals consts ty
    return keep ty v
  | .mux cond tval fval ty => do
    let c ← cond.evalWith keep read
    let t ← tval.evalWith keep read
    let f ← fval.evalWith keep read
    return keep ty (if c = 0 then f else t)

/-- Evaluation of expressions in order. -/
def evalAllWith (keep : Ty → Int → Int) (read : String → Int) : List Expr → Option (List Int)
  | [] => some []
  | e :: es => do
    let v ← e.evalWith keep read
    let vs ← evalAllWith keep read es
    return v :: vs

end

/-- A list is evaluated exactly when each of its expressions is. -/
theorem evalAllWith_eq_some_iff {keep : Ty → Int → Int} {read : String → Int} {es : List Expr}
    {vals : List Int} :
    evalAllWith keep read es = some vals ↔
      List.Forall₂ (fun e v => e.evalWith keep read = some v) es vals := by
  induction es generalizing vals with
  | nil => cases vals <;> simp [evalAllWith]
  | cons e es ih =>
    simp only [evalAllWith, bind, pure, Option.bind_eq_some_iff, Option.some.injEq, ih,
      List.forall₂_cons_left_iff]
    constructor
    · rintro ⟨v, head, vs, tail, rfl⟩
      exact ⟨v, vs, head, tail, rfl⟩
    · rintro ⟨v, vs, head, tail, rfl⟩
      exact ⟨v, head, vs, tail, rfl⟩

/-- Evaluation over unbounded integers. -/
abbrev exact : (String → Int) → Expr → Option Int := evalWith fun _ v => v

/-- Evaluation with every result cut to the width of its type. -/
abbrev hardware : (String → Int) → Expr → Option Int := evalWith Ty.fit

/-- No width in the expression was cut off. -/
def Unsaturated (e : Expr) : Prop := e.Everywhere fun e => e.ty.Unsaturated

/-- Widths lie below the limit when that of the root does and those of the children do. -/
theorem unsaturated_iff {e : Expr} :
    e.Unsaturated ↔ e.ty.Unsaturated ∧ ∀ child ∈ e.children, child.Unsaturated :=
  everywhere_iff

end Expr

/-! ## Widths that hold exact results -/

namespace BitCount

@[simp] theorem toNat_ofNat_one : (ofNat 1).toNat = 1 := rfl

/-- A bit count below the limit was not cut off. -/
theorem toNat_ofNat_of_lt {n : Nat} (below : (ofNat n).toNat < limit) : (ofNat n).toNat = n := by
  simp only [toNat_ofNat] at below ⊢
  omega

/-- A sum below the limit was not cut off. -/
theorem toNat_add_of_lt {a b : BitCount} (below : (a + b).toNat < limit) :
    (a + b).toNat = a.toNat + b.toNat := by
  simp only [toNat_add] at below ⊢
  omega

end BitCount

section Widths

variable {m n : Nat} {a b : Int}

theorem two_pow_le_of_le (wider : m ≤ n) : (2 : Int) ^ m ≤ 2 ^ n :=
  pow_le_pow_right₀ (by norm_num) wider

/-- More bits hold what fewer bits hold. -/
theorem FitsSigned.mono (fits : FitsSigned m a) (wider : m ≤ n) : FitsSigned n a := by
  have := two_pow_le_of_le wider
  unfold FitsSigned at *
  omega

/-- What lies between two values of a width has that width. -/
theorem FitsSigned.between {v : Int} (low : FitsSigned n a) (high : FitsSigned n b)
    (above : a ≤ v) (below : v ≤ b) : FitsSigned n v := by
  unfold FitsSigned at *
  omega

/-- A sum takes one bit more than the wider of its operands. -/
theorem FitsSigned.add (left : FitsSigned m a) (right : FitsSigned n b) :
    FitsSigned (max m n + 1) (a + b) := by
  have := left.mono (Nat.le_max_left m n)
  have := right.mono (Nat.le_max_right m n)
  unfold FitsSigned at *
  rw [pow_succ]
  omega

/-- A difference takes one bit more than the wider of its operands. -/
theorem FitsSigned.sub (left : FitsSigned m a) (right : FitsSigned n b) :
    FitsSigned (max m n + 1) (a - b) := by
  have := left.mono (Nat.le_max_left m n)
  have := right.mono (Nat.le_max_right m n)
  unfold FitsSigned at *
  rw [pow_succ]
  omega

/-- A product takes the bits of both operands. -/
theorem FitsSigned.mul (left : FitsSigned m a) (right : FitsSigned n b) :
    FitsSigned (m + n) (a * b) := by
  have left' : |2 * a| ≤ 2 ^ m := abs_le.mpr ⟨left.1, left.2.le⟩
  have right' : |2 * b| ≤ 2 ^ n := abs_le.mpr ⟨right.1, right.2.le⟩
  have product : |2 * a * (2 * b)| ≤ 2 ^ m * 2 ^ n := by
    rw [abs_mul]
    exact mul_le_mul left' right' (abs_nonneg _) (by positivity)
  obtain ⟨low, high⟩ := abs_le.mp product
  have positive : (0 : Int) < 2 ^ m * 2 ^ n := by positivity
  unfold FitsSigned
  rw [pow_add]
  constructor <;> linarith [mul_assoc 2 a (2 * b), mul_left_comm a 2 b]

/-- A truncated remainder lies between zero and the dividend. -/
theorem tmod_between (a b : Int) :
    (0 ≤ a.tmod b ∧ a.tmod b ≤ a) ∨ (a ≤ a.tmod b ∧ a.tmod b ≤ 0) := by
  have small : (a.tmod b).natAbs ≤ a.natAbs := by
    rw [Int.natAbs_tmod]
    exact Nat.mod_le _ _
  rcases Int.le_total 0 a with positive | negative
  · have := Int.tmod_nonneg b positive
    exact .inl ⟨this, by omega⟩
  · have := Int.tmod_nonneg b (Int.neg_nonneg.mpr negative)
    rw [Int.neg_tmod] at this
    exact .inr ⟨by omega, by omega⟩

/-- A truncated remainder is no wider than either operand. -/
theorem FitsSigned.rem (left : FitsSigned m a) (right : FitsSigned n b) (divisor : b ≠ 0) :
    FitsSigned (min m n) (a.tmod b) := by
  rcases Nat.le_total m n with narrow | narrow
  · rw [Nat.min_eq_left narrow]
    have := tmod_between a b
    unfold FitsSigned at *
    omega
  · rw [Nat.min_eq_right narrow]
    have small : (a.tmod b).natAbs < b.natAbs := by
      rw [Int.natAbs_tmod]
      exact Nat.mod_lt _ (Int.natAbs_pos.mpr divisor)
    unfold FitsSigned at *
    omega

/-- A shift to the left takes a bit for each place. -/
theorem FitsSigned.shl (fits : FitsSigned m a) (k : Nat) : FitsSigned (m + k) (a * 2 ^ k) := by
  have positive : (0 : Int) < 2 ^ k := by positivity
  unfold FitsSigned at *
  rw [pow_add]
  constructor <;> nlinarith

/-- A shift to the right keeps the sign bit, however far it goes. -/
theorem FitsSigned.shr (fits : FitsSigned m a) (k : Nat) :
    FitsSigned (max (m - k) 1) (a / 2 ^ k) := by
  obtain ⟨j, width⟩ : ∃ j, max (m - k) 1 = j + 1 := ⟨max (m - k) 1 - 1, by omega⟩
  have wide : FitsSigned (j + k + 1) a := fits.mono (by omega)
  have positive : (0 : Int) < 2 ^ k := by positivity
  have split : (2 : Int) ^ (j + k + 1) = 2 * (2 ^ j * 2 ^ k) := by ring
  have low : -2 ^ j * 2 ^ k ≤ a := by linarith [wide.1]
  have high : a < 2 ^ j * 2 ^ k := by linarith [wide.2]
  rw [width]
  unfold FitsSigned
  rw [pow_succ]
  constructor
  · linarith [(Int.le_ediv_iff_mul_le positive).mpr low]
  · linarith [(Int.ediv_lt_iff_lt_mul positive).mpr high]

theorem fitsUnsigned_flagValue (holds : Bool) : FitsUnsigned 1 (flagValue holds) := by
  cases holds <;> decide

/-- A literal fits its minimal width. -/
theorem fitsSigned_signedBits (v : Int) : FitsSigned (signedBits v) v := by
  unfold FitsSigned
  cases v with
  | ofNat k =>
    have bound : k < 2 ^ bitLength k := bitLength_le_iff.mp (Nat.le_refl _)
    have bound' : (k : Int) < 2 ^ bitLength k := by exact_mod_cast bound
    simp only [signedBits, pow_succ, Int.ofNat_eq_natCast]
    constructor <;> omega
  | negSucc k =>
    have bound : k < 2 ^ bitLength k := bitLength_le_iff.mp (Nat.le_refl _)
    have bound' : (k : Int) < 2 ^ bitLength k := by exact_mod_cast bound
    simp only [signedBits, pow_succ, Int.negSucc_eq]
    constructor <;> omega

end Widths

end IntervalHdl
