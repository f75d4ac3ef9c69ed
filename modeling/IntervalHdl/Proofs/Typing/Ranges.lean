import IntervalHdl.Proofs.Evaluation

/-!
# Widths that hold every exact result

For each arithmetic operator the number it computes is in the range of the width that its typing
rule gives, for unsigned and for signed operands alike (`Signedness.Fits`). The extremes that the
rules leave room for are the negation and the quotient of the most negative number, which need a
bit more than their operand.
-/

namespace IntervalHdl
set_option autoImplicit false

section Operations

variable {m n : Nat} {a b : Int}

/-- More bits hold what fewer bits hold. -/
theorem FitsUnsigned.mono (fits : FitsUnsigned m a) (wider : m ≤ n) : FitsUnsigned n a :=
  ⟨fits.1, fits.2.trans_le (two_pow_le_of_le wider)⟩

/-- What lies below an unsigned number of a width has that width. -/
theorem FitsUnsigned.below (fits : FitsUnsigned m a) (low : 0 ≤ b) (high : b ≤ a) :
    FitsUnsigned m b :=
  ⟨low, high.trans_lt fits.2⟩

/-- A sum of unsigned numbers takes one bit more than the wider of them. -/
theorem FitsUnsigned.add (left : FitsUnsigned m a) (right : FitsUnsigned n b) :
    FitsUnsigned (max m n + 1) (a + b) := by
  have left' := left.mono (Nat.le_max_left m n)
  have right' := right.mono (Nat.le_max_right m n)
  unfold FitsUnsigned at *
  rw [pow_succ]
  omega

/-- A product of unsigned numbers takes the bits of both. -/
theorem FitsUnsigned.mul (left : FitsUnsigned m a) (right : FitsUnsigned n b) :
    FitsUnsigned (m + n) (a * b) := by
  refine ⟨mul_nonneg left.1 right.1, ?_⟩
  rw [pow_add]
  exact mul_lt_mul'' left.2 right.2 left.1 right.1

/-- A quotient of unsigned numbers is no wider than the dividend. -/
theorem FitsUnsigned.div (left : FitsUnsigned m a) (right : FitsUnsigned n b) :
    FitsUnsigned m (a.tdiv b) := by
  rw [Int.tdiv_eq_ediv_of_nonneg left.1]
  exact left.below (Int.ediv_nonneg left.1 right.1) (Int.ediv_le_self b left.1)

/-- A remainder of unsigned numbers is as narrow as the narrower of the two. -/
theorem FitsUnsigned.rem (left : FitsUnsigned m a) (right : FitsUnsigned n b) (divisor : b ≠ 0) :
    FitsUnsigned (min m n) (a.tmod b) := by
  have positive : 0 < b := lt_of_le_of_ne right.1 divisor.symm
  have small := Int.emod_lt_of_pos a positive
  rw [Int.tmod_eq_emod_of_nonneg left.1]
  have nonneg := Int.emod_nonneg a divisor
  rcases Nat.le_total m n with narrow | narrow
  · rw [Nat.min_eq_left narrow]
    refine left.below nonneg ?_
    have := Int.ediv_nonneg left.1 right.1
    nlinarith [Int.emod_add_mul_ediv a b]
  · rw [Nat.min_eq_right narrow]
    exact right.below nonneg small.le

/-- A shift to the left takes a bit for each place. -/
theorem FitsUnsigned.shl (fits : FitsUnsigned m a) (k : Nat) :
    FitsUnsigned (m + k) (a * 2 ^ k) := by
  have positive : (0 : Int) < 2 ^ k := by positivity
  refine ⟨mul_nonneg fits.1 positive.le, ?_⟩
  rw [pow_add]
  exact mul_lt_mul_of_pos_right fits.2 positive

/-- A shift to the right gives up a bit for each place, down to one. -/
theorem FitsUnsigned.shr (fits : FitsUnsigned m a) (k : Nat) :
    FitsUnsigned (max (m - k) 1) (a / 2 ^ k) := by
  have positive : (0 : Int) < 2 ^ k := by positivity
  have wide : FitsUnsigned (max (m - k) 1 + k) a := fits.mono (by omega)
  refine ⟨Int.ediv_nonneg fits.1 positive.le, ?_⟩
  rw [Int.ediv_lt_iff_lt_mul positive, ← pow_add]
  exact wide.2

/-- An unsigned number is a signed one of one bit more. -/
theorem FitsUnsigned.signed (fits : FitsUnsigned m a) : FitsSigned (m + 1) a := by
  unfold FitsUnsigned at fits
  unfold FitsSigned
  rw [pow_succ]
  omega

/-- The negative of the least signed number takes one bit more. -/
theorem FitsSigned.neg (fits : FitsSigned m a) : FitsSigned (m + 1) (-a) := by
  unfold FitsSigned at *
  rw [pow_succ]
  omega

/-- The quotient of the most negative number by minus one needs the additional bit. -/
theorem FitsSigned.div (fits : FitsSigned m a) (b : Int) : FitsSigned (m + 1) (a.tdiv b) := by
  have small : (a.tdiv b).natAbs ≤ a.natAbs := by
    rw [Int.natAbs_tdiv]
    exact Nat.div_le_self _ _
  unfold FitsSigned at *
  rw [pow_succ]
  omega

/-- A residue modulo a power of two is an unsigned number of that many bits. -/
theorem fitsUnsigned_emod (n : Nat) (v : Int) : FitsUnsigned n (v % 2 ^ n) := by
  have positive : (0 : Int) < 2 ^ n := by positivity
  exact ⟨Int.emod_nonneg v positive.ne', Int.emod_lt_of_pos v positive⟩

/-- A cut to `n` unsigned bits leaves the signed reading of these bits as it is. -/
theorem emod_bmod_two_pow (v : Int) (n : Nat) : (v % 2 ^ n).bmod (2 ^ n) = v.bmod (2 ^ n) := by
  have := Int.emod_bmod v (2 ^ n)
  push_cast at this
  exact this

/-- The residue nearest to zero is a signed number of as many bits. -/
theorem fitsSigned_bmod (n : Nat) (v : Int) : FitsSigned n (v.bmod (2 ^ n)) := by
  have positive : 0 < 2 ^ n := by positivity
  have low := Int.le_bmod (x := v) positive
  have high := Int.bmod_lt (x := v) positive
  push_cast at low high
  unfold FitsSigned
  cases n with
  | zero => omega
  | succ k =>
    have power : (2 : Int) ^ (k + 1) = 2 ^ k * 2 := pow_succ 2 k
    omega

end Operations

/-- The value is one of the numbers of `n` bits, with or without a sign. -/
def Signedness.Fits : Signedness → Nat → Int → Prop
  | .unsigned, n, v => FitsUnsigned n v
  | .signed, n, v => FitsSigned n v

instance (s : Signedness) (n : Nat) (v : Int) : Decidable (s.Fits n v) :=
  match s with
  | .unsigned => inferInstanceAs (Decidable (FitsUnsigned n v))
  | .signed => inferInstanceAs (Decidable (FitsSigned n v))

namespace Signedness.Fits

variable {s : Signedness} {m n : Nat} {a b : Int}

theorem mono (fits : s.Fits m a) (wider : m ≤ n) : s.Fits n a := by
  cases s with
  | unsigned => exact FitsUnsigned.mono fits wider
  | signed => exact FitsSigned.mono fits wider

theorem add (left : s.Fits m a) (right : s.Fits n b) : s.Fits (max m n + 1) (a + b) := by
  cases s with
  | unsigned => exact FitsUnsigned.add left right
  | signed => exact FitsSigned.add left right

theorem mul (left : s.Fits m a) (right : s.Fits n b) : s.Fits (m + n) (a * b) := by
  cases s with
  | unsigned => exact FitsUnsigned.mul left right
  | signed => exact FitsSigned.mul left right

/-- A remainder is as narrow as the narrower of the two. -/
theorem rem (left : s.Fits m a) (right : s.Fits n b) (divisor : b ≠ 0) :
    s.Fits (min m n) (a.tmod b) := by
  cases s with
  | unsigned => exact FitsUnsigned.rem left right divisor
  | signed => exact FitsSigned.rem left right divisor

theorem shl (fits : s.Fits m a) (k : Nat) : s.Fits (m + k) (a * 2 ^ k) := by
  cases s with
  | unsigned => exact FitsUnsigned.shl fits k
  | signed => exact FitsSigned.shl fits k

theorem shr (fits : s.Fits m a) (k : Nat) : s.Fits (max (m - k) 1) (a / 2 ^ k) := by
  cases s with
  | unsigned => exact FitsUnsigned.shr fits k
  | signed => exact FitsSigned.shr fits k

/-- Only zero has no bits. -/
theorem eq_zero (fits : s.Fits 0 a) : a = 0 := by
  cases s with
  | unsigned =>
    have := fits.1
    have := fits.2
    omega
  | signed =>
    have := fits.1
    have := fits.2
    omega

theorem zero (s : Signedness) (n : Nat) : s.Fits n 0 := by
  have positive : (0 : Int) < 2 ^ n := by positivity
  cases s with
  | unsigned => exact ⟨Int.le_refl 0, positive⟩
  | signed => exact ⟨by omega, by omega⟩

/-- A shift to the right by a computed amount keeps the width. -/
theorem dshr (fits : s.Fits m a) (k : Nat) : s.Fits m (a / 2 ^ k) := by
  rcases Nat.eq_zero_or_pos m with rfl | positive
  · rw [fits.eq_zero, Int.zero_ediv]
    exact zero s 0
  · exact (fits.shr k).mono (by omega)

/-- A shift to the left by an amount of `n` bits. -/
theorem dshl (fits : s.Fits m a) (amount : FitsUnsigned n b) :
    s.Fits (m + (2 ^ n - 1)) (a * 2 ^ b.toNat) := by
  have bound : b.toNat < 2 ^ n := by
    have := amount.2
    have := amount.1
    zify
    omega
  exact (fits.shl b.toNat).mono (by omega)

/-- The sign of a converted number takes a bit where there was none. -/
theorem signed (fits : s.Fits m a) : FitsSigned (m + 1) a := by
  cases s with
  | unsigned => exact FitsUnsigned.signed fits
  | signed => exact FitsSigned.mono fits (Nat.le_succ m)

/-- The negative of a number of either sign takes one bit more. -/
theorem neg (fits : s.Fits m a) : FitsSigned (m + 1) (-a) := by
  cases s with
  | unsigned =>
    have := fits.1
    have := fits.2
    unfold FitsSigned
    rw [pow_succ]
    omega
  | signed => exact FitsSigned.neg fits

end Signedness.Fits

namespace Ty

/-- The values of an integer type of known width are the numbers of its bits. -/
theorem holds_known_iff {s : Signedness} {w : BitCount} {v : Int} :
    (s.ty (.known w)).Holds v ↔ s.Fits w.toNat v := by
  cases s <;> exact Iff.rfl

/-- A width that was not cut off holds what has that many bits. -/
theorem holds_sum {s : Signedness} {m n : BitCount} {v : Int} (fits : s.Fits (m.toNat + n.toNat) v)
    (uncut : m.toNat + n.toNat ≤ BitCount.limit) : (s.ty (.known (m + n))).Holds v := by
  rw [holds_known_iff, BitCount.toNat_add, Nat.min_eq_left uncut]
  exact fits

/-- What is cut to a type is in its range. -/
theorem holds_fit (t : Ty) (v : Int) : t.Holds (t.fit v) := by
  match t with
  | .uint (.known w) => exact fitsUnsigned_emod w.toNat v
  | .sint (.known w) => exact fitsSigned_bmod w.toNat v
  | .uint .unknown | .sint .unknown | .interval _ | .clock | .bundle _ | .vector _ _ | .unknown =>
    trivial

/-- The number of bits of an integer type, none where it is unknown. -/
def size (t : Ty) : Nat :=
  match t.width with
  | .known n => n.toNat
  | .unknown => 0

@[simp] theorem size_known (s : Signedness) (n : BitCount) : (s.ty (.known n)).size = n.toNat := by
  cases s <;> rfl

/-- An integer type has a known width. -/
def IsSized (t : Ty) : Prop := ∀ (s : Signedness) (w : Width), t = s.ty w → ∃ n, w = .known n

end Ty

namespace Operator

/-- The operators that compute a number and have a width for it. The difference of unsigned numbers
is none: below zero it wraps around. -/
def isArithmetic (op : Operator) (ty : Ty) : Bool :=
  match op with
  | .add | .mul | .div | .rem | .lt | .leq | .gt | .geq | .eq | .neq | .pad | .shl | .shr | .dshl
  | .dshr | .cvt | .neg => true
  | .sub => match ty with
    | .sint _ => true
    | _ => false
  | _ => false

/-- The number that an arithmetic operator computes. Quotients truncate toward zero, as remainders
do. -/
def arithmetic? (op : Operator) (vals : List Int) (consts : List Int) (ty : Ty) : Option Int :=
  match op, vals, consts with
  | .div, [a, b], [] => some (a.tdiv b)
  | .dshl, [a, b], [] => some (a * 2 ^ b.toNat)
  | .dshr, [a, b], [] => some (a / 2 ^ b.toNat)
  | .cvt, [a], [] => some a
  | .neg, [a], [] => some (-a)
  | op, vals, consts => op.result? vals consts ty

/-- The width that the typing rule of an arithmetic operator computes, before it is cut off at the
greatest bit count. The rules that are left out add nothing to the widths of the operands. -/
def uncutWidth (op : Operator) (tys : List Ty) (consts : List Int) : Nat :=
  match op, tys, consts with
  | .add, [a, b], [] | .sub, [a, b], [] => max a.size b.size + 1
  | .mul, [a, b], [] => a.size + b.size
  | .div, [.sint w, _], [] => (Ty.sint w).size + 1
  | .shl, [a], [n] => a.size + n.toNat
  | .dshl, [a, b], [] => a.size + (2 ^ b.size - 1)
  | .cvt, [.uint w], [] => (Ty.uint w).size + 1
  | .neg, [a], [] => a.size + 1
  | _, _, _ => 0

section Ranges

variable {args : List Expr} {vals consts : List Int} {ty : Ty}

/-- Each operand has a value in the range of its type. -/
abbrev Operands (args : List Expr) (vals : List Int) : Prop :=
  List.Forall₂ (fun a v => a.ty.IsSized ∧ a.ty.Holds v) args vals

/-- One operand of an integer type has a value of its width. -/
theorem single_of_operands {a : Expr} {s : Signedness} {w : Width} (operands : Operands [a] vals)
    (typed : a.ty = s.ty w) : ∃ x m, vals = [x] ∧ w = .known m ∧ s.Fits m.toNat x := by
  obtain ⟨x, xs, ⟨sized, fits⟩, tail, rfl⟩ := List.forall₂_cons_left_iff.mp operands
  cases tail
  obtain ⟨m, rfl⟩ := sized s w typed
  rw [typed, Ty.holds_known_iff] at fits
  exact ⟨x, m, rfl, rfl, fits⟩

/-- Two operands of integer types have values of their widths. -/
theorem pair_of_operands {a b : Expr} {s r : Signedness} {w v : Width}
    (operands : Operands [a, b] vals) (left : a.ty = s.ty w) (right : b.ty = r.ty v) :
    ∃ x y m n, vals = [x, y] ∧ w = .known m ∧ v = .known n ∧ s.Fits m.toNat x ∧
      r.Fits n.toNat y := by
  obtain ⟨x, xs, head, tail, rfl⟩ := List.forall₂_cons_left_iff.mp operands
  obtain ⟨_, m, same, known, fits⟩ := single_of_operands (.cons head .nil) left
  obtain ⟨y, n, rfl, known', fits'⟩ := single_of_operands tail right
  cases same
  exact ⟨_, y, m, n, rfl, known, known', fits, fits'⟩

/-- The result of an arithmetic operator exists and is in the range of its type. -/
def Holds (op : Operator) (vals consts : List Int) (ty : Ty) : Prop :=
  ∃ v, op.arithmetic? vals consts ty = some v ∧ ty.Holds v

/-- The rule of sums gives room for the carry. -/
theorem holds_add (typed : resultTy .add args consts = .ok ty)
    (uncut : uncutWidth .add (args.map Expr.ty) consts ≤ BitCount.limit)
    (operands : Operands args vals) : Holds .add vals consts ty := by
  simp only [resultTy, binary_eq_ok_iff, bind_eq_ok_iff, sameSign_eq_ok_iff, pure_eq_ok_iff]
    at typed
  obtain ⟨a, b, rfl, rfl, ⟨s, wa, wb⟩, ⟨left, right⟩, rfl⟩ := typed
  obtain ⟨x, y, m, n, rfl, rfl, rfl, fits, fits'⟩ := pair_of_operands operands left right
  simp only [List.map_cons, List.map_nil, uncutWidth, left, right, Ty.size_known] at uncut
  have sum := fits.add fits'
  rw [← BitCount.toNat_max] at uncut sum
  exact ⟨x + y, rfl, Ty.holds_sum sum uncut⟩

/-- The rule of differences gives room for the borrow of signed numbers. -/
theorem holds_sub (typed : resultTy .sub args consts = .ok ty)
    (arithmetic : isArithmetic .sub ty = true)
    (uncut : uncutWidth .sub (args.map Expr.ty) consts ≤ BitCount.limit)
    (operands : Operands args vals) : Holds .sub vals consts ty := by
  simp only [resultTy, binary_eq_ok_iff, bind_eq_ok_iff, sameSign_eq_ok_iff, pure_eq_ok_iff]
    at typed
  obtain ⟨a, b, rfl, rfl, ⟨s, wa, wb⟩, ⟨left, right⟩, rfl⟩ := typed
  obtain ⟨x, y, m, n, rfl, rfl, rfl, fits, fits'⟩ := pair_of_operands operands left right
  simp only [List.map_cons, List.map_nil, uncutWidth, left, right, Ty.size_known] at uncut
  cases s with
  | unsigned => cases arithmetic
  | signed =>
    have difference := FitsSigned.sub fits fits'
    rw [← BitCount.toNat_max] at uncut difference
    exact ⟨x - y, rfl, Ty.holds_sum (s := .signed) difference uncut⟩

/-- The rule of products gives room for both operands. -/
theorem holds_mul (typed : resultTy .mul args consts = .ok ty)
    (uncut : uncutWidth .mul (args.map Expr.ty) consts ≤ BitCount.limit)
    (operands : Operands args vals) : Holds .mul vals consts ty := by
  simp only [resultTy, binary_eq_ok_iff, bind_eq_ok_iff, sameSign_eq_ok_iff, pure_eq_ok_iff]
    at typed
  obtain ⟨a, b, rfl, rfl, ⟨s, wa, wb⟩, ⟨left, right⟩, rfl⟩ := typed
  obtain ⟨x, y, m, n, rfl, rfl, rfl, fits, fits'⟩ := pair_of_operands operands left right
  simp only [List.map_cons, List.map_nil, uncutWidth, left, right, Ty.size_known] at uncut
  exact ⟨x * y, rfl, Ty.holds_sum (fits.mul fits') uncut⟩

/-- The rule of quotients gives signed numbers the bit that the least one needs. -/
theorem holds_div (typed : resultTy .div args consts = .ok ty)
    (uncut : uncutWidth .div (args.map Expr.ty) consts ≤ BitCount.limit)
    (operands : Operands args vals) : Holds .div vals consts ty := by
  simp only [resultTy, binary_eq_ok_iff, bind_eq_ok_iff, sameSign_eq_ok_iff, pure_eq_ok_iff]
    at typed
  obtain ⟨a, b, rfl, rfl, ⟨s, wa, wb⟩, ⟨left, right⟩, rfl⟩ := typed
  obtain ⟨x, y, m, n, rfl, rfl, rfl, fits, fits'⟩ := pair_of_operands operands left right
  refine ⟨x.tdiv y, rfl, ?_⟩
  cases s with
  | unsigned => exact FitsUnsigned.div fits fits'
  | signed =>
    simp only [List.map_cons, List.map_nil, left, Signedness.ty_signed, uncutWidth] at uncut
    exact Ty.holds_sum (s := .signed) (n := .ofNat 1) (FitsSigned.div fits y) uncut

/-- The rule of remainders takes the narrower operand's width, which suffices unless the divisor is
zero. -/
theorem holds_rem (typed : resultTy .rem args consts = .ok ty)
    (divisor : ∀ x y, vals = [x, y] → y ≠ 0) (operands : Operands args vals) :
    Holds .rem vals consts ty := by
  simp only [resultTy, binary_eq_ok_iff, bind_eq_ok_iff, sameSign_eq_ok_iff, pure_eq_ok_iff]
    at typed
  obtain ⟨a, b, rfl, rfl, ⟨s, wa, wb⟩, ⟨left, right⟩, rfl⟩ := typed
  obtain ⟨x, y, m, n, rfl, rfl, rfl, fits, fits'⟩ := pair_of_operands operands left right
  refine ⟨x.tmod y, rfl, ?_⟩
  rw [Width.min_known, Ty.holds_known_iff, BitCount.toNat_min]
  exact fits.rem fits' (divisor x y rfl)

/-- A comparison gives a flag of one bit. -/
theorem holds_comparison {op : Operator}
    (rule : op.resultTy args consts = op.binary args consts fun a b => do
      let _ ← op.sameSign a b
      return .uint (.known (.ofNat 1)))
    (flags : ∀ x y : Int, ∃ holds, op.arithmetic? [x, y] [] ty = some (flagValue holds))
    (typed : op.resultTy args consts = .ok ty) (operands : Operands args vals) :
    op.Holds vals consts ty := by
  rw [rule] at typed
  simp only [binary_eq_ok_iff, bind_eq_ok_iff, sameSign_eq_ok_iff, pure_eq_ok_iff] at typed
  obtain ⟨a, b, rfl, rfl, ⟨s, wa, wb⟩, ⟨left, right⟩, rfl⟩ := typed
  obtain ⟨x, y, m, n, rfl, rfl, rfl, -, -⟩ := pair_of_operands operands left right
  obtain ⟨holds, value⟩ := flags x y
  exact ⟨_, value, fitsUnsigned_flagValue holds⟩

/-- A padded number is as wide as before or wider. -/
theorem holds_pad (typed : resultTy .pad args consts = .ok ty) (operands : Operands args vals) :
    Holds .pad vals consts ty := by
  simp only [resultTy, unaryBy_eq_ok_iff, bind_eq_ok_iff, integer_eq_ok_iff, pure_eq_ok_iff]
    at typed
  obtain ⟨a, n, rfl, rfl, ⟨s, w⟩, integer, rfl⟩ := typed
  obtain ⟨x, m, rfl, rfl, fits⟩ := single_of_operands operands integer
  refine ⟨x, rfl, ?_⟩
  rw [Width.max_known, Ty.holds_known_iff, BitCount.toNat_max]
  exact fits.mono (Nat.le_max_left m.toNat n.toNat)

/-- The rule of shifts to the left gives a bit for each place. -/
theorem holds_shl (typed : resultTy .shl args consts = .ok ty)
    (uncut : uncutWidth .shl (args.map Expr.ty) consts ≤ BitCount.limit)
    (operands : Operands args vals) : Holds .shl vals consts ty := by
  simp only [resultTy, unaryBy_eq_ok_iff, bind_eq_ok_iff, integer_eq_ok_iff, pure_eq_ok_iff]
    at typed
  obtain ⟨a, n, rfl, rfl, ⟨s, w⟩, integer, rfl⟩ := typed
  obtain ⟨x, m, rfl, rfl, fits⟩ := single_of_operands operands integer
  simp only [List.map_cons, List.map_nil, uncutWidth, integer, Ty.size_known,
    Int.toNat_natCast] at uncut
  exact ⟨x * 2 ^ n.toNat, rfl, Ty.holds_sum (fits.shl n.toNat) uncut⟩

/-- The rule of shifts to the right keeps at least one bit. -/
theorem holds_shr (typed : resultTy .shr args consts = .ok ty) (operands : Operands args vals) :
    Holds .shr vals consts ty := by
  simp only [resultTy, unaryBy_eq_ok_iff, bind_eq_ok_iff, integer_eq_ok_iff, pure_eq_ok_iff]
    at typed
  obtain ⟨a, n, rfl, rfl, ⟨s, w⟩, integer, rfl⟩ := typed
  obtain ⟨x, m, rfl, rfl, fits⟩ := single_of_operands operands integer
  refine ⟨x / 2 ^ n.toNat, rfl, ?_⟩
  rw [Width.minus_known, Ty.holds_known_iff, BitCount.toNat_max, BitCount.toNat_sub,
    BitCount.toNat_ofNat_one]
  exact fits.shr n.toNat

/-- A shift to the left by a value has room for the greatest amount of its width. -/
theorem holds_dshl (typed : resultTy .dshl args consts = .ok ty)
    (uncut : uncutWidth .dshl (args.map Expr.ty) consts ≤ BitCount.limit)
    (operands : Operands args vals) : Holds .dshl vals consts ty := by
  simp only [resultTy, binary_eq_ok_iff, bind_eq_ok_iff, integer_eq_ok_iff, shiftWidth_eq_ok_iff,
    pure_eq_ok_iff, ← Signedness.ty_unsigned] at typed
  obtain ⟨a, b, rfl, rfl, ⟨s, wa⟩, left, wb, right, rfl⟩ := typed
  obtain ⟨x, y, m, n, rfl, rfl, rfl, fits, amount⟩ := pair_of_operands operands left right
  simp only [List.map_cons, List.map_nil, uncutWidth, left, right, Ty.size_known] at uncut
  refine ⟨x * 2 ^ y.toNat, rfl, ?_⟩
  -- an amount of 32 bits can only shift zero without a cut
  rcases Nat.eq_zero_or_pos m.toNat with none | some
  · rw [none] at fits
    rw [fits.eq_zero, Int.zero_mul]
    exact Ty.holds_known_iff.mpr (Signedness.Fits.zero s _)
  · have small : n.toNat < 32 := by
      by_contra large
      have : 2 ^ 32 ≤ 2 ^ n.toNat := Nat.pow_le_pow_right (by decide) (by omega)
      unfold BitCount.limit at uncut
      omega
    have most : (largestShift n).toNat = 2 ^ n.toNat - 1 := by
      simp only [largestShift, if_pos small, BitCount.toNat_ofNat]
      omega
    have shifted := fits.dshl amount
    rw [← most] at uncut shifted
    exact Ty.holds_sum shifted uncut

/-- A shift to the right by a value keeps the width. -/
theorem holds_dshr (typed : resultTy .dshr args consts = .ok ty) (operands : Operands args vals) :
    Holds .dshr vals consts ty := by
  simp only [resultTy, binary_eq_ok_iff, bind_eq_ok_iff, integer_eq_ok_iff, shiftWidth_eq_ok_iff,
    pure_eq_ok_iff, ← Signedness.ty_unsigned] at typed
  obtain ⟨a, b, rfl, rfl, ⟨s, wa⟩, left, wb, right, rfl⟩ := typed
  obtain ⟨x, y, m, n, rfl, rfl, rfl, fits, -⟩ := pair_of_operands operands left right
  refine ⟨x / 2 ^ y.toNat, rfl, ?_⟩
  rw [Ty.holds_known_iff]
  exact fits.dshr y.toNat

/-- A conversion to a signed number adds a bit where there was no sign. -/
theorem holds_cvt (typed : resultTy .cvt args consts = .ok ty)
    (uncut : uncutWidth .cvt (args.map Expr.ty) consts ≤ BitCount.limit)
    (operands : Operands args vals) : Holds .cvt vals consts ty := by
  simp only [resultTy, unary_eq_ok_iff, bind_eq_ok_iff, integer_eq_ok_iff, pure_eq_ok_iff] at typed
  obtain ⟨a, rfl, rfl, ⟨s, w⟩, integer, rfl⟩ := typed
  obtain ⟨x, m, rfl, rfl, fits⟩ := single_of_operands operands integer
  refine ⟨x, rfl, ?_⟩
  cases s with
  | signed => exact fits
  | unsigned =>
    simp only [List.map_cons, List.map_nil, integer, Signedness.ty_unsigned, uncutWidth] at uncut
    exact Ty.holds_sum (s := .signed) (n := .ofNat 1) fits.signed uncut

/-- The rule of negatives adds a bit. -/
theorem holds_neg (typed : resultTy .neg args consts = .ok ty)
    (uncut : uncutWidth .neg (args.map Expr.ty) consts ≤ BitCount.limit)
    (operands : Operands args vals) : Holds .neg vals consts ty := by
  simp only [resultTy, unary_eq_ok_iff, bind_eq_ok_iff, integer_eq_ok_iff, pure_eq_ok_iff] at typed
  obtain ⟨a, rfl, rfl, ⟨s, w⟩, integer, rfl⟩ := typed
  obtain ⟨x, m, rfl, rfl, fits⟩ := single_of_operands operands integer
  simp only [List.map_cons, List.map_nil, uncutWidth, integer, Ty.size_known] at uncut
  exact ⟨-x, rfl, Ty.holds_sum (s := .signed) (n := .ofNat 1) fits.neg uncut⟩

/-- Whatever an arithmetic operator computes is in the range of the type that it is given. -/
theorem holds_of_resultTy {op : Operator} (typed : op.resultTy args consts = .ok ty)
    (arithmetic : op.isArithmetic ty = true)
    (uncut : op.uncutWidth (args.map Expr.ty) consts ≤ BitCount.limit)
    (divisor : op = .rem → ∀ x y, vals = [x, y] → y ≠ 0) (operands : Operands args vals) :
    op.Holds vals consts ty := by
  cases op with
  | add => exact holds_add typed uncut operands
  | sub => exact holds_sub typed arithmetic uncut operands
  | mul => exact holds_mul typed uncut operands
  | div => exact holds_div typed uncut operands
  | rem => exact holds_rem typed (divisor rfl) operands
  | lt | leq | gt | geq | eq | neq =>
    exact holds_comparison rfl (fun x y => ⟨_, rfl⟩) typed operands
  | pad => exact holds_pad typed operands
  | shl => exact holds_shl typed uncut operands
  | shr => exact holds_shr typed operands
  | dshl => exact holds_dshl typed uncut operands
  | dshr => exact holds_dshr typed operands
  | cvt => exact holds_cvt typed uncut operands
  | neg => exact holds_neg typed uncut operands
  | asUInt | asSInt | not | and | or | xor | andr | orr | xorr | cat | bits | head | tail
  | asInterval | incp | decp | setp | wrap | clip => cases arithmetic

end Ranges

end Operator

end IntervalHdl
