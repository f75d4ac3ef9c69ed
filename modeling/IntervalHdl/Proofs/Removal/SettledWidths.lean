import IntervalHdl.Proofs.Alignment.Steps
import IntervalHdl.Proofs.Lowering.Steps
import IntervalHdl.Proofs.Removal.RangeChecks
import IntervalHdl.Proofs.Removal.Occurrences
import IntervalHdl.Proofs.Typing.Values

/-!
# The widths that inference settles

Lowered interval arithmetic is typed bottom-up, by the rules of the operators that it is made of:
the width of a sum does not look at the range that the sum is recorded in. `Expr.settledWidth` is
the width that comes out, read off an aligned expression, and `Expr.Encodes` the integer that stands
for its value. Both are what the lowered expression has (`Expr.IntervalArithmetic.settles`).
-/

namespace IntervalHdl
set_option autoImplicit false

open Reported

/-- The width that inference gives a saturation of a value of width `w`. -/
def SaturateAction.settledWidth (c : RangeCheck) (w : BitCount) : SaturateAction → BitCount
  | .passThrough => w
  | .clampLow => max (signedWidth c.lo) w
  | .clampHigh => max (signedWidth c.hi) w
  | .clampBoth => max (signedWidth c.hi) (max (signedWidth c.lo) w)

/-- The width that inference gives a wrap of a value of width `w`. A remainder is as wide as the
target range needs, whatever the value. -/
def WrapAction.settledWidth (c : RangeCheck) (w : BitCount) : WrapAction → BitCount
  | .passThrough => w
  | .correctLow | .correctHigh | .correctBoth => max w (signedWidth c.size) + .ofNat 1
  | .remainder => max (signedWidth c.size + .ofNat 1) (signedWidth c.lo) + .ofNat 1

/-- The encodings of the range that a wrap bound of this type stands for; a signed width stands for
none. -/
def Ty.wrapRange? : Ty → Option (Int × Int)
  | .uint (.known w) => some (0, 2 ^ w.toNat - 1)
  | .interval t => t.encodings?
  | _ => none

/-- The computed range of a wrap bound is the one that the relation gives. -/
theorem Ty.wrapRange?_eq_some_iff {t : Ty} {lo hi : Int} :
    t.wrapRange? = some (lo, hi) ↔ t.WrapRange lo hi := by
  constructor
  · intro range
    unfold wrapRange? at range
    split at range
    · cases range
      exact .uint _
    · exact .interval range
    · cases range
  · intro range
    cases range with
    | uint => rfl
    | interval ends => exact ends

/-- The check of a value of the second type against a target range. -/
def RangeCheck.of? (target : Option (Int × Int)) (incoming : Ty) : Option RangeCheck := do
  let (lo, hi) ← target
  let (inLo, inHi) ← incoming.interval?.bind Interval.encodings?
  return ⟨lo, hi, inLo, inHi⟩

/-- A check exists where the target has a range and the incoming type is an interval with encodings.
-/
theorem RangeCheck.of?_eq_some_iff {target : Option (Int × Int)} {incoming : Ty} {c : RangeCheck} :
    of? target incoming = some c ↔ target = some (c.lo, c.hi) ∧
      ∃ t, incoming = .interval t ∧ t.encodings? = some (c.inLo, c.inHi) := by
  obtain ⟨lo, hi, inLo, inHi⟩ := c
  simp only [of?, bind, pure, Option.bind_eq_some_iff, Ty.interval?_eq_some_iff, Option.some.injEq,
    mk.injEq, Prod.exists]
  constructor
  · rintro ⟨_, _, rfl, _, _, ⟨t, rfl, ends⟩, rfl, rfl, rfl, rfl⟩
    exact ⟨rfl, t, rfl, ends⟩
  · rintro ⟨rfl, t, rfl, ends⟩
    exact ⟨_, _, rfl, _, _, ⟨t, rfl, ends⟩, rfl, rfl, rfl, rfl⟩

/-- The range of an operand is that of the encodings of its interval. -/
theorem Operator.operandRange_eq_ok_iff {op : Operator} {ty : Ty} {lo hi : Int} :
    op.operandRange ty = .ok (lo, hi) ↔ ∃ t, ty = .interval t ∧ t.encodings? = some (lo, hi) := by
  unfold operandRange
  split
  · rw [Interval.resolved_eq_ok_iff]
    simp
  · rename_i other
    simp only [reduceCtorEq, false_iff]
    rintro ⟨t, rfl, -⟩
    exact other t rfl

namespace Expr

/-- The width that inference gives the lowered form of aligned interval arithmetic, over the
declarations of a lowered scope. -/
def settledWidth (s : Scope) : Expr → BitCount
  | .ref name _ =>
    match s.lookup name with
    | some (.sint (.known w)) => w
    | _ => .ofNat 0
  | .prim .add [a, b] _ _ | .prim .sub [a, b] _ _ =>
    max (a.settledWidth s) (b.settledWidth s) + .ofNat 1
  | .prim .mul [a, b] _ _ => a.settledWidth s + b.settledWidth s
  | .prim .incp [a] [n] _ => a.settledWidth s + .ofNat n.toNat
  | .prim .decp [a] [n] _ => max (a.settledWidth s - .ofNat n.toNat) (.ofNat 1)
  | .prim .clip [a, _] _ ty =>
    match RangeCheck.of? (ty.interval?.bind Interval.encodings?) a.ty with
    | some check => (SaturateAction.decide check).settledWidth check (a.settledWidth s)
    | none => .ofNat 0
  | .prim .wrap [a, b] _ _ =>
    match b.ty with
    | .sint (.known n) => n
    | bound =>
      match RangeCheck.of? bound.wrapRange? a.ty with
      | some check => (WrapAction.decide check).settledWidth check (a.settledWidth s)
      | none => .ofNat 0
  | .mux _ tval fval _ => max (tval.settledWidth s) (fval.settledWidth s)
  | _ => .ofNat 0

/-- Interval arithmetic over names that a lowered scope declares as signed integers: sums,
differences, products, selections, moves of the binary point, saturations and wraps. Conditions, and
the second operands of saturations and wraps, are any expressions. -/
inductive IntervalArithmetic (s : Scope) : Expr → Prop where
  | ref {name : String} {w : BitCount} (t : Interval)
    (declared : s.lookup name = some (.sint (.known w))) :
    IntervalArithmetic s (.ref name (.interval t))
  | combine {op : Operator} {a b : Expr} (t : Interval) (kind : op = .add ∨ op = .sub ∨ op = .mul)
    (left : IntervalArithmetic s a) (right : IntervalArithmetic s b) :
    IntervalArithmetic s (.prim op [a, b] [] (.interval t))
  | move {op : Operator} {a : Expr} (n : BitCount) (t : Interval) (kind : op = .incp ∨ op = .decp)
    (arg : IntervalArithmetic s a) :
    IntervalArithmetic s (.prim op [a] [(n.toNat : Int)] (.interval t))
  | setp {a : Expr} (consts : List Int) (t : Interval) (arg : IntervalArithmetic s a) :
    IntervalArithmetic s (.prim .setp [a] consts (.interval t))
  | confine {op : Operator} {a : Expr} (range : Expr) (consts : List Int) (t : Interval)
    (kind : op = .clip ∨ op = .wrap) (arg : IntervalArithmetic s a) :
    IntervalArithmetic s (.prim op [a, range] consts (.interval t))
  | mux {tval fval : Expr} (cond : Expr) (t : Interval) (left : IntervalArithmetic s tval)
    (right : IntervalArithmetic s fval) : IntervalArithmetic s (.mux cond tval fval (.interval t))

/-- The integer that stands for the value of aligned interval arithmetic. Names stand for given
integers, conditions for given flags. A saturation or a wrap has a value where its operand is in its
recorded range. -/
inductive Encodes (flag : Expr → Int → Prop) (read : String → Int) : Expr → Int → Prop where
  | ref (name : String) (ty : Ty) : Encodes flag read (.ref name ty) (read name)
  | add {a b : Expr} {x y : Int} (consts : List Int) (ty : Ty) (left : Encodes flag read a x)
    (right : Encodes flag read b y) : Encodes flag read (.prim .add [a, b] consts ty) (x + y)
  | sub {a b : Expr} {x y : Int} (consts : List Int) (ty : Ty) (left : Encodes flag read a x)
    (right : Encodes flag read b y) : Encodes flag read (.prim .sub [a, b] consts ty) (x - y)
  | mul {a b : Expr} {x y : Int} (consts : List Int) (ty : Ty) (left : Encodes flag read a x)
    (right : Encodes flag read b y) : Encodes flag read (.prim .mul [a, b] consts ty) (x * y)
  | incp {a : Expr} {x : Int} (n : Int) (ty : Ty) (arg : Encodes flag read a x) :
    Encodes flag read (.prim .incp [a] [n] ty) (x * 2 ^ n.toNat)
  | decp {a : Expr} {x : Int} (n : Int) (ty : Ty) (arg : Encodes flag read a x) :
    Encodes flag read (.prim .decp [a] [n] ty) (x / 2 ^ n.toNat)
  | clip {a range : Expr} {t : Interval} {check : RangeCheck} {x : Int} (consts : List Int)
    (found : RangeCheck.of? t.encodings? a.ty = some check) (ordered : check.lo ≤ check.hi)
    (arg : Encodes flag read a x) (low : check.inLo ≤ x) (high : x ≤ check.inHi) :
    Encodes flag read (.prim .clip [a, range] consts (.interval t))
      (max check.lo (min check.hi x))
  | wrap {a range : Expr} {check : RangeCheck} {x : Int} (consts : List Int) (ty : Ty)
    (found : RangeCheck.of? range.ty.wrapRange? a.ty = some check) (ordered : check.lo ≤ check.hi)
    (arg : Encodes flag read a x) (low : check.inLo ≤ x) (high : x ≤ check.inHi) :
    Encodes flag read (.prim .wrap [a, range] consts ty)
      (check.lo + (x - check.lo) % check.size)
  | wrapWidth {a range : Expr} {n : BitCount} {x : Int} (consts : List Int) (ty : Ty)
    (signed : range.ty = .sint (.known n)) (arg : Encodes flag read a x) :
    Encodes flag read (.prim .wrap [a, range] consts ty) (x.bmod (2 ^ n.toNat))
  | mux {c a b : Expr} {k x y : Int} (ty : Ty) (cond : flag c k) (left : Encodes flag read a x)
    (right : Encodes flag read b y) :
    Encodes flag read (.mux c a b ty) (if k = 0 then y else x)

end Expr

/-! ## Alignment keeps interval arithmetic -/

theorem Operator.repoint_interval (op : Operator) (p : BitCount) (t : Interval) :
    ∃ t', op.repoint p (.interval t) = .interval t' := by
  unfold repoint
  split <;> exact ⟨_, rfl⟩

namespace Expr

/-- An aligned operator is the operator over operands that may have been moved. -/
theorem NodeAligned.operands {op : Operator} {args : List Expr} {consts : List Int} {t : Interval}
    {e' : Expr} (stays : op ≠ .setp)
    (aligned : NodeAligned (.prim op args consts (.interval t)) e') :
    ∃ args' t', e' = .prim op args' consts (.interval t') ∧
      List.Forall₂ (fun a a' => a' = a ∨ ∃ p, Rescaled p a a') args args' := by
  cases aligned with
  | setp => exact (stays rfl).elim
  | @meet _ _ args' points _ _ _ _ moved =>
    obtain ⟨t', repointed⟩ := op.repoint_interval (commonPoint points) t
    exact ⟨args', t', by rw [repointed], moved.imp fun _ _ moved => .inr ⟨_, moved⟩⟩
  | keep => exact ⟨args, t, rfl, List.forall₂_same.mpr fun _ _ => .inl rfl⟩
  | other plain => cases plain

theorem Rebuilt.prim_left {R : Expr → Expr → Prop} {op : Operator} {args : List Expr}
    {consts : List Int} {ty : Ty} {node : Expr}
    (rebuilt : Rebuilt R (.prim op args consts ty) node) :
    ∃ args', List.Forall₂ R args args' ∧ node = .prim op args' consts ty := by
  cases rebuilt with
  | prim _ _ _ args => exact ⟨_, args, rfl⟩

/-- An operator is aligned when its operands are and then the node over them. -/
theorem align_prim_eq_ok_iff {op : Operator} {args : List Expr} {consts : List Int} {ty : Ty}
    {e' : Expr} :
    (Expr.prim op args consts ty).align.outcome = .ok e' ↔
      ∃ args', List.Forall₂ (fun a a' => a.align.outcome = .ok a') args args' ∧
        NodeAligned (.prim op args' consts ty) e' := by
  rw [align_eq_ok_iff]
  constructor
  · rintro ⟨_, rebuilt, aligned⟩
    obtain ⟨args', each, rfl⟩ := rebuilt.prim_left
    exact ⟨args', each, aligned⟩
  · rintro ⟨args', each, aligned⟩
    exact ⟨_, .prim op consts ty each, aligned⟩

/-- What remains of a setting of the point is its operand at that point. -/
theorem align_setp_eq_ok {a e' : Expr} {consts : List Int} {ty : Ty}
    (done : (Expr.prim .setp [a] consts ty).align.outcome = .ok e') :
    ∃ a' p, a.align.outcome = .ok a' ∧ consts.head?.bind BitCount.ofInt? = some p ∧
      Rescaled p a' e' := by
  obtain ⟨_, args, aligned⟩ := align_prim_eq_ok_iff.mp done
  obtain ⟨a', arg, rfl⟩ := single_of_forall₂ args
  cases aligned with
  | setp _ amount moved => exact ⟨a', _, arg, amount, moved⟩
  | meet _ _ common => cases common
  | keep _ _ stays => exact (stays rfl).elim
  | other plain => cases plain

namespace IntervalArithmetic

variable {s : Scope} {e e' : Expr}

/-- Interval arithmetic that is moved to another point is still interval arithmetic. -/
theorem rescaled {p : BitCount} (arith : e.IntervalArithmetic s) (moved : Rescaled p e e') :
    e'.IntervalArithmetic s := by
  cases moved with
  | same => exact arith
  | moved =>
    refine .move _ _ ?_ arith
    unfold rescaleStep
    split
    · exact .inl rfl
    · exact .inr rfl

/-- Alignment turns interval arithmetic into interval arithmetic over the same names. -/
theorem align (arith : e.IntervalArithmetic s) (done : e.align.outcome = .ok e') :
    e'.IntervalArithmetic s := by
  have kept {a a' : Expr} (arith : a.IntervalArithmetic s)
      (moved : a' = a ∨ ∃ p, Rescaled p a a') : a'.IntervalArithmetic s := by
    rcases moved with rfl | ⟨p, moved⟩
    · exact arith
    · exact arith.rescaled moved
  induction arith generalizing e' with
  | ref t declared =>
    obtain ⟨node, ⟨⟩, aligned⟩ := align_eq_ok_iff.mp done
    cases aligned with
    | other => exact .ref t declared
  | @combine op _ _ t kind _ _ leftIh rightIh =>
    obtain ⟨_, args, aligned⟩ := align_prim_eq_ok_iff.mp done
    obtain ⟨a, b, left, right, rfl⟩ := pair_of_forall₂ args
    have stays : op ≠ .setp := by rcases kind with rfl | rfl | rfl <;> nofun
    obtain ⟨args', t', rfl, moved⟩ := aligned.operands stays
    obtain ⟨a', b', leftMoved, rightMoved, rfl⟩ := pair_of_forall₂ moved
    exact .combine t' kind (kept (leftIh left) leftMoved) (kept (rightIh right) rightMoved)
  | @move op _ n t kind _ ih =>
    obtain ⟨_, args, aligned⟩ := align_prim_eq_ok_iff.mp done
    obtain ⟨a, arg, rfl⟩ := single_of_forall₂ args
    have stays : op ≠ .setp := by rcases kind with rfl | rfl <;> nofun
    obtain ⟨args', t', rfl, moved⟩ := aligned.operands stays
    obtain ⟨a', argMoved, rfl⟩ := single_of_forall₂ moved
    exact .move n t' kind (kept (ih arg) argMoved)
  | setp consts t _ ih =>
    obtain ⟨a, p, arg, -, moved⟩ := align_setp_eq_ok done
    exact (ih arg).rescaled moved
  | @confine op _ range consts t kind _ ih =>
    obtain ⟨_, args, aligned⟩ := align_prim_eq_ok_iff.mp done
    obtain ⟨a, b, arg, -, rfl⟩ := pair_of_forall₂ args
    have stays : op ≠ .setp := by rcases kind with rfl | rfl <;> nofun
    obtain ⟨args', t', rfl, moved⟩ := aligned.operands stays
    obtain ⟨a', b', argMoved, -, rfl⟩ := pair_of_forall₂ moved
    exact .confine b' consts t' kind (kept (ih arg) argMoved)
  | mux cond t _ _ leftIh rightIh =>
    obtain ⟨_, rebuilt, aligned⟩ := align_eq_ok_iff.mp done
    cases rebuilt with
    | mux _ _ left right =>
      cases aligned with
      | select _ _ _ _ tmoved fmoved =>
        exact .mux _ _ ((leftIh left).rescaled tmoved) ((rightIh right).rescaled fmoved)
      | other _ unmoved => exact (unmoved trivial).elim

end IntervalArithmetic

/-! ## Expressions that settle -/

/-- Inference gives the expression the type, and wherever the relation holds of an environment and a
number, the typed expression evaluates to the number. -/
def Settles (s : Scope) (e : Expr) (ty : Ty) (value : Environment → Int → Prop) : Prop :=
  ∃ e', e.infer s = .ok e' ∧ e'.ty = ty ∧ ∀ env v, value env v → e'.exactAt env [] = some v

/-- An operator node of an integer type, over operands that have values. -/
theorem valueAt_prim {keep : Ty → Int → Int} {env : Environment} {op : Operator} {args : List Expr}
    {consts vals : List Int} {r : Signedness} {w : Width} {v : Int}
    (each : List.Forall₂ (fun a x => a.valueAt keep env [] = some x) args vals)
    (value : op.value? keep (args.map Expr.ty) vals consts (r.ty w) = some v) :
    (Expr.prim op args consts (r.ty w)).valueAt keep env [] = some v := by
  have found : (r.ty w).leaf? [] = some (r.ty w) := Ty.leaf?_integer_iff.mpr ⟨rfl, rfl⟩
  simp only [valueAt, found, values_of_forall₂ each, Option.bind_eq_bind, Option.bind_some]
  exact value

end Expr

/-- The bits of a value of an integer type count it modulo the power of its width. -/
theorem Ty.toNat_pattern (s : Signedness) (n : BitCount) (v : Int) :
    (((s.ty (.known n)).pattern v).toNat : Int) = v % 2 ^ n.toNat := by
  have positive : (2 : Int) ^ n.toNat ≠ 0 := by positivity
  show ((BitVec.ofInt (s.ty (.known n)).size v).toNat : Int) = _
  rw [BitVec.toNat_ofInt, size_known]
  push_cast
  exact Int.toNat_of_nonneg (Int.emod_nonneg v positive)

namespace Operator

variable {m n : BitCount}

/-- The low bits of a signed value have a type exactly when the value has so many. -/
theorem resultTy_lowBits_iff {a : Expr} {ty : Ty} (signed : a.ty = .sint (.known m))
    (positive : n.toNat ≠ 0) :
    bits.resultTy [a] [((n.toNat - 1 : Nat) : Int), 0] = .ok ty ↔
      n ≤ m ∧ ty = .uint (.known n) := by
  have zero : (BitCount.ofNat 0).toNat = 0 := rfl
  have last : (n - .ofNat 1).toNat = n.toNat - 1 := by
    rw [BitCount.toNat_sub, BitCount.toNat_ofNat_one]
  have count : n - .ofNat 1 - .ofNat 0 + .ofNat 1 = n := by
    have := n.toNat_le
    refine BitCount.ext ?_
    rw [BitCount.toNat_add, BitCount.toNat_sub, last, zero, BitCount.toNat_ofNat_one]
    omega
  simp only [resultTy, bitsTy_eq_ok_iff]
  constructor
  · rintro ⟨_, hi, lo, sign, w, ⟨⟩, counts, ty_eq, within, rfl⟩
    obtain ⟨-, rfl⟩ :=
      Signedness.ty_inj.mp ((Signedness.ty_signed _).trans (signed.symm.trans ty_eq))
    simp only [List.cons.injEq, and_true] at counts
    obtain rfl : hi = n - .ofNat 1 := BitCount.ext (by rw [last]; omega)
    obtain rfl : lo = .ofNat 0 := BitCount.ext (by rw [zero]; omega)
    simp only [liesOutside, BitCount.le_iff, decide_eq_true_eq, last] at within
    rw [count, BitCount.le_iff]
    exact ⟨by omega, rfl⟩
  · rintro ⟨inside, rfl⟩
    rw [BitCount.le_iff] at inside
    have within : ¬ (n - .ofNat 1 < .ofNat 0 ∨ liesOutside (.known m) (n - .ofNat 1) = true) := by
      simp only [liesOutside, BitCount.lt_iff, BitCount.le_iff, decide_eq_true_eq, last, zero]
      omega
    exact ⟨a, n - .ofNat 1, .ofNat 0, .signed, .known m, rfl, by rw [last, zero]; rfl, signed,
      within, by rw [count]⟩

/-- The low bits of a signed value count it modulo the power of their number. -/
theorem value?_lowBits (keep : Ty → Int → Int) (positive : n.toNat ≠ 0) (inside : n ≤ m)
    (x : Int) :
    bits.value? keep [.sint (.known m)] [x] [((n.toNat - 1 : Nat) : Int), 0] (.uint (.known n))
      = some (x % 2 ^ n.toNat) := by
  rw [BitCount.le_iff] at inside
  have pattern := Ty.toNat_pattern .signed m x
  have power : (2 : Int) ^ n.toNat ∣ 2 ^ m.toNat := pow_dvd_pow 2 inside
  have whole : n.toNat - 1 + 1 = n.toNat := by omega
  show some ((Ty.uint (.known n)).fit
    (((Ty.sint (.known m)).pattern x).extractLsb ((n.toNat - 1 : Nat) : Int).toNat 0).toNat) = _
  rw [BitVec.extractLsb_toNat]
  simp only [Int.toNat_natCast, Nat.shiftRight_zero, Nat.sub_zero, whole, Ty.fit,
    Int.natCast_emod, Nat.cast_pow, Nat.cast_ofNat, Signedness.ty_signed] at pattern ⊢
  rw [pattern, Int.emod_emod_of_dvd _ power, Int.emod_emod_of_dvd _ (dvd_refl _)]

/-- The bits of an integer, read with a sign, stand for its residue nearest to zero. -/
theorem value?_asSInt (r : Signedness) (keep : Ty → Int → Int) (x : Int) :
    asSInt.value? keep [r.ty (.known n)] [x] [] (.sint (.known n))
      = some (x.bmod (2 ^ n.toNat)) := by
  show some ((Ty.sint (.known n)).fit ((r.ty (.known n)).pattern x).toNat) = _
  rw [Ty.toNat_pattern, Ty.fit, emod_bmod_two_pow]

theorem value?_signedBits (keep : Ty → Int → Int) (x : Int) :
    asSInt.value? keep [.uint (.known n)] [x] [] (.sint (.known n))
      = some (x.bmod (2 ^ n.toNat)) :=
  value?_asSInt .unsigned keep x

end Operator

/-- One bit more, cut off at the limit, is no fewer. -/
theorem BitCount.le_succ_of_le {a b : BitCount} (below : a ≤ b) : a ≤ b + .ofNat 1 := by
  have := a.toNat_le
  simp only [le_iff, toNat_add, toNat_ofNat_one] at below ⊢
  omega

namespace Expr

namespace Settles

variable {s : Scope} {a b c : Expr} {ta tb ty recorded : Ty} {P Q C : Environment → Int → Prop}
  {m n : BitCount}

/-- A relation to values may be replaced by one that implies it. -/
theorem imp (settles : a.Settles s ta P) (weaker : ∀ env v, Q env v → P env v) :
    a.Settles s ta Q := by
  obtain ⟨a', typed, ty_eq, value⟩ := settles
  exact ⟨a', typed, ty_eq, fun env v holds => value env v (weaker env v holds)⟩

/-- An operator of one operand settles where its rule types it and its result is a function of the
value. -/
theorem unary {op : Operator} {consts : List Int} {r : Signedness} {w : Width} {f : Int → Int}
    (arg : a.Settles s ta P)
    (typed : ∀ a' : Expr, a'.ty = ta → op.resultTy [a'] consts = .ok (r.ty w))
    (value : ∀ x, op.value? (fun _ v => v) [ta] [x] consts (r.ty w) = some (f x)) :
    (Expr.prim op [a] consts recorded).Settles s (r.ty w) fun env v => ∃ x, P env x ∧ f x = v := by
  obtain ⟨a', argTyped, rfl, argValue⟩ := arg
  refine ⟨.prim op [a'] consts (r.ty w), ?_, rfl, ?_⟩
  · refine infer_eq_ok_iff.mpr ⟨_, .prim op consts recorded (.cons argTyped .nil), ?_⟩
    simp only [inferNode, typed a' rfl]
    rfl
  · rintro env _ ⟨x, holds, rfl⟩
    exact valueAt_prim (.cons (argValue env x holds) .nil) (value x)

/-- An operator of two operands settles where its rule types it and its result is a function of the
values. -/
theorem binary {op : Operator} {r : Signedness} {w : Width} {f : Int → Int → Int}
    (left : a.Settles s ta P) (right : b.Settles s tb Q)
    (typed : ∀ a' b' : Expr, a'.ty = ta → b'.ty = tb → op.resultTy [a', b'] [] = .ok (r.ty w))
    (value : ∀ x y, op.value? (fun _ v => v) [ta, tb] [x, y] [] (r.ty w) = some (f x y)) :
    (Expr.prim op [a, b] [] recorded).Settles s (r.ty w)
      fun env v => ∃ x y, P env x ∧ Q env y ∧ f x y = v := by
  obtain ⟨a', leftTyped, rfl, leftValue⟩ := left
  obtain ⟨b', rightTyped, rfl, rightValue⟩ := right
  refine ⟨.prim op [a', b'] [] (r.ty w), ?_, rfl, ?_⟩
  · refine infer_eq_ok_iff.mpr
      ⟨_, .prim op [] recorded (.cons leftTyped (.cons rightTyped .nil)), ?_⟩
    simp only [inferNode, typed a' b' rfl rfl]
    rfl
  · rintro env _ ⟨x, y, holds, holds', rfl⟩
    exact valueAt_prim (.cons (leftValue env x holds) (.cons (rightValue env y holds') .nil))
      (value x y)

/-- A literal settles at its least signed width. -/
theorem literal (k : Int) :
    (minimalSInt k).Settles s (.sint (.known (signedWidth k))) fun _ v => k = v := by
  refine ⟨minimalSInt k, infer_eq_ok_iff.mpr ⟨_, .sint k _, rfl⟩, rfl, ?_⟩
  rintro env _ rfl
  rfl

/-- An operator whose second operand is a literal. -/
theorem withLiteral {k : Int} {f : Int → Int → Int}
    (settles : a.Settles s ta fun env v => ∃ x y, P env x ∧ k = y ∧ f x y = v) :
    a.Settles s ta fun env v => ∃ x, P env x ∧ f x k = v := by
  refine settles.imp ?_
  rintro env _ ⟨x, holds, rfl⟩
  exact ⟨x, k, holds, rfl, rfl⟩

section Signed

variable (left : a.Settles s (.sint (.known m)) P) (right : b.Settles s (.sint (.known n)) Q)
include left right

/-- A sum settles at one bit more than the wider of its operands. -/
theorem add : (Expr.prim .add [a, b] [] recorded).Settles s
    (.sint (.known (max m n + .ofNat 1))) fun env v => ∃ x y, P env x ∧ Q env y ∧ x + y = v := by
  refine left.binary (r := .signed) right (fun a' b' aTy bTy => ?_) fun x y => rfl
  simp only [Operator.resultTy, Operator.binary, aTy, bTy]
  rfl

theorem sub : (Expr.prim .sub [a, b] [] recorded).Settles s
    (.sint (.known (max m n + .ofNat 1))) fun env v => ∃ x y, P env x ∧ Q env y ∧ x - y = v := by
  refine left.binary (r := .signed) right (fun a' b' aTy bTy => ?_) fun x y => rfl
  simp only [Operator.resultTy, Operator.binary, aTy, bTy]
  rfl

/-- A product settles at the bits of both operands. -/
theorem mul : (Expr.prim .mul [a, b] [] recorded).Settles s
    (.sint (.known (m + n))) fun env v => ∃ x y, P env x ∧ Q env y ∧ x * y = v := by
  refine left.binary (r := .signed) right (fun a' b' aTy bTy => ?_) fun x y => rfl
  simp only [Operator.resultTy, Operator.binary, aTy, bTy]
  rfl

/-- A remainder settles at the narrower of its operands. -/
theorem rem : (Expr.prim .rem [a, b] [] recorded).Settles s
    (.sint (.known (min m n))) fun env v => ∃ x y, P env x ∧ Q env y ∧ x.tmod y = v := by
  refine left.binary (r := .signed) right (fun a' b' aTy bTy => ?_) fun x y => rfl
  simp only [Operator.resultTy, Operator.binary, aTy, bTy]
  rfl

theorem less : (Expr.less a b).Settles s (.uint (.known (.ofNat 1)))
    fun env v => ∃ x y, P env x ∧ Q env y ∧ flagValue (decide (x < y)) = v := by
  refine left.binary (r := .unsigned) right (fun a' b' aTy bTy => ?_) fun x y => rfl
  simp only [Operator.resultTy, Operator.binary, aTy, bTy]
  rfl

theorem greater : (Expr.greater a b).Settles s (.uint (.known (.ofNat 1)))
    fun env v => ∃ x y, P env x ∧ Q env y ∧ flagValue (decide (y < x)) = v := by
  refine left.binary (r := .unsigned) right (fun a' b' aTy bTy => ?_) fun x y => rfl
  simp only [Operator.resultTy, Operator.binary, aTy, bTy]
  rfl

/-- A selection is as wide as the wider of its branches. -/
theorem select {w : Width} (cond : c.Settles s (.uint w) C) :
    (Expr.mux c a b recorded).Settles s (.sint (.known (max m n)))
      fun env v => ∃ k x y, C env k ∧ P env x ∧ Q env y ∧ (if k = 0 then y else x) = v := by
  obtain ⟨c', condTyped, condTy, condValue⟩ := cond
  obtain ⟨a', leftTyped, leftTy, leftValue⟩ := left
  obtain ⟨b', rightTyped, rightTy, rightValue⟩ := right
  refine ⟨.mux c' a' b' (.sint (.known (max m n))), ?_, rfl, ?_⟩
  · refine infer_eq_ok_iff.mpr ⟨_, .mux recorded condTyped leftTyped rightTyped, ?_⟩
    simp only [inferNode, condTy, leftTy, rightTy, muxTy]
    rfl
  · rintro env _ ⟨k, x, y, flag, holds, holds', rfl⟩
    have found : (Ty.sint (.known (max m n))).leaf? [] = some (.sint (.known (max m n))) := rfl
    simp only [exactAt, valueAt, found, condValue env k flag, leftValue env x holds,
      rightValue env y holds', Option.bind_eq_bind, Option.bind_some]
    rfl

end Signed

section Moves

variable (arg : a.Settles s (.sint (.known m)) P) (k : BitCount)
include arg

/-- A shift to the left settles at a bit more for each place. -/
theorem shl : (Expr.prim .shl [a] [(k.toNat : Int)] recorded).Settles s (.sint (.known (m + k)))
    fun env v => ∃ x, P env x ∧ x * 2 ^ k.toNat = v := by
  refine arg.unary (r := .signed) (fun a' aTy => ?_) fun x => rfl
  have count : Operator.shl.bitCount (k.toNat : Int) = .ok k :=
    Operator.bitCount_eq_ok_iff.mpr rfl
  simp only [Operator.resultTy, Operator.unaryBy, aTy, count]
  rfl

/-- A shift to the right settles at a bit less for each place, down to one. -/
theorem shr : (Expr.prim .shr [a] [(k.toNat : Int)] recorded).Settles s
    (.sint (.known (max (m - k) (.ofNat 1)))) fun env v => ∃ x, P env x ∧ x / 2 ^ k.toNat = v := by
  refine arg.unary (r := .signed) (fun a' aTy => ?_) fun x => rfl
  have count : Operator.shr.bitCount (k.toNat : Int) = .ok k :=
    Operator.bitCount_eq_ok_iff.mpr rfl
  simp only [Operator.resultTy, Operator.unaryBy, aTy, count]
  rfl

end Moves

/-- One of two values, by a test of another. -/
theorem selectBy {x y : Expr} {k : BitCount} {R : Environment → Int → Prop} {test : Int → Prop}
    [DecidablePred test] (left : x.Settles s (.sint (.known n)) Q)
    (right : y.Settles s (.sint (.known k)) R)
    (flag : c.Settles s (.uint (.known (.ofNat 1)))
      fun env v => ∃ u, P env u ∧ flagValue (decide (test u)) = v) :
    (Expr.select c x y).Settles s (.sint (.known (max n k)))
      fun env v => ∃ u x y, P env u ∧ Q env x ∧ R env y ∧ (if test u then x else y) = v := by
  refine (select left right flag).imp ?_
  rintro env _ ⟨u, x, y, holds, left, right, rfl⟩
  refine ⟨_, x, y, ⟨u, holds, rfl⟩, left, right, ?_⟩
  simp only [flagValue_eq_zero_iff, decide_eq_true_eq, ite_not]

section RangeChecks

variable {x y : Expr} (arg : a.Settles s (.sint (.known m)) P)
  (left : x.Settles s (.sint (.known n)) Q) {k : BitCount} {R : Environment → Int → Prop}
  (right : y.Settles s (.sint (.known k)) R)
include arg left right

/-- One of two values, by whether a value lies below a constant. -/
theorem selectLess (bound : Int) : (Expr.select (.less a (.minimalSInt bound)) x y).Settles s
    (.sint (.known (max n k)))
    fun env v => ∃ u x y, P env u ∧ Q env x ∧ R env y ∧ (if u < bound then x else y) = v :=
  selectBy left right
    (withLiteral (f := fun u bound => flagValue (decide (u < bound))) (arg.less (literal bound)))

/-- One of two values, by whether a value lies above a constant. -/
theorem selectGreater (bound : Int) : (Expr.select (.greater a (.minimalSInt bound)) x y).Settles s
    (.sint (.known (max n k)))
    fun env v => ∃ u x y, P env u ∧ Q env x ∧ R env y ∧ (if bound < u then x else y) = v :=
  selectBy left right
    (withLiteral (f := fun u bound => flagValue (decide (bound < u))) (arg.greater (literal bound)))

end RangeChecks

section Confinement

variable (arg : a.Settles s (.sint (.known m)) P) (check : RangeCheck)
include arg

/-- A lowered saturation settles at the width of its action, and computes what the action applies.
-/
theorem saturated (action : SaturateAction) : (Expr.saturated check a action).Settles s
    (.sint (.known (action.settledWidth check m)))
    fun env v => ∃ x, P env x ∧ action.apply check x = v := by
  cases action with
  | passThrough =>
    refine arg.imp ?_
    rintro env _ ⟨x, holds, rfl⟩
    exact holds
  | clampLow =>
    refine (arg.selectLess (literal check.lo) arg check.lo).imp ?_
    rintro env _ ⟨x, holds, rfl⟩
    exact ⟨x, _, x, holds, rfl, holds, rfl⟩
  | clampHigh =>
    refine (arg.selectGreater (literal check.hi) arg check.hi).imp ?_
    rintro env _ ⟨x, holds, rfl⟩
    exact ⟨x, _, x, holds, rfl, holds, rfl⟩
  | clampBoth =>
    refine (arg.selectGreater (literal check.hi) (arg.selectLess (literal check.lo) arg check.lo)
      check.hi).imp ?_
    rintro env _ ⟨x, holds, rfl⟩
    exact ⟨x, _, _, holds, rfl, ⟨x, _, x, holds, rfl, holds, rfl⟩, rfl⟩

theorem plusLiteral (k : Int) : (Expr.plus a (.minimalSInt k)).Settles s
    (.sint (.known (max m (signedWidth k) + .ofNat 1))) fun env v => ∃ x, P env x ∧ x + k = v :=
  withLiteral (f := (· + ·)) (arg.add (literal k))

theorem minusLiteral (k : Int) : (Expr.minus a (.minimalSInt k)).Settles s
    (.sint (.known (max m (signedWidth k) + .ofNat 1))) fun env v => ∃ x, P env x ∧ x - k = v :=
  withLiteral (f := (· - ·)) (arg.sub (literal k))

theorem remLiteral (k : Int) : (Expr.untyped .rem [a, .minimalSInt k] []).Settles s
    (.sint (.known (min m (signedWidth k)))) fun env v => ∃ x, P env x ∧ x.tmod k = v :=
  withLiteral (f := Int.tmod) (arg.rem (literal k))

/-- A lowered wrap settles at the width of its action, and computes what the action applies. -/
theorem wrapped (action : WrapAction) : (Expr.wrapped check a action).Settles s
    (.sint (.known (action.settledWidth check m)))
    fun env v => ∃ x, P env x ∧ action.apply check x = v := by
  have raised := arg.plusLiteral check.size
  have lowered := arg.minusLiteral check.size
  -- a correction is never narrower than the value that it may leave alone
  have corrected : max (max m (signedWidth check.size) + .ofNat 1) m
      = max m (signedWidth check.size) + .ofNat 1 :=
    BitCount.max_eq_left (BitCount.le_succ_of_le (BitCount.le_max_left _ _))
  cases action with
  | passThrough =>
    refine arg.imp ?_
    rintro env _ ⟨x, holds, rfl⟩
    exact holds
  | correctLow =>
    have settles := arg.selectLess raised arg check.lo
    rw [corrected] at settles
    refine settles.imp ?_
    rintro env _ ⟨x, holds, rfl⟩
    exact ⟨x, _, x, holds, ⟨x, holds, rfl⟩, holds, rfl⟩
  | correctHigh =>
    have settles := arg.selectGreater lowered arg check.hi
    rw [corrected] at settles
    refine settles.imp ?_
    rintro env _ ⟨x, holds, rfl⟩
    exact ⟨x, _, x, holds, ⟨x, holds, rfl⟩, holds, rfl⟩
  | correctBoth =>
    have settles := arg.selectGreater lowered (arg.selectLess raised arg check.lo) check.hi
    rw [corrected, BitCount.max_eq_left (BitCount.le_refl _)] at settles
    refine settles.imp ?_
    rintro env _ ⟨x, holds, rfl⟩
    exact ⟨x, _, _, holds, ⟨x, holds, rfl⟩, ⟨x, _, x, holds, ⟨x, holds, rfl⟩, holds, rfl⟩, rfl⟩
  | remainder =>
    have residue := (arg.minusLiteral check.lo).remLiteral check.size
    have settles :=
      (residue.selectLess (residue.plusLiteral check.size) residue 0).plusLiteral check.lo
    rw [BitCount.max_eq_right (BitCount.min_le_right _ _),
      BitCount.max_eq_left (BitCount.le_succ_of_le (BitCount.min_le_right _ _))] at settles
    refine settles.imp ?_
    rintro env _ ⟨x, holds, rfl⟩
    have left : ∃ z, (∃ x, P env x ∧ x - check.lo = z) ∧
        z.tmod check.size = (x - check.lo).tmod check.size := ⟨_, ⟨x, holds, rfl⟩, rfl⟩
    exact ⟨_, ⟨_, _, _, left, ⟨_, left, rfl⟩, left, rfl⟩, rfl⟩

/-- The low bits of a value, read with a sign. -/
theorem lowBits {n : BitCount} (positive : n.toNat ≠ 0) (inside : n ≤ m) :
    (Expr.untyped .asSInt [.untyped .bits [a] [((n.toNat - 1 : Nat) : Int), 0]] []).Settles s
      (.sint (.known n)) fun env v => ∃ x, P env x ∧ x.bmod (2 ^ n.toNat) = v := by
  have low : (Expr.untyped .bits [a] [((n.toNat - 1 : Nat) : Int), 0]).Settles s
      (.uint (.known n)) fun env v => ∃ x, P env x ∧ x % 2 ^ n.toNat = v :=
    arg.unary (r := .unsigned)
      (fun a' aTy => (Operator.resultTy_lowBits_iff aTy positive).mpr ⟨inside, rfl⟩)
      (Operator.value?_lowBits _ positive inside)
  refine (low.unary (r := .signed) (fun a' aTy => ?_) (Operator.value?_signedBits _)).imp ?_
  · simp only [Operator.resultTy, Operator.unary, aTy]
    rfl
  · rintro env _ ⟨x, holds, rfl⟩
    exact ⟨_, ⟨x, holds, rfl⟩, emod_bmod_two_pow x n.toNat⟩

end Confinement

end Settles

/-! ## Lowered interval arithmetic -/

/-- The lowered and typed form of the expression evaluates to the number. -/
def ComputesTo (warn : Bool) (s : Scope) (env : Environment) (e : Expr) (v : Int) : Prop :=
  ∃ l e', (e.lower warn).outcome = .ok l ∧ l.infer s = .ok e' ∧ e'.exactAt env [] = some v

/-- The lowered expression settles at the width of the interval arithmetic, and evaluates to what
stands for its value. -/
def SettlesFor (warn : Bool) (s : Scope) (l a : Expr) : Prop :=
  l.Settles s (.sint (.known (a.settledWidth s)))
    fun env v => a.Encodes (ComputesTo warn s env) (fun name => env name []) v

/-- An operator is typed when its operands are and its rule gives their result a type. -/
theorem infer_prim_eq_ok_iff {s : Scope} {op : Operator} {args : List Expr} {consts : List Int}
    {ty : Ty} {e : Expr} :
    (Expr.prim op args consts ty).infer s = .ok e ↔
      ∃ args' ty', List.Forall₂ (fun a a' => a.infer s = .ok a') args args' ∧
        op.resultTy args' consts = .ok ty' ∧ .prim op args' consts ty' = e := by
  rw [infer_eq_ok_iff]
  constructor
  · rintro ⟨node, rebuilt, done⟩
    obtain ⟨args', each, rfl⟩ := rebuilt.prim_left
    simp only [inferNode, bind_eq_ok_iff, pure_eq_ok_iff] at done
    obtain ⟨ty', result, rfl⟩ := done
    exact ⟨args', ty', each, result, rfl⟩
  · rintro ⟨args', ty', each, result, rfl⟩
    refine ⟨_, .prim op consts ty each, ?_⟩
    simp only [inferNode, result]
    rfl

/-- What inference gives an expression that settles has its type and its values. -/
theorem Settles.unique {s : Scope} {e e' : Expr} {ty : Ty} {P : Environment → Int → Prop}
    (settles : e.Settles s ty P) (typed : e.infer s = .ok e') :
    e'.ty = ty ∧ ∀ env v, P env v → e'.exactAt env [] = some v := by
  obtain ⟨e'', typed', rest⟩ := settles
  cases typed.symm.trans typed'
  exact rest

section Confinement

variable {warn : Bool} {s : Scope} {a range l e : Expr} {o r : Operand} {consts : List Int}

/-- A saturation settles where its lowered operand does, whatever its target is. -/
theorem settles_clip {t : Interval}
    (arg : ∀ {e}, o.value.infer s = .ok e → SettlesFor warn s o.value a)
    (argTy : o.recorded = a.ty)
    (lowered : (Operator.clip.lower warn [o, r] consts (.interval t)).outcome = .ok l)
    (typed : l.infer s = .ok e) :
    SettlesFor warn s l (.prim .clip [a, range] consts (.interval t)) := by
  obtain ⟨_, _, lo, hi, inLo, inHi, ⟨⟩, target, incoming, rfl⟩ :=
    Operand.lowerClip_eq_ok_iff.mp lowered
  obtain ⟨a', argTyped, -⟩ := (within_saturated _ _ _).infer typed
  have found : RangeCheck.of? t.encodings? a.ty = some ⟨lo, hi, inLo, inHi⟩ :=
    RangeCheck.of?_eq_some_iff.mpr ⟨Interval.resolved_eq_ok_iff.mp target,
      Operator.operandRange_eq_ok_iff.mp (argTy ▸ incoming)⟩
  simp only [SettlesFor, settledWidth, Ty.interval?, Option.bind_some, found]
  refine ((arg argTyped).saturated _ _).imp fun env v encodes => ?_
  cases encodes with
  | clip _ found' ordered encodes low high =>
    cases found.symm.trans found'
    exact ⟨_, encodes, SaturateAction.apply_decide ordered low high⟩

/-- A wrap settles where its lowered operand does. -/
theorem settles_wrap {t : Interval}
    (arg : ∀ {e}, o.value.infer s = .ok e → SettlesFor warn s o.value a)
    (argTy : o.recorded = a.ty) (rangeTy : r.recorded = range.ty)
    (lowered : (Operator.wrap.lower warn [o, r] consts (.interval t)).outcome = .ok l)
    (typed : l.infer s = .ok e) :
    SettlesFor warn s l (.prim .wrap [a, range] consts (.interval t)) := by
  obtain ⟨_, _, ⟨⟩, byWidth | byRange⟩ := Operand.lowerWrap_eq_ok_iff.mp lowered
  · obtain ⟨w, signed, done⟩ := byWidth
    obtain ⟨n, rfl, positive, rfl⟩ := Operand.lowerWidthWrap_eq_ok_iff.mp done
    rw [rangeTy] at signed
    -- bits that are typed lie within the value
    obtain ⟨_, _, outer, -, -⟩ := infer_prim_eq_ok_iff.mp typed
    obtain ⟨bits, bitsTyped, rfl⟩ := single_of_forall₂ outer
    obtain ⟨_, _, inner, result, -⟩ := infer_prim_eq_ok_iff.mp bitsTyped
    obtain ⟨a', argTyped, rfl⟩ := single_of_forall₂ inner
    have settles := arg argTyped
    have inside : n ≤ a.settledWidth s :=
      ((Operator.resultTy_lowBits_iff (settles.unique argTyped).1 positive).mp result).1
    simp only [SettlesFor, settledWidth, signed]
    refine (settles.lowBits positive inside).imp fun env v encodes => ?_
    cases encodes with
    | wrap _ _ found =>
      obtain ⟨range', -⟩ := RangeCheck.of?_eq_some_iff.mp found
      rw [signed] at range'
      cases range'
    | wrapWidth _ _ signed' encodes =>
      cases signed.symm.trans signed'
      exact ⟨_, encodes, rfl⟩
  · obtain ⟨lo, hi, target, done⟩ := byRange
    obtain ⟨inLo, inHi, incoming, rfl⟩ := Operand.lowerWrapInto_eq_ok_iff.mp done
    obtain ⟨a', argTyped, -⟩ := (within_wrapped _ _ _).infer typed
    rw [rangeTy] at target
    have found : RangeCheck.of? range.ty.wrapRange? a.ty = some ⟨lo, hi, inLo, inHi⟩ :=
      RangeCheck.of?_eq_some_iff.mpr ⟨Ty.wrapRange?_eq_some_iff.mpr target,
        Operator.operandRange_eq_ok_iff.mp (argTy ▸ incoming)⟩
    have width : (Expr.prim .wrap [a, range] consts (.interval t)).settledWidth s
        = (WrapAction.decide ⟨lo, hi, inLo, inHi⟩).settledWidth ⟨lo, hi, inLo, inHi⟩
          (a.settledWidth s) := by
      simp only [settledWidth]
      generalize range.ty = bound at target found
      cases target <;> simp only [found]
    rw [SettlesFor, width]
    refine ((arg argTyped).wrapped _ _).imp fun env v encodes => ?_
    cases encodes with
    | wrap _ _ found' ordered encodes low high =>
      cases found.symm.trans found'
      exact ⟨_, encodes, WrapAction.apply_decide ordered low high⟩
    | wrapWidth _ _ signed =>
      rw [signed] at target
      cases target

end Confinement

/-- Lowered interval arithmetic is typed at its settled width, and computes what stands for its
value. -/
theorem IntervalArithmetic.settles {warn : Bool} {s : Scope} {a l e : Expr}
    (arith : a.IntervalArithmetic s) (lowered : (a.lower warn).outcome = .ok l)
    (typed : l.infer s = .ok e) : SettlesFor warn s l a := by
  induction arith generalizing l e with
  | @ref name w t declared =>
    simp only [Expr.lower, bind_outcome_eq_ok_iff, outcome_pure, Except.ok.injEq] at lowered
    obtain ⟨ty, -, rfl⟩ := lowered
    have resolved : s.resolve name = .ok (.sint (.known w)) := by simp [Scope.resolve, declared]
    refine ⟨.ref name (.sint (.known w)), ?_, ?_, ?_⟩
    · refine infer_eq_ok_iff.mpr ⟨_, .ref name ty, ?_⟩
      simp only [inferNode, resolved]
      rfl
    · simp only [settledWidth, declared]
      rfl
    · rintro env _ ⟨⟩
      rfl
  | @combine op a b t kind _ _ leftIh rightIh =>
    obtain ⟨operands, each, done⟩ := lower_prim_eq_ok_iff.mp lowered
    obtain ⟨oa, ob, ⟨left, -⟩, ⟨right, -⟩, rfl⟩ := pair_of_forall₂ each
    have generic : op.isIntervalOnly = false := by rcases kind with rfl | rfl | rfl <;> rfl
    rw [Operator.lower_of_generic generic] at done
    simp only [bind_outcome_eq_ok_iff, outcome_pure, Except.ok.injEq] at done
    obtain ⟨ty, -, rfl⟩ := done
    obtain ⟨_, _, args, -, -⟩ := infer_prim_eq_ok_iff.mp typed
    obtain ⟨a', b', leftTyped, rightTyped, rfl⟩ := pair_of_forall₂ args
    have left' := leftIh left leftTyped
    have right' := rightIh right rightTyped
    rcases kind with rfl | rfl | rfl
    · refine (left'.add right').imp fun env v encodes => ?_
      cases encodes with
      | add _ _ left right => exact ⟨_, _, left, right, rfl⟩
    · refine (left'.sub right').imp fun env v encodes => ?_
      cases encodes with
      | sub _ _ left right => exact ⟨_, _, left, right, rfl⟩
    · refine (left'.mul right').imp fun env v encodes => ?_
      cases encodes with
      | mul _ _ left right => exact ⟨_, _, left, right, rfl⟩
  | @move op a n t kind _ ih =>
    obtain ⟨operands, each, done⟩ := lower_prim_eq_ok_iff.mp lowered
    obtain ⟨o, ⟨arg, -⟩, rfl⟩ := single_of_forall₂ each
    have count : BitCount.ofNat (n.toNat : Int).toNat = n := by simp
    rcases kind with rfl | rfl
    · obtain ⟨_, ⟨⟩, rfl⟩ := Operand.lowerShift_eq_ok_iff.mp done
      obtain ⟨_, _, args, -, -⟩ := infer_prim_eq_ok_iff.mp typed
      obtain ⟨a', argTyped, rfl⟩ := single_of_forall₂ args
      simp only [SettlesFor, settledWidth, count]
      refine ((ih arg argTyped).shl n).imp fun env v encodes => ?_
      cases encodes with
      | incp _ _ arg => exact ⟨_, arg, rfl⟩
    · obtain ⟨_, ⟨⟩, rfl⟩ := Operand.lowerShift_eq_ok_iff.mp done
      obtain ⟨_, _, args, -, -⟩ := infer_prim_eq_ok_iff.mp typed
      obtain ⟨a', argTyped, rfl⟩ := single_of_forall₂ args
      simp only [SettlesFor, settledWidth, count]
      refine ((ih arg argTyped).shr n).imp fun env v encodes => ?_
      cases encodes with
      | decp _ _ arg => exact ⟨_, arg, rfl⟩
  | setp =>
    obtain ⟨operands, -, done⟩ := lower_prim_eq_ok_iff.mp lowered
    cases done
  | @confine op a range consts t kind arith ih =>
    obtain ⟨operands, each, done⟩ := lower_prim_eq_ok_iff.mp lowered
    obtain ⟨o, r, ⟨arg, argTy⟩, ⟨-, rangeTy⟩, rfl⟩ := pair_of_forall₂ each
    rcases kind with rfl | rfl
    · exact settles_clip (fun typed => ih arg typed) argTy done typed
    · exact settles_wrap (fun typed => ih arg typed) argTy rangeTy done typed
  | @mux tval fval cond t _ _ leftIh rightIh =>
    simp only [Expr.lower, bind_outcome_eq_ok_iff, outcome_pure, Except.ok.injEq] at lowered
    obtain ⟨cond', condDone, tval', tvalDone, fval', fvalDone, ty, -, rfl⟩ := lowered
    obtain ⟨node, rebuilt, nodeDone⟩ := infer_eq_ok_iff.mp typed
    cases rebuilt with
    | @mux _ cond'' _ tval'' _ fval'' _ condTyped tvalTyped fvalTyped =>
      simp only [inferNode] at nodeDone
      split at nodeDone
      · rename_i w flag
        have cond : cond'.Settles s (.uint w) fun env k => cond''.exactAt env [] = some k :=
          ⟨cond'', condTyped, flag, fun _ _ value => value⟩
        refine ((leftIh tvalDone tvalTyped).select (rightIh fvalDone fvalTyped) cond).imp
          fun env v encodes => ?_
        cases encodes with
        | mux _ condValue left right =>
          obtain ⟨l, c, condLowered, condTyped', value⟩ := condValue
          cases condDone.symm.trans condLowered
          cases condTyped.symm.trans condTyped'
          exact ⟨_, _, _, value, left, right, rfl⟩
      · cases nodeDone

end Expr

end IntervalHdl
