import IntervalHdl.Proofs.Removal.SettledWidths

/-!
# Casts to an interval

A cast to an interval takes the encoding for what it is: the number of the operand. It is lowered to
the bits of the operand read with a sign, and an unsigned operand is first given a bit on top, by
the width that it is recorded at. Where type inference settles at that width, the cast has the value
of the operand, and one bit more if the operand is unsigned (`Expr.asInterval_keeps_value`).
-/

namespace IntervalHdl
set_option autoImplicit false

open Reported

/-- The width that an integer of `n` bits is cast to: an unsigned one gets a bit for the sign. -/
def Signedness.castBits : Signedness → Nat → Nat
  | .unsigned, n => n + 1
  | .signed, n => n

namespace Expr

/-- A typed integer of `w` bits, read with a sign. -/
def readSigned (e : Expr) (w : BitCount) : Expr := .prim .asSInt [e] [] (.sint (.known w))

/-- A typed unsigned integer of `w` bits with one bit on top. -/
def widened (e : Expr) (w : BitCount) : Expr :=
  .prim .pad [e] [((w + .ofNat 1).toNat : Int)] (.uint (.known (w + .ofNat 1)))

section Typed

variable {s : Scope} {env : Environment} {l e : Expr} {r : Signedness} {w : BitCount} {v : Int}

theorem infer_readSigned (typed : l.infer s = .ok e) (integer : e.ty = r.ty (.known w)) :
    (untyped .asSInt [l] []).infer s = .ok (e.readSigned w) := by
  refine infer_prim_eq_ok_iff.mpr ⟨_, _, .cons typed .nil, ?_, rfl⟩
  simp only [Operator.resultTy, Operator.unary, integer]
  cases r <;> rfl

/-- A number that fits with a sign is what its bits are read as. -/
theorem hardwareAt_readSigned (integer : e.ty = r.ty (.known w))
    (value : e.hardwareAt env [] = some v) (fits : FitsSigned w.toNat v) :
    (e.readSigned w).hardwareAt env [] = some v := by
  refine valueAt_prim (r := .signed) (.cons value .nil) ?_
  rw [List.map_cons, List.map_nil, integer, Signedness.ty_signed, Operator.value?_asSInt,
    fits.bmod_eq]

theorem infer_widened (typed : l.infer s = .ok e) (unsigned : e.ty = .uint (.known w)) :
    (untyped .pad [l] [((w + .ofNat 1).toNat : Int)]).infer s = .ok (e.widened w) := by
  have count : Operator.pad.bitCount ((w + .ofNat 1).toNat : Int) = .ok (w + .ofNat 1) :=
    Operator.bitCount_eq_ok_iff.mpr rfl
  have wider : max w (w + .ofNat 1) = w + .ofNat 1 :=
    BitCount.max_eq_right (BitCount.le_succ_of_le (BitCount.le_refl w))
  refine infer_prim_eq_ok_iff.mpr ⟨_, _, .cons typed .nil, ?_, rfl⟩
  simp only [Operator.resultTy, Operator.unaryBy, unsigned, count]
  show Except.ok (Ty.uint (.known (max w (w + .ofNat 1)))) = _
  rw [wider]

/-- A bit on top leaves an unsigned number as it is. -/
theorem hardwareAt_widened (value : e.hardwareAt env [] = some v) (fits : FitsUnsigned w.toNat v) :
    (e.widened w).hardwareAt env [] = some v := by
  have wider : w.toNat ≤ (w + .ofNat 1).toNat := BitCount.le_succ_of_le (BitCount.le_refl w)
  have kept : (Ty.uint (.known (w + .ofNat 1))).fit v = v :=
    Ty.fit_of_holds (t := .uint (.known (w + .ofNat 1))) (fits.mono wider)
  exact valueAt_prim (r := .unsigned) (.cons value .nil) (congrArg some kept)

end Typed

/-- A cast of an integer whose width inference settles as it is recorded has the value of the
integer, whatever its sign and width. -/
theorem asInterval_keeps_value {warn : Bool} {s : Scope} {a l e : Expr} {r : Signedness}
    {w : BitCount} (lowered : (a.lower warn).outcome = .ok l) (typed : l.infer s = .ok e)
    (recorded : a.ty = r.ty (.known w)) (settled : e.ty = a.ty) (small : w.toNat < BitCount.limit)
    (consts : List Int) (ty : Ty) :
    ∃ x z n, ((Expr.prim .asInterval [a] consts ty).lower warn).outcome = .ok x ∧
      x.infer s = .ok z ∧ z.ty = .sint (.known n) ∧ n.toNat = r.castBits w.toNat ∧
        ∀ env v, r.Fits w.toNat v → e.hardwareAt env [] = some v →
          z.hardwareAt env [] = some v := by
  have lowers {x : Expr} (done : (Operand.lowerCast [⟨l, a.ty⟩]).outcome = .ok x) :
      ((Expr.prim .asInterval [a] consts ty).lower warn).outcome = .ok x :=
    lower_prim_eq_ok_iff.mpr ⟨[⟨l, a.ty⟩], .cons ⟨lowered, rfl⟩ .nil, done⟩
  have integer : e.ty = r.ty (.known w) := settled.trans recorded
  rw [recorded] at lowers
  cases r with
  | unsigned =>
    -- Below the greatest bit count there is another one for the sign.
    have room : (w + .ofNat 1).toNat = w.toNat + 1 := by
      rw [BitCount.toNat_add, BitCount.toNat_ofNat_one]
      omega
    have widened := infer_widened typed integer
    refine ⟨_, _, w + .ofNat 1, lowers rfl, infer_readSigned (r := .unsigned) widened rfl, rfl, room,
      fun env v fits value => ?_⟩
    have signed : FitsSigned (w + .ofNat 1).toNat v := room ▸ FitsUnsigned.signed fits
    exact hardwareAt_readSigned (r := .unsigned) rfl (hardwareAt_widened value fits) signed
  | signed =>
    exact ⟨_, _, w, lowers rfl, infer_readSigned (r := .signed) typed integer, rfl, rfl,
      fun env v fits value => hardwareAt_readSigned (r := .signed) integer value fits⟩

/-- Three unsigned bits that are all set stay 7, in four bits with a sign. -/
theorem asInterval_keeps_value_three :
    let arg : Expr := .ref "a" (.uint (.known (.ofNat 3)))
    let held : Environment := fun _ _ => 7
    ∃ x z, ((Expr.prim .asInterval [arg] [] .unknown).lower true).outcome = .ok x ∧
      x.infer (Scope.ofPorts [⟨"a", .input, .uint (.known (.ofNat 3))⟩]) = .ok z ∧
        z.ty = .sint (.known (.ofNat 4)) ∧ z.hardwareAt held [] = some 7 := by
  intro arg held
  have argLowered : (arg.lower true).outcome = .ok arg := rfl
  obtain ⟨x, z, n, lowered, typed, ty, bits, values⟩ :=
    asInterval_keeps_value (r := .unsigned) (w := .ofNat 3)
      (s := Scope.ofPorts [⟨"a", .input, .uint (.known (.ofNat 3))⟩]) argLowered rfl rfl rfl
      (by decide) [] .unknown
  obtain rfl : n = .ofNat 4 := BitCount.ext bits
  exact ⟨x, z, lowered, typed, ty, values held 7 (by decide) rfl⟩

end Expr

end IntervalHdl
