import IntervalHdl.Proofs.Removal.FloorModulo
import IntervalHdl.Proofs.Removal.OneBody

/-!
# A wrap to a signed width

A wrap to a signed width is lowered to the low bits of the operand, read with a sign. Whether there
are so many is for inference to say, by the width that it settles for the operand: a removal
succeeds exactly when the operand is at least as wide as the target
(`Circuit.removeIntervals_signedWrap`), and then the node is the number of the target width that
differs from the operand by a multiple of its power. A narrower operand, whose values are all in
the target range, is rejected.
-/

namespace IntervalHdl
set_option autoImplicit false

open Reported

/-- The numbers of a signed width that are congruent to a given one are its residue nearest to
zero. -/
theorem fitsSigned_congruent_iff {n : Nat} {v r : Int} :
    FitsSigned n r ∧ r ≡ v [ZMOD 2 ^ n] ↔ r = v.bmod (2 ^ n) := by
  constructor
  · rintro ⟨fits, congruent⟩
    rw [← fits.bmod_eq, ← emod_bmod_two_pow r, congruent, emod_bmod_two_pow v]
  · rintro rfl
    have congruent := Int.bmod_emod (x := v) (m := 2 ^ n)
    push_cast at congruent
    exact ⟨fitsSigned_bmod n v, congruent⟩

namespace Expr

/-- The low bits of a typed expression, read with a sign. -/
def lowBits (e : Expr) (w : BitCount) : Expr :=
  .prim .asSInt [.prim .bits [e] [((w.toNat - 1 : Nat) : Int), 0] (.uint (.known w))] []
    (.sint (.known w))

section LowBits

variable {warn : Bool} {s : Scope} {a b l lb e z : Expr} {k w : BitCount}

/-- Low bits have a type exactly when the operand has so many. -/
theorem infer_lowBits_iff (typed : l.infer s = .ok e) (signed : e.ty = .sint (.known k))
    (positive : w.toNat ≠ 0) :
    (untyped .asSInt [.untyped .bits [l] [((w.toNat - 1 : Nat) : Int), 0]] []).infer s = .ok z ↔
      w ≤ k ∧ z = e.lowBits w := by
  have outerTy (x : Expr) (xTy : x.ty = .uint (.known w)) :
      Operator.asSInt.resultTy [x] [] = .ok (.sint (.known w)) := by
    simp only [Operator.resultTy, Operator.unary, xTy]
    rfl
  have bits (x : Expr) : (untyped .bits [l] [((w.toNat - 1 : Nat) : Int), 0]).infer s = .ok x ↔
      w ≤ k ∧ x = .prim .bits [e] [((w.toNat - 1 : Nat) : Int), 0] (.uint (.known w)) := by
    refine infer_prim_eq_ok_iff.trans ⟨?_, ?_⟩
    · rintro ⟨_, ty, each, result, rfl⟩
      obtain ⟨_, inner, rfl⟩ := single_of_forall₂ each
      cases typed.symm.trans inner
      obtain ⟨inside, rfl⟩ := (Operator.resultTy_lowBits_iff signed positive).mp result
      exact ⟨inside, rfl⟩
    · rintro ⟨inside, rfl⟩
      exact ⟨_, _, .cons typed .nil,
        (Operator.resultTy_lowBits_iff signed positive).mpr ⟨inside, rfl⟩, rfl⟩
  refine infer_prim_eq_ok_iff.trans ⟨?_, ?_⟩
  · rintro ⟨_, ty, each, result, rfl⟩
    obtain ⟨x, inner, rfl⟩ := single_of_forall₂ each
    obtain ⟨inside, rfl⟩ := (bits x).mp inner
    cases result.symm.trans (outerTy _ rfl)
    exact ⟨inside, rfl⟩
  · rintro ⟨inside, rfl⟩
    exact ⟨_, _, .cons ((bits _).mpr ⟨inside, rfl⟩) .nil, outerTy _ rfl, rfl⟩

theorem hardwareAt_lowBits {env : Environment} {v : Int} (signed : e.ty = .sint (.known k))
    (positive : w.toNat ≠ 0) (inside : w ≤ k) (value : e.hardwareAt env [] = some v) :
    (e.lowBits w).hardwareAt env [] = some (v.bmod (2 ^ w.toNat)) := by
  have low : hardwareAt env (.prim .bits [e] [((w.toNat - 1 : Nat) : Int), 0] (.uint (.known w))) []
      = some (v % 2 ^ w.toNat) := by
    refine valueAt_prim (r := .unsigned) (.cons value .nil) ?_
    rw [List.map_cons, List.map_nil, signed]
    exact Operator.value?_lowBits _ positive inside v
  rw [← emod_bmod_two_pow]
  exact valueAt_prim (r := .signed) (.cons low .nil) (Operator.value?_signedBits _ _)

/-- What the stages make of a wrap to a signed width, where they accept it. -/
theorem removed_signedWrap_iff (consts : List Int) (ty : Ty) (arg : LowersTo warn a l)
    (typed : l.infer s = .ok e) (signed : e.ty = .sint (.known k)) (range : LowersTo warn b lb)
    (bound : b.alignedTy = .sint (.known w)) (positive : w.toNat ≠ 0) :
    Removed warn s (.prim .wrap [a, b] consts ty) z ↔ w ≤ k ∧ z = e.lowBits w := by
  obtain ⟨a', argAligned, argLowered⟩ := arg
  obtain ⟨b', rangeAligned, rangeLowered⟩ := range
  have rangeTy : b'.ty = .sint (.known w) := (ty_of_align rangeAligned).trans bound
  have apart : meets .wrap [a', b'] = false := by
    simp [meets, rangeTy, Ty.isInterval]
  have aligned : (Expr.prim .wrap [a, b] consts ty).align.outcome
      = .ok (.prim .wrap [a', b'] consts ty) :=
    align_prim_eq_ok_iff.mpr ⟨_, .cons argAligned (.cons rangeAligned .nil),
      .keep consts ty (by decide) apart⟩
  have lowered : ((Expr.prim .wrap [a', b'] consts ty).lower warn).outcome
      = .ok (untyped .asSInt [.untyped .bits [l] [((w.toNat - 1 : Nat) : Int), 0]] []) := by
    refine lower_prim_eq_ok_iff.mpr
      ⟨[⟨l, a'.ty⟩, ⟨lb, b'.ty⟩], .cons ⟨argLowered, rfl⟩ (.cons ⟨rangeLowered, rfl⟩ .nil), ?_⟩
    exact Operand.lowerWrap_eq_ok_iff.mpr ⟨_, _, rfl, .inl ⟨.known w, rangeTy,
      Operand.lowerWidthWrap_eq_ok_iff.mpr ⟨w, rfl, positive, rfl⟩⟩⟩
  rw [← infer_lowBits_iff typed signed positive]
  constructor
  · rintro ⟨x, y, alignDone, lowerDone, typedDone⟩
    cases aligned.symm.trans alignDone
    cases lowered.symm.trans lowerDone
    exact typedDone
  · intro typedDone
    exact ⟨_, _, aligned, lowered, typedDone⟩

end LowBits

end Expr

namespace Circuit

/-- A removal accepts a wrap to a signed width exactly when the operand is lowered to at least as
many bits, and makes of it the one number of the target width that is congruent to the operand. The
wrap is the value of the last node of a body; the operand and the bound are any expressions that the
stages accept behind the statements before it. -/
theorem removeIntervals_signedWrap {ports ports' : List Port} {stmts stmts' : List Stmt}
    {s : Scope} {a b l lb e : Expr} {k w : BitCount} (main name node : String)
    (consts : List Int) (ty : Ty)
    (portsDone : List.Forall₂ (fun p p' => p.lower.outcome = .ok p') ports ports')
    (before : Threads Stmt.Removed (Scope.ofPorts ports') stmts stmts' s)
    (arg : Expr.LowersTo true a l) (typed : l.infer s = .ok e) (signed : e.ty = .sint (.known k))
    (range : Expr.LowersTo true b lb) (bound : b.alignedTy = .sint (.known w))
    (positive : 1 ≤ w.toNat) :
    let wrap : Expr := .prim .wrap [a, b] consts ty
    let c := ofBody main name ports (.block (stmts ++ [.node node wrap]))
    ((∃ d, c.removeIntervals.outcome = .ok d) ↔ w ≤ k) ∧
      ∀ d, c.removeIntervals.outcome = .ok d →
        ∃ z, d = ofBody main name ports' (.block (stmts' ++ [.node node z])) ∧
          z.ty = .sint (.known w) ∧
          ∀ env v, e.hardwareAt env [] = some v → ∃ r, z.hardwareAt env [] = some r ∧
            ∀ x, FitsSigned w.toNat x ∧ x ≡ v [ZMOD 2 ^ w.toNat] ↔ x = r := by
  intro wrap c
  have nonzero : w.toNat ≠ 0 := by omega
  have accepted (d : Circuit) : c.removeIntervals.outcome = .ok d ↔
      w ≤ k ∧ d = ofBody main name ports' (.block (stmts' ++ [.node node (e.lowBits w)])) := by
    simp only [c, removeIntervals_lastNode_iff main name node wrap portsDone before,
      Expr.removed_signedWrap_iff consts ty arg typed signed range bound nonzero, wrap]
    constructor
    · rintro ⟨z, ⟨inside, rfl⟩, rfl⟩
      exact ⟨inside, rfl⟩
    · rintro ⟨inside, rfl⟩
      exact ⟨_, ⟨inside, rfl⟩, rfl⟩
  refine ⟨⟨?_, fun inside => ⟨_, (accepted _).mpr ⟨inside, rfl⟩⟩⟩, fun d done => ?_⟩
  · rintro ⟨d, done⟩
    exact ((accepted d).mp done).1
  · obtain ⟨inside, rfl⟩ := (accepted d).mp done
    refine ⟨e.lowBits w, rfl, rfl, fun env v value => ⟨v.bmod (2 ^ w.toNat), ?_, fun x => ?_⟩⟩
    · exact Expr.hardwareAt_lowBits signed nonzero inside value
    · exact fitsSigned_congruent_iff

/-- Four bits of a node, that hold 5, are wrapped to three, that hold -3. -/
theorem removeIntervals_signedWrap_three :
    let sint (n : Nat) : Ty := .sint (.known (.ofNat n))
    let wide : Ty := .interval (.of (.ofInt (-8)) (.ofInt 7) (.known (.ofNat 0)))
    let stmts : List Stmt := [.node "m" (.ref "a" wide)]
    let wrap : Expr := .prim .wrap [.ref "m" wide, .ref "b" (sint 3)] [] (sint 3)
    let held : Environment := fun _ _ => 5
    ∃ z, (ofBody "Top" "Top" [⟨"a", .input, wide⟩, ⟨"b", .input, sint 3⟩]
        (.block (stmts ++ [.node "n" wrap]))).removeIntervals.outcome
          = .ok (ofBody "Top" "Top" [⟨"a", .input, sint 4⟩, ⟨"b", .input, sint 3⟩]
            (.block ([.node "m" (.ref "a" (sint 4))] ++ [.node "n" z]))) ∧
      z.ty = sint 3 ∧ z.hardwareAt held [] = some (-3) := by
  intro sint wide stmts wrap held
  let ports : List Port := [⟨"a", .input, wide⟩, ⟨"b", .input, sint 3⟩]
  let ports' : List Port := [⟨"a", .input, sint 4⟩, ⟨"b", .input, sint 3⟩]
  have portsDone : List.Forall₂ (fun p p' => p.lower.outcome = .ok p') ports ports' :=
    .cons rfl (.cons rfl .nil)
  have before : Threads Stmt.Removed (Scope.ofPorts ports') stmts [.node "m" (.ref "a" (sint 4))]
      ((Scope.ofPorts ports').declare "m" (sint 4)) :=
    .cons ⟨_, _, rfl, rfl, rfl⟩ (.nil _)
  have arg : Expr.LowersTo true (.ref "m" wide) (.ref "m" (sint 4)) := ⟨_, rfl, rfl⟩
  have range : Expr.LowersTo true (.ref "b" (sint 3)) (.ref "b" (sint 3)) := ⟨_, rfl, rfl⟩
  obtain ⟨accepts, evaluates⟩ := removeIntervals_signedWrap "Top" "Top" "n" [] (sint 3)
    portsDone before arg rfl rfl range rfl (by decide)
  obtain ⟨d, done⟩ := accepts.mpr (by decide)
  obtain ⟨z, rfl, ty, values⟩ := evaluates d done
  obtain ⟨r, result, only⟩ := values held 5 (by decide)
  obtain rfl : -3 = r := (only (-3)).mp ⟨by decide, by decide⟩
  exact ⟨z, done, ty, result⟩

/-- An operand from 0 to 3 has three bits, so its wrap to eight is rejected, although it would only
have to be widened. -/
theorem signedWrap_of_narrow_rejected :
    let sint (n : Nat) : Ty := .sint (.known (.ofNat n))
    let narrow : Ty := .interval (.of (.ofInt 0) (.ofInt 3) (.known (.ofNat 0)))
    let wrap : Expr := .prim .wrap [.ref "a" narrow, .ref "b" (sint 8)] [] (sint 8)
    (ofBody "Top" "Top" [⟨"a", .input, narrow⟩, ⟨"b", .input, sint 8⟩]
        (.node "n" wrap)).removeIntervals.outcome
      = .error (.inference (.bitsOutside (.ref "a" (sint 3)) (.ofNat 7) (.ofNat 0))) :=
  rfl

end Circuit

end IntervalHdl
