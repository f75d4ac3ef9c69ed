import IntervalHdl.Proofs.Nodes
import IntervalHdl.Proofs.Lowering.NoSurvivors
import IntervalHdl.Proofs.Removal.CarriedWidths
import IntervalHdl.Proofs.Removal.Verification

/-!
# Literals at the least width

The minimal widths are least among the widths whose range holds the number, for every number that
some width holds. Lowering puts literals at these widths: what it makes of an expression is the
expression again, over lowered parts, or an expression over lowered operands in which every literal
that was not there before is typed at the least width that holds it (`Expr.LowersWith`).
-/

namespace IntervalHdl
set_option autoImplicit false

open Reported

/-! ## Least widths -/

/-- The widths that hold the number in two's complement. -/
def signedWidths (v : Int) : Set Nat :=
  {w | 1 ≤ w ∧ -2 ^ (w - 1) ≤ v ∧ v ≤ 2 ^ (w - 1) - 1}

/-- The widths that hold the number, if it is not negative, unsigned. -/
def unsignedWidths (v : Int) : Set Nat := {w | 1 ≤ w ∧ v ≤ 2 ^ w - 1}

/-- An integer fits a signed width exactly from its number of signed bits on. -/
theorem mem_signedWidths_iff {v : Int} {w : Nat} : w ∈ signedWidths v ↔ signedBits v ≤ w := by
  cases w with
  | zero => simp [signedWidths, (signedBits_pos v).ne']
  | succ m =>
    rw [signedBits_le_succ_iff, signedWidths, Set.mem_ofPred_eq, Nat.add_sub_cancel]
    omega

/-- A number fits an unsigned width exactly from its number of bits on. -/
theorem mem_unsignedWidths_iff {v : Int} (nonneg : 0 ≤ v) {w : Nat} :
    w ∈ unsignedWidths v ↔ unsignedBits v ≤ w := by
  have digits : bitLength v.natAbs ≤ w ↔ v.natAbs < 2 ^ w := bitLength_le_iff
  have bound : v < 2 ^ w ↔ v.natAbs < 2 ^ w := by
    rw [← Int.natAbs_of_nonneg nonneg]
    exact_mod_cast Iff.rfl
  rw [unsignedWidths, Set.mem_ofPred_eq, unsignedBits]
  omega

/-- A count is the least of the widths from some bits on, unless it was cut off. -/
theorem isLeast_ofNat {widths : Set Nat} {bits n : Nat} (mem_iff : ∀ w, w ∈ widths ↔ bits ≤ w)
    (present : n ∈ widths) (small : n < 2 ^ 32) : IsLeast widths (BitCount.ofNat bits).toNat := by
  have uncut : (BitCount.ofNat bits).toNat = bits := by
    have := (mem_iff n).mp present
    rw [BitCount.toNat_ofNat, BitCount.limit]
    omega
  rw [uncut]
  exact ⟨(mem_iff bits).mpr le_rfl, fun w holds => (mem_iff w).mp holds⟩

/-- The signed width of a literal is the least that holds it. -/
theorem isLeast_signedWidth {v : Int} {n : Nat} (holds : n ∈ signedWidths v) (small : n < 2 ^ 32) :
    IsLeast (signedWidths v) (signedWidth v).toNat :=
  isLeast_ofNat (fun _ => mem_signedWidths_iff) holds small

/-- The unsigned width of a literal is the least that holds it. -/
theorem isLeast_unsignedWidth {v : Int} (nonneg : 0 ≤ v) {n : Nat} (holds : n ∈ unsignedWidths v)
    (small : n < 2 ^ 32) : IsLeast (unsignedWidths v) (unsignedWidth v).toNat :=
  isLeast_ofNat (fun _ => mem_unsignedWidths_iff nonneg) holds small

/-! ## Literals of lowered circuits -/

/-- The signed literal is typed at a known width, the least that holds it if there is one. -/
def LeastLiteral (v : Int) (w : Width) : Prop :=
  ∃ n : BitCount, (Expr.sint v w).ty = .sint (.known n) ∧
    ∀ m ∈ signedWidths v, m < 2 ^ 32 → IsLeast (signedWidths v) n.toNat

theorem leastLiteral_minimal (v : Int) : LeastLiteral v (.known (signedWidth v)) :=
  ⟨signedWidth v, rfl, fun _ holds small => isLeast_signedWidth holds small⟩

namespace Expr

/-- The second expression is the first, over parts for which it holds too and at other types; an
operator may have made way for an expression over its operands with literals of a certain kind. -/
inductive LowersWith (literal : Int → Width → Prop) : Expr → Expr → Prop where
  | ref (name : String) (ty ty' : Ty) : LowersWith literal (.ref name ty) (.ref name ty')
  | field {parent parent' : Expr} (name : String) (ty ty' : Ty)
    (step : LowersWith literal parent parent') :
    LowersWith literal (.field parent name ty) (.field parent' name ty')
  | index {parent parent' : Expr} (position : UInt64) (ty ty' : Ty)
    (step : LowersWith literal parent parent') :
    LowersWith literal (.index parent position ty) (.index parent' position ty')
  | uint (value : Int) (width : Width) : LowersWith literal (.uint value width) (.uint value width)
  | sint (value : Int) (width : Width) : LowersWith literal (.sint value width) (.sint value width)
  | prim {args args' : List Expr} {e' : Expr} (op : Operator) (consts : List Int) (ty : Ty)
    (each : List.Forall₂ (LowersWith literal) args args') (made : MadeOver literal args' e') :
    LowersWith literal (.prim op args consts ty) e'
  | mux {cond cond' tval tval' fval fval' : Expr} (ty ty' : Ty)
    (stepCond : LowersWith literal cond cond') (stepTval : LowersWith literal tval tval')
    (stepFval : LowersWith literal fval fval') :
    LowersWith literal (.mux cond tval fval ty) (.mux cond' tval' fval' ty')

/-- Lowering makes its literals at their minimal widths. -/
theorem lowersWith_of_lower {literal : Int → Width → Prop}
    (minimal : ∀ v, literal v (.known (signedWidth v))) {warn : Bool} {e e' : Expr}
    (done : (e.lower warn).outcome = .ok e') : LowersWith literal e e' := by
  induction e generalizing e' with
  | uint value width =>
    cases done
    exact .uint value width
  | sint value width =>
    cases done
    exact .sint value width
  | ref name ty =>
    simp only [lower, bind_outcome_eq_ok_iff, outcome_pure, Except.ok.injEq] at done
    obtain ⟨ty', -, rfl⟩ := done
    exact .ref name ty ty'
  | field parent name ty ih =>
    simp only [lower, bind_outcome_eq_ok_iff, outcome_pure, Except.ok.injEq] at done
    obtain ⟨parent', parentDone, ty', -, rfl⟩ := done
    exact .field name ty ty' (ih parentDone)
  | index parent position ty ih =>
    simp only [lower, bind_outcome_eq_ok_iff, outcome_pure, Except.ok.injEq] at done
    obtain ⟨parent', parentDone, ty', -, rfl⟩ := done
    exact .index position ty ty' (ih parentDone)
  | prim op args consts ty ih =>
    simp only [lower, bind_outcome_eq_ok_iff, lowerOperands_outcome_eq_ok_iff] at done
    obtain ⟨operands, each, done⟩ := done
    refine .prim op consts ty ?_ (op.madeOver_lower minimal done)
    exact List.forall₂_map_right_iff.mpr
      (forall₂_imp_of_mem (fun arg found o step => ih arg found step.1) each)
  | mux cond tval fval ty condIh tvalIh fvalIh =>
    simp only [lower, bind_outcome_eq_ok_iff, outcome_pure, Except.ok.injEq] at done
    obtain ⟨cond', condDone, tval', tvalDone, fval', fvalDone, ty', -, rfl⟩ := done
    exact .mux ty ty' (condIh condDone) (tvalIh tvalDone) (fvalIh fvalDone)

end Expr

/-- The expressions of the statements in a statement, in order. -/
def Stmt.allExprs (s : Stmt) : List Expr := s.all.flatMap exprs

theorem Stmt.allExprs_eq (s : Stmt) : s.allExprs = s.stmts.flatMap allExprs ++ s.exprs := by
  rw [allExprs, all_eq, List.flatMap_append, List.flatMap_singleton, List.flatMap_assoc]
  rfl

/-- The expressions of all statements of a circuit, in order. -/
def Circuit.exprs (c : Circuit) : List Expr :=
  c.modules.flatMap fun d => d.body?.toList.flatMap Stmt.allExprs

/-- The expressions of a lowered statement are the lowered ones, in their places. -/
theorem Stmt.allExprs_of_lower {warn : Bool} {s s' : Stmt}
    (done : (s.lower warn).outcome = .ok s') :
    List.Forall₂ (fun e e' => (e.lower warn).outcome = .ok e') s.allExprs s'.allExprs := by
  induction s using ind_stmts generalizing s' with
  | step s ih =>
    have lowered := loweredTo_of_lower done
    rw [allExprs_eq s, allExprs_eq s']
    apply List.rel_append
    · exact List.rel_flatMap (forall₂_imp_of_mem (fun inner found _ step => ih inner found step)
        lowered.stmts) fun _ _ each => each
    · exact lowered.exprs

/-- Lowering a circuit lowers its expressions, each in its place. -/
theorem Circuit.exprs_of_lower {warn : Bool} {c c' : Circuit}
    (done : (c.lower warn).outcome = .ok c') :
    List.Forall₂ (fun e e' => (e.lower warn).outcome = .ok e') c.exprs c'.exprs := by
  refine List.rel_flatMap (lower_eq_ok_iff.mp done).2 fun d d' done => ?_
  obtain ⟨-, -, body⟩ := Module.lower_eq_ok_iff.mp done
  generalize d.body? = before, d'.body? = after at body
  cases body with
  | none => exact .nil
  | some done => simpa using Stmt.allExprs_of_lower done

/-- The minimal widths are the least that hold an integer, whenever one below `2 ^ 32` does; and
every literal that lowering makes, wherever it stands, is typed at the least width that holds it. -/
theorem made_literals_have_least_width :
    (∀ (v : Int) (n : Nat), n ∈ signedWidths v → n < 2 ^ 32 →
      IsLeast (signedWidths v) (signedWidth v).toNat) ∧
    (∀ (v : Int) (n : Nat), 0 ≤ v → n ∈ unsignedWidths v → n < 2 ^ 32 →
      IsLeast (unsignedWidths v) (unsignedWidth v).toNat) ∧
    ∀ (warn : Bool) (c c' : Circuit), (c.lower warn).outcome = .ok c' →
      List.Forall₂ (Expr.LowersWith LeastLiteral) c.exprs c'.exprs :=
  ⟨fun _ _ holds small => isLeast_signedWidth holds small,
    fun _ _ nonneg holds small => isLeast_unsignedWidth nonneg holds small,
    fun _ _ _ done => (Circuit.exprs_of_lower done).imp fun _ _ step =>
      Expr.lowersWith_of_lower leastLiteral_minimal step⟩

/-- The least widths of two numbers, and the literals that lowering makes for a saturation. -/
theorem made_literals_have_least_width_saturating :
    IsLeast (signedWidths (-8)) 4 ∧ IsLeast (unsignedWidths 255) 8 ∧
      ∃ lowered, (Circuit.saturating.lower true).outcome = .ok lowered ∧
        List.Forall₂ (Expr.LowersWith LeastLiteral) Circuit.saturating.exprs lowered.exprs := by
  obtain ⟨signed, unsigned, literals⟩ := made_literals_have_least_width
  refine ⟨signed (-8) 4 ?_ (by decide), unsigned 255 8 (by decide) ?_ (by decide), _, rfl,
    literals true _ _ rfl⟩
  · exact ⟨by decide, by decide, by decide⟩
  · exact ⟨by decide, by decide⟩

end IntervalHdl
