import IntervalHdl.Proofs.Removal.CarriedWidths
import IntervalHdl.Proofs.Refinement.Expressions

/-!
# Reading the bits of interval arithmetic

A removal turns the bits of an interval value into the bits of the signed integer that it lowers to,
at the width that inference settles for it, and these are the encoding of the value modulo that
power of two (`Circuit.keepsBits_of_removeIntervals`). The encoding exists, and is in the recorded
range, wherever the recorded ranges cover what their operands give (`Expr.Ranged.encodes`).
-/

namespace IntervalHdl
set_option autoImplicit false

open Reported

namespace Expr

/-- Aligned interval arithmetic over given names, whose recorded ranges hold what their operands can
give. The numbers are the encodings of the recorded bounds. -/
inductive Ranged (read : String → Int) : Expr → Int → Int → Prop where
  | ref {name : String} {t : Interval} {lo hi : Int} (ends : t.encodings? = some (lo, hi))
    (low : lo ≤ read name) (high : read name ≤ hi) : Ranged read (.ref name (.interval t)) lo hi
  | add {a b : Expr} {t : Interval} {la ha lb hb lo hi : Int} (left : Ranged read a la ha)
    (right : Ranged read b lb hb) (ends : t.encodings? = some (lo, hi)) (low : lo ≤ la + lb)
    (high : ha + hb ≤ hi) : Ranged read (.prim .add [a, b] [] (.interval t)) lo hi
  | sub {a b : Expr} {t : Interval} {la ha lb hb lo hi : Int} (left : Ranged read a la ha)
    (right : Ranged read b lb hb) (ends : t.encodings? = some (lo, hi)) (low : lo ≤ la - hb)
    (high : ha - lb ≤ hi) : Ranged read (.prim .sub [a, b] [] (.interval t)) lo hi
  | mul {a b : Expr} {t : Interval} {la ha lb hb lo hi : Int} (left : Ranged read a la ha)
    (right : Ranged read b lb hb) (ends : t.encodings? = some (lo, hi))
    (low : ∀ x ∈ [la, ha], ∀ y ∈ [lb, hb], lo ≤ x * y)
    (high : ∀ x ∈ [la, ha], ∀ y ∈ [lb, hb], x * y ≤ hi) :
    Ranged read (.prim .mul [a, b] [] (.interval t)) lo hi
  | incp {a : Expr} {t : Interval} {la ha lo hi : Int} (n : BitCount) (arg : Ranged read a la ha)
    (ends : t.encodings? = some (lo, hi)) (low : lo ≤ la * 2 ^ n.toNat)
    (high : ha * 2 ^ n.toNat ≤ hi) :
    Ranged read (.prim .incp [a] [(n.toNat : Int)] (.interval t)) lo hi
  | decp {a : Expr} {t : Interval} {la ha lo hi : Int} (n : BitCount) (arg : Ranged read a la ha)
    (ends : t.encodings? = some (lo, hi)) (low : lo ≤ la / 2 ^ n.toNat)
    (high : ha / 2 ^ n.toNat ≤ hi) :
    Ranged read (.prim .decp [a] [(n.toNat : Int)] (.interval t)) lo hi
  | clip {a range : Expr} {t : Interval} {la ha lo hi : Int} (consts : List Int)
    (arg : Ranged read a la ha) (ends : t.encodings? = some (lo, hi)) (ordered : lo ≤ hi) :
    Ranged read (.prim .clip [a, range] consts (.interval t)) lo hi
  | wrap {a range : Expr} {t : Interval} {la ha lb hb lo hi : Int} (consts : List Int)
    (arg : Ranged read a la ha) (target : range.ty.wrapRange? = some (lb, hb)) (ordered : lb ≤ hb)
    (ends : t.encodings? = some (lo, hi)) (low : lo ≤ lb) (high : hb ≤ hi) :
    Ranged read (.prim .wrap [a, range] consts (.interval t)) lo hi
  | wrapWidth {a range : Expr} {t : Interval} {n : BitCount} {la ha lo hi : Int}
    (consts : List Int) (arg : Ranged read a la ha) (signed : range.ty = .sint (.known n))
    (ends : t.encodings? = some (lo, hi)) (holds : ∀ v, FitsSigned n.toNat v → lo ≤ v ∧ v ≤ hi) :
    Ranged read (.prim .wrap [a, range] consts (.interval t)) lo hi
  | mux {a b : Expr} {t : Interval} {la ha lb hb lo hi : Int} (c : Expr)
    (left : Ranged read a la ha) (right : Ranged read b lb hb)
    (ends : t.encodings? = some (lo, hi)) (low : lo ≤ min la lb) (high : max ha hb ≤ hi) :
    Ranged read (.mux c a b (.interval t)) lo hi

/-- Every condition that a removal keeps of the expression has a value. -/
def HasFlags (flag : Expr → Int → Prop) (e : Expr) : Prop :=
  ∀ c tval fval ty, (Expr.mux c tval fval ty).Kept e → ∃ k, flag c k

theorem HasFlags.inside {flag : Expr → Int → Prop} {e child : Expr} (flags : e.HasFlags flag)
    (present : child ∈ e.keptChildren) : child.HasFlags flag :=
  fun c tval fval ty kept => flags c tval fval ty (.inside present kept)

namespace Ranged

variable {read : String → Int} {a : Expr} {lo hi : Int}

/-- What has a range is recorded at an interval with these ends. -/
theorem ends (ranged : a.Ranged read lo hi) :
    ∃ t, a.ty = .interval t ∧ t.encodings? = some (lo, hi) := by
  cases ranged with
  | ref ends | add _ _ ends | sub _ _ ends | mul _ _ ends | incp _ _ ends | decp _ _ ends
  | clip _ _ ends | wrap _ _ _ _ ends | wrapWidth _ _ _ ends | mux _ _ _ ends =>
    exact ⟨_, rfl, ends⟩

/-- Where the recorded ranges cover what their operands give, and every condition has a value, there
is an encoding, and it is in the recorded range. -/
theorem encodes {flag : Expr → Int → Prop} (ranged : a.Ranged read lo hi)
    (flags : a.HasFlags flag) : ∃ v, a.Encodes flag read v ∧ lo ≤ v ∧ v ≤ hi := by
  induction ranged with
  | ref ends low high => exact ⟨_, .ref _ _, low, high⟩
  | add left right ends low high leftIh rightIh =>
    obtain ⟨x, xEncodes, xLow, xHigh⟩ := leftIh (flags.inside List.mem_cons_self)
    obtain ⟨y, yEncodes, yLow, yHigh⟩ :=
      rightIh (flags.inside (List.mem_cons_of_mem _ List.mem_cons_self))
    exact ⟨x + y, .add _ _ xEncodes yEncodes, by omega, by omega⟩
  | sub left right ends low high leftIh rightIh =>
    obtain ⟨x, xEncodes, xLow, xHigh⟩ := leftIh (flags.inside List.mem_cons_self)
    obtain ⟨y, yEncodes, yLow, yHigh⟩ :=
      rightIh (flags.inside (List.mem_cons_of_mem _ List.mem_cons_self))
    exact ⟨x - y, .sub _ _ xEncodes yEncodes, by omega, by omega⟩
  | mul left right ends low high leftIh rightIh =>
    obtain ⟨x, xEncodes, xIn⟩ := leftIh (flags.inside List.mem_cons_self)
    obtain ⟨y, yEncodes, yIn⟩ :=
      rightIh (flags.inside (List.mem_cons_of_mem _ List.mem_cons_self))
    exact ⟨x * y, .mul _ _ xEncodes yEncodes, mul_between_of_corners xIn yIn low high⟩
  | incp n arg ends low high ih =>
    obtain ⟨x, encodes, xLow, xHigh⟩ := ih (flags.inside List.mem_cons_self)
    have positive : (0 : Int) < 2 ^ n.toNat := by positivity
    exact ⟨_, .incp _ _ encodes, low.trans (mul_le_mul_of_nonneg_right xLow positive.le),
      (mul_le_mul_of_nonneg_right xHigh positive.le).trans high⟩
  | decp n arg ends low high ih =>
    obtain ⟨x, encodes, xLow, xHigh⟩ := ih (flags.inside List.mem_cons_self)
    have positive : (0 : Int) < 2 ^ n.toNat := by positivity
    exact ⟨_, .decp _ _ encodes, low.trans (Int.ediv_le_ediv positive xLow),
      (Int.ediv_le_ediv positive xHigh).trans high⟩
  | @clip a range t la ha lo hi consts arg ends ordered ih =>
    obtain ⟨x, encodes, xLow, xHigh⟩ := ih (flags.inside List.mem_cons_self)
    have found : RangeCheck.of? t.encodings? a.ty = some ⟨lo, hi, la, ha⟩ :=
      RangeCheck.of?_eq_some_iff.mpr ⟨ends, arg.ends⟩
    exact ⟨max lo (min hi x), .clip consts found ordered encodes xLow xHigh, by omega, by omega⟩
  | @wrap a range t la ha lb hb lo hi consts arg target ordered ends low high ih =>
    obtain ⟨x, encodes, xLow, xHigh⟩ := ih (flags.inside List.mem_cons_self)
    have found : RangeCheck.of? range.ty.wrapRange? a.ty = some ⟨lb, hb, la, ha⟩ :=
      RangeCheck.of?_eq_some_iff.mpr ⟨target, arg.ends⟩
    have nonneg := Int.emod_nonneg (x - lb) (show hb - lb + 1 ≠ 0 by omega)
    have below := Int.emod_lt_of_pos (x - lb) (show 0 < hb - lb + 1 by omega)
    refine ⟨_, .wrap consts _ found ordered encodes xLow xHigh, ?_⟩
    show lo ≤ lb + (x - lb) % (hb - lb + 1) ∧ lb + (x - lb) % (hb - lb + 1) ≤ hi
    omega
  | wrapWidth consts arg signed ends holds ih =>
    obtain ⟨x, encodes, -⟩ := ih (flags.inside List.mem_cons_self)
    exact ⟨_, .wrapWidth consts _ signed encodes, holds _ (fitsSigned_bmod _ _)⟩
  | mux c left right ends low high leftIh rightIh =>
    obtain ⟨k, flagged⟩ := flags c _ _ _ .here
    obtain ⟨x, xEncodes, xLow, xHigh⟩ :=
      leftIh (flags.inside (List.mem_cons_of_mem _ List.mem_cons_self))
    obtain ⟨y, yEncodes, yLow, yHigh⟩ :=
      rightIh (flags.inside (List.mem_cons_of_mem _ (List.mem_cons_of_mem _ List.mem_cons_self)))
    refine ⟨_, .mux _ flagged xEncodes yEncodes, ?_⟩
    split <;> omega

end Ranged

/-! ## What is read -/

/-- The node that reads the bits of a lowered value, at the width that the aligned value settles
at. -/
def readBits (s : Scope) (a lowered : Expr) : Expr :=
  .prim .asUInt [lowered] [] (.uint (.known (a.settledWidth s)))

/-- The bits read are those of an integer, which stands for the value of the aligned expression. -/
structure ReadsEncoding (s : Scope) (a lowered : Expr) (env : Environment) (v : Int) : Prop where
  exact : lowered.exactAt env [] = some v
  hardware : (readBits s a lowered).hardwareAt env [] = some (v % 2 ^ (a.settledWidth s).toNat)
  unique : ∀ u, a.Encodes (ComputesTo true s env) (fun name => env name []) u → u = v
  ranged : ∀ lo hi, a.Ranged (fun name => env name []) lo hi →
    a.Encodes (ComputesTo true s env) (fun name => env name []) v ∧ lo ≤ v ∧ v ≤ hi

/-- Wherever the first expression reads the bits of interval arithmetic, the second reads those of
its lowered form, at the settled width, which is that of the lowered type for names, settings of the
point and selections. -/
def KeepsBits (s : Scope) (e e' : Expr) : Prop :=
  ∀ y consts ty, (Expr.prim .asUInt [y] consts ty).Kept e → y.IntervalArithmetic s →
    ∃ a l y', y.align.outcome = .ok a ∧ (a.lower true).outcome = .ok l ∧ l.infer s = .ok y' ∧
      (readBits s a y').Within e' ∧
      (∀ t, y.Positioned s t → t.lowered = .ok (.sint (.known (a.settledWidth s)))) ∧
      ∀ env, (readBits s a y').Everywhere (Admits env) → ∃ v, ReadsEncoding s a y' env v

/-- What the stages make of a node that reads bits is one that reads them at the settled width. -/
theorem Removed.readBits {s : Scope} {y x' : Expr} {consts : List Int} {ty : Ty}
    (removed : Removed true s (.prim .asUInt [y] consts ty) x') (arith : y.IntervalArithmetic s) :
    ∃ a l y', y.align.outcome = .ok a ∧ (a.lower true).outcome = .ok l ∧ l.infer s = .ok y' ∧
      x' = readBits s a y' := by
  obtain ⟨xa, xl, aligned, lowered, typed⟩ := removed
  obtain ⟨_, args, node⟩ := align_prim_eq_ok_iff.mp aligned
  obtain ⟨a, arg, rfl⟩ := single_of_forall₂ args
  cases node with
  | meet _ _ common => cases common
  | other plain => cases plain
  | keep =>
    obtain ⟨operands, each, done⟩ := lower_prim_eq_ok_iff.mp lowered
    obtain ⟨o, ⟨argLowered, -⟩, rfl⟩ := single_of_forall₂ each
    rw [Operator.lower_of_generic rfl] at done
    simp only [bind_outcome_eq_ok_iff, outcome_pure, Except.ok.injEq] at done
    obtain ⟨ty', -, rfl⟩ := done
    obtain ⟨_, ty'', args, result, rfl⟩ := infer_prim_eq_ok_iff.mp typed
    obtain ⟨y', argTyped, rfl⟩ := single_of_forall₂ args
    have settles := ((arith.align arg).settles argLowered argTyped).unique argTyped
    simp only [Operator.resultTy, Operator.unary_eq_ok_iff, bind_eq_ok_iff, pure_eq_ok_iff]
      at result
    obtain ⟨_, ⟨⟩, rfl, w, raw, rfl⟩ := result
    rw [settles.1] at raw
    cases raw
    exact ⟨a, o.value, y', arg, argLowered, argTyped, rfl⟩

/-- In a wide enough expression every condition has a value. -/
theorem hasFlags_of_wideEnough {s : Scope} {env : Environment} {a l y' : Expr}
    (lowered : (a.lower true).outcome = .ok l) (typed : l.infer s = .ok y')
    (wide : y'.Everywhere (WideEnough env)) : a.HasFlags (ComputesTo true s env) := by
  intro c tval fval ty kept
  obtain ⟨m, mLowered, mWithin⟩ := kept.lower lowered
  simp only [Expr.lower, bind_outcome_eq_ok_iff, outcome_pure, Except.ok.injEq] at mLowered
  obtain ⟨c', condLowered, _, -, _, -, _, -, rfl⟩ := mLowered
  obtain ⟨m', mTyped, mWithin'⟩ := mWithin.infer typed
  obtain ⟨node, rebuilt, nodeDone⟩ := infer_eq_ok_iff.mp mTyped
  cases rebuilt with
  | @mux _ cond'' _ _ _ _ _ condTyped _ _ =>
    have present : cond'' ∈ m'.children := by
      rw [children_of_inferNode nodeDone]
      exact List.mem_cons_self
    simp only [inferNode] at nodeDone
    split at nodeDone
    · rename_i w flag
      have cond := (mWithin'.of_everywhere wide).inside _ present
      obtain ⟨k, value, -⟩ := cond.here [] (.uint w) (by rw [flag]; rfl)
      exact ⟨k, c', _, condLowered, condTyped, value⟩
    · cases nodeDone

/-- Over typed subexpressions, and within the limits of their widths, the bits read are those of the
encoding. -/
theorem exists_readsEncoding {s : Scope} {env : Environment} {a l y' : Expr}
    (arith : a.IntervalArithmetic s) (lowered : (a.lower true).outcome = .ok l)
    (typed : l.infer s = .ok y') (wide : y'.Everywhere (WideEnough env)) :
    ∃ v, ReadsEncoding s a y' env v := by
  obtain ⟨ty, value⟩ := (arith.settles lowered typed).unique typed
  obtain ⟨v, exact, hardware, -⟩ := wide.here [] (.sint (.known (a.settledWidth s)))
    (by rw [ty]; rfl)
  have unique (u : Int) (encodes : a.Encodes (ComputesTo true s env) (fun name => env name []) u) :
      u = v := Option.some.inj ((value env u encodes).symm.trans exact)
  refine ⟨v, exact, ?_, unique, fun lo hi ranged => ?_⟩
  · have bits := Ty.toNat_pattern .signed (a.settledWidth s) v
    refine valueAt_prim (r := .unsigned) (.cons hardware .nil) ?_
    show some ((Ty.uint (.known (a.settledWidth s))).fit (y'.ty.pattern v).toNat) = _
    rw [ty, ← Signedness.ty_signed, bits, Ty.fit, Int.emod_emod_of_dvd _ (dvd_refl _)]
  · obtain ⟨u, encodes, inside⟩ := ranged.encodes (hasFlags_of_wideEnough lowered typed wide)
    rw [← unique u encodes]
    exact ⟨encodes, inside⟩

/-- What the stages make of an expression keeps its bits. -/
theorem Becomes.keepsBits {s : Scope} {e e' : Expr} (done : Becomes true s e e') :
    KeepsBits s e e' := by
  intro y consts ty kept arith
  obtain ⟨x', removed, within⟩ := done.within kept
  have typedAll : x'.Everywhere (NodeTyped s) := by
    obtain ⟨_, _, -, -, typed⟩ := removed
    exact everywhere_nodeTyped_of_infer typed
  obtain ⟨a, l, y', aligned, lowered, typed, rfl⟩ := removed.readBits arith
  refine ⟨a, l, y', aligned, lowered, typed, within, fun t positioned => ?_, fun env admits => ?_⟩
  · exact (positioned.carried aligned).lowered
  · exact exists_readsEncoding (arith.align aligned) lowered typed
      ((everywhere_wideEnough typedAll admits).inside _ List.mem_cons_self)

end Expr

namespace Circuit

/-- A removal keeps the bits that are read of interval arithmetic, at the widths that inference
settles. -/
theorem keepsBits_of_removeIntervals {c d : Circuit} (done : c.removeIntervals.outcome = .ok d) :
    Circuit.Translated (fun ty ty' => ty.lower.outcome = .ok ty') Expr.KeepsBits c d :=
  translated_of_removeIntervals (fun _ _ _ becomes => becomes.keepsBits) done

/-- Reads the bits of a value over two inputs. -/
def reading (left right : Ty) (value : Expr) (bits : Ty) : Circuit :=
  ⟨"Top", [⟨"Top", [⟨"a", .input, left⟩, ⟨"b", .input, right⟩],
    some (.node "n" (.prim .asUInt [value] [] bits))⟩]⟩

/-- The bits of a sum of two ranges. -/
theorem keepsBits_of_removeIntervals_sum :
    let range (lo hi : Int) : Ty := .interval (.of (.ofInt lo) (.ofInt hi) (.known (.ofNat 0)))
    let sint (n : Nat) : Ty := .sint (.known (.ofNat n))
    let sum : Expr := .prim .add [.ref "a" (range (-4) 0), .ref "b" (range 0 3)] [] (range (-4) 3)
    let sum' : Expr := .prim .add [.ref "a" (sint 3), .ref "b" (sint 3)] [] (sint 4)
    let lowest : Environment := fun name _ => if name = "a" then -4 else 0
    (reading (range (-4) 0) (range 0 3) sum .unknown).removeIntervals.outcome =
        .ok (reading (sint 3) (sint 3) sum' (.uint (.known (.ofNat 4)))) ∧
      Expr.ReadsEncoding [("b", sint 3), ("a", sint 3)] sum sum' lowest (-4) ∧
      (Expr.prim .asUInt [sum'] [] (.uint (.known (.ofNat 4)))).hardwareAt lowest [] = some 12 := by
  intro range sint sum sum' lowest
  have removed : (reading (range (-4) 0) (range 0 3) sum .unknown).removeIntervals.outcome =
      .ok (reading (sint 3) (sint 3) sum' (.uint (.known (.ofNat 4)))) := rfl
  rcases (keepsBits_of_removeIntervals removed).modules with _ | ⟨⟨-, -, body⟩, -⟩
  obtain ⟨_, translated⟩ := Option.rel_some_some.mp body
  cases translated with
  | node _ keeps =>
    have arith : sum.IntervalArithmetic [("b", sint 3), ("a", sint 3)] :=
      .combine _ (.inl rfl) (.ref _ rfl) (.ref _ rfl)
    obtain ⟨a, l, y', aligned, lowered, typed, -, -, reads⟩ := keeps sum [] .unknown .here arith
    cases aligned
    cases lowered
    cases typed
    have admits : (Expr.readBits [("b", sint 3), ("a", sint 3)] sum sum').Everywhere
        (Expr.Admits lowest) := by
      have inA : Expr.Admits lowest (.ref "a" (sint 3)) :=
        Expr.admits_ref (s := .signed) (by decide)
      have inB : Expr.Admits lowest (.ref "b" (sint 3)) :=
        Expr.admits_ref (s := .signed) (by decide)
      have adds : Expr.Admits lowest sum' :=
        Expr.admits_prim (s := .signed) (by decide) (by rintro (other | other) <;> cases other)
      have bits : Expr.Admits lowest (Expr.readBits [("b", sint 3), ("a", sint 3)] sum sum') :=
        Expr.admits_prim (s := .unsigned) (by decide) (by rintro (other | other) <;> cases other)
      refine ⟨bits, List.forall_mem_singleton.mpr ⟨adds, ?_⟩⟩
      simp only [sum', Expr.children, List.forall_mem_cons]
      exact ⟨⟨inA, by simp [Expr.children]⟩, ⟨inB, by simp [Expr.children]⟩, by simp⟩
    obtain ⟨v, read⟩ := reads lowest admits
    cases read.exact
    exact ⟨removed, read, read.hardware⟩

/-- The width that a removal settles for the bits need not be that of the lowered type: it is wider
for a sum and a product in the ranges that hold their results, for a saturation into a wider range
it is narrower, and for a wrap into a narrower one wider. -/
theorem settled_widths_differ :
    let range (lo hi : Int) : Ty := .interval (.of (.ofInt lo) (.ofInt hi) (.known (.ofNat 0)))
    let sint (n : Nat) : Ty := .sint (.known (.ofNat n))
    let uint (n : Nat) : Ty := .uint (.known (.ofNat n))
    let applied (op : Operator) (left right value : Ty) : Expr :=
      .prim op [.ref "a" left, .ref "b" right] [] value
    ((range (-4) 3).lower.outcome = .ok (sint 3) ∧
      (reading (range (-4) 0) (range 0 3) (applied .add (range (-4) 0) (range 0 3) (range (-4) 3))
        .unknown).removeIntervals.outcome =
        .ok (reading (sint 3) (sint 3) (applied .add (sint 3) (sint 3) (sint 4)) (uint 4))) ∧
    ((range 0 9).lower.outcome = .ok (sint 5) ∧
      (reading (range 0 3) (range 0 3) (applied .mul (range 0 3) (range 0 3) (range 0 9))
        .unknown).removeIntervals.outcome =
        .ok (reading (sint 3) (sint 3) (applied .mul (sint 3) (sint 3) (sint 6)) (uint 6))) ∧
    ((range (-8) 7).lower.outcome = .ok (sint 4) ∧
      (reading (range (-4) 3) (range (-8) 7)
        (applied .clip (range (-4) 3) (range (-8) 7) (range (-8) 7)) .unknown).removeIntervals.outcome =
        .ok (reading (sint 3) (sint 4) (.ref "a" (sint 3)) (uint 3))) ∧
    ((range 0 3).lower.outcome = .ok (sint 3) ∧
      (reading (range 0 5) (range 0 3) (applied .wrap (range 0 5) (range 0 3) (range 0 3))
        .unknown).removeIntervals.outcome =
        .ok (reading (sint 4) (sint 3)
          (.mux (.prim .gt [.ref "a" (sint 4), .sint 3 (.known (.ofNat 3))] [] (uint 1))
            (.prim .sub [.ref "a" (sint 4), .sint 4 (.known (.ofNat 4))] [] (sint 5))
            (.ref "a" (sint 4)) (sint 5)) (uint 5))) :=
  ⟨⟨rfl, rfl⟩, ⟨rfl, rfl⟩, ⟨rfl, rfl⟩, ⟨rfl, rfl⟩⟩

end Circuit

end IntervalHdl
