import IntervalHdl.Proofs.Typing.Bodies
import IntervalHdl.Proofs.Typing.Ranges

/-!
# Typed expressions are wide enough

Every operator has a value: arithmetic operators compute a number, the others read the bits of
their operands. An expression is evaluated over unbounded integers (`Expr.exactAt`) and with every
result cut to its inferred width (`Expr.hardwareAt`), leaf by leaf where it is an aggregate. In a
typed circuit both agree, as long as no width was cut off at the greatest bit count
(`Circuit.wideEnough_of_infer`).
-/

namespace IntervalHdl
set_option autoImplicit false

/-- A step into an aggregate. -/
inductive Access where
  | field (name : String)
  | item (position : UInt64)
deriving DecidableEq

/-- Values of the names, leaf by leaf. -/
abbrev Environment := String → List Access → Int

namespace Ty

/-- The ground type at the end of a path into a type. -/
def leaf? : Ty → List Access → Option Ty
  | t, [] => if t.isGround then some t else none
  | t, .field name :: path => do (← t.field? name).ty.leaf? path
  | .vector elem size, .item position :: path => if position < size then elem.leaf? path else none
  | _, .item _ :: _ => none

theorem leaf?_integer_iff {s : Signedness} {w : Width} {path : List Access} {leaf : Ty} :
    (s.ty w).leaf? path = some leaf ↔ path = [] ∧ leaf = s.ty w := by
  have ground : (s.ty w).isGround = true := by cases s <;> rfl
  cases path with
  | nil =>
    simp only [leaf?, ground, if_true, Option.some.injEq, true_and]
    exact eq_comm
  | cons access path =>
    have none : (s.ty w).leaf? (access :: path) = none := by cases s <;> cases access <;> rfl
    simp [none]

/-- Of equal lists of fields the first of a name have equal types. -/
theorem find?_of_fieldsEqual {as bs : List (Field Ty)} {name : String} {a : Field Ty}
    (same : fieldsEqual as bs = true) (found : as.find? (·.name == name) = some a) :
    ∃ b, bs.find? (·.name == name) = some b ∧ a.ty.equal b.ty = true := by
  induction as generalizing bs with
  | nil => cases found
  | cons head as ih =>
    cases bs with
    | nil => simp [fieldsEqual] at same
    | cons head' bs =>
      simp only [fieldsEqual, Bool.and_eq_true, beq_iff_eq] at same
      obtain ⟨⟨⟨names, -⟩, types⟩, rest⟩ := same
      by_cases here : head.name = name
      · simp only [List.find?_cons, here, beq_self_eq_true, Option.some.injEq] at found
        subst found
        exact ⟨head', by simp only [List.find?_cons, ← names, here, beq_self_eq_true], types⟩
      · have skipped : (head.name == name) = false := beq_eq_false_iff_ne.mpr here
        simp only [List.find?_cons, skipped] at found
        obtain ⟨b, found', types'⟩ := ih rest found
        exact ⟨b, by simp only [List.find?_cons, ← names, skipped, found'], types'⟩

/-- Equal types have equal leaves. -/
theorem leaf?_of_equal {a b leaf : Ty} {path : List Access} (same : a.equal b = true)
    (found : a.leaf? path = some leaf) :
    ∃ leaf', b.leaf? path = some leaf' ∧ leaf.equal leaf' = true := by
  induction path generalizing a b with
  | nil =>
    have ground : b.isGround = a.isGround := by
      cases a <;> cases b <;> simp_all [equal, isGround]
    simp only [leaf?, ground] at found ⊢
    split at found
    · cases found
      exact ⟨b, by simp_all, same⟩
    · cases found
  | cons access path ih =>
    cases access with
    | field name =>
      simp only [leaf?, bind, Option.bind_eq_some_iff] at found ⊢
      obtain ⟨f, field, found⟩ := found
      cases a with
      | bundle as =>
        cases b with
        | bundle bs =>
          rw [equal] at same
          obtain ⟨g, field', types⟩ := find?_of_fieldsEqual same field
          obtain ⟨leaf', found', equal'⟩ := ih types found
          exact ⟨leaf', ⟨g, field', found'⟩, equal'⟩
        | _ => simp [equal] at same
      | _ => cases field
    | item position =>
      cases a with
      | vector elem size =>
        cases b with
        | vector elem' size' =>
          simp only [equal, Bool.and_eq_true, beq_iff_eq] at same
          simp only [leaf?] at found ⊢
          rw [← same.2]
          split at found
          · rename_i inside
            rw [if_pos inside]
            exact ih same.1 found
          · cases found
        | _ => simp [equal] at same
      | _ => simp [leaf?] at found

/-- Equal types hold the same values. -/
theorem holds_of_equal {a b : Ty} {v : Int} (same : a.equal b = true) (holds : b.Holds v) :
    a.Holds v := by
  cases a <;> cases b <;> simp_all [equal, Holds]

/-- The bits of a value at the width of its type. -/
def pattern (t : Ty) (v : Int) : BitVec t.size := BitVec.ofInt t.size v

end Ty

namespace Operator

/-- What the operators that are not arithmetic read from the bits of their operands. Operands of
different widths are extended by their signs. -/
def onBits? (op : Operator) (tys : List Ty) (vals consts : List Int) : Option Int :=
  match op, tys, vals, consts with
  | .sub, [_, _], [a, b], [] => some (a - b)
  | .asUInt, [s], [a], [] | .asSInt, [s], [a], [] => some (s.pattern a).toNat
  | .not, [s], [a], [] => some (~~~ s.pattern a).toNat
  | .and, [s, t], [a, b], [] =>
    let n := max s.size t.size
    some (BitVec.ofInt n a &&& BitVec.ofInt n b).toNat
  | .or, [s, t], [a, b], [] =>
    let n := max s.size t.size
    some (BitVec.ofInt n a ||| BitVec.ofInt n b).toNat
  | .xor, [s, t], [a, b], [] =>
    let n := max s.size t.size
    some (BitVec.ofInt n a ^^^ BitVec.ofInt n b).toNat
  | .andr, [s], [a], [] => some (flagValue (s.pattern a == BitVec.allOnes s.size))
  | .orr, [s], [a], [] => some (flagValue (s.pattern a != 0))
  | .xorr, [s], [a], [] =>
    some (flagValue ((List.range s.size).countP (s.pattern a).getLsbD % 2 == 1))
  | .cat, [s, t], [a, b], [] => some (s.pattern a ++ t.pattern b).toNat
  | .bits, [s], [a], [hi, lo] => some ((s.pattern a).extractLsb hi.toNat lo.toNat).toNat
  | .head, [s], [a], [n] => some (s.pattern a >>> (s.size - n.toNat)).toNat
  | .tail, [s], [a], [_] => some (s.pattern a).toNat
  | _, _, _, _ => none

/-- Operators take ground operands. -/
theorem ground_of_resultTy {op : Operator} {args : List Expr} {consts : List Int} {ty : Ty}
    (typed : op.resultTy args consts = .ok ty) : ∀ a ∈ args, a.ty.isGround = true := by
  have ground {s : Signedness} {w : Width} {t : Ty} (integer : t = s.ty w) :
      t.isGround = true := by
    subst integer
    cases s <;> rfl
  cases op with
  | add | sub | mul | div | rem | lt | leq | gt | geq | eq | neq | and | or | xor | cat =>
    simp only [resultTy, binary_eq_ok_iff, bind_eq_ok_iff, sameSign_eq_ok_iff] at typed
    obtain ⟨a, b, rfl, -, _, ⟨left, right⟩, -⟩ := typed
    simp [ground left, ground right]
  | dshl | dshr =>
    simp only [resultTy, binary_eq_ok_iff, bind_eq_ok_iff, integer_eq_ok_iff,
      shiftWidth_eq_ok_iff] at typed
    obtain ⟨a, b, rfl, -, _, left, _, right, -⟩ := typed
    have amount : b.ty.isGround = true := by rw [right]; rfl
    simp [ground left, amount]
  | pad | shl | shr | head | tail =>
    simp only [resultTy, unaryBy_eq_ok_iff, bind_eq_ok_iff, integer_eq_ok_iff] at typed
    obtain ⟨a, _, rfl, -, _, integer, -⟩ := typed
    simp [ground integer]
  | cvt | neg | not | andr | orr | xorr =>
    simp only [resultTy, unary_eq_ok_iff, bind_eq_ok_iff, integer_eq_ok_iff] at typed
    obtain ⟨a, rfl, -, _, integer, -⟩ := typed
    simp [ground integer]
  | asUInt | asSInt =>
    simp only [resultTy, unary_eq_ok_iff, bind_eq_ok_iff, rawWidth_eq_ok_iff] at typed
    obtain ⟨a, rfl, -, _, raw, -⟩ := typed
    rcases raw with raw | raw | ⟨raw, -⟩ <;> simp [raw, Ty.isGround]
  | bits =>
    simp only [resultTy, bitsTy_eq_ok_iff] at typed
    obtain ⟨a, _, _, _, _, rfl, -, integer, -⟩ := typed
    simp [ground integer]
  | asInterval | incp | decp | setp | wrap | clip => cases typed

/-- A typed operator that is not arithmetic reads something from the bits of its operands. -/
theorem exists_onBits {op : Operator} {args : List Expr} {vals consts : List Int} {ty : Ty}
    (typed : op.resultTy args consts = .ok ty) (other : op.isArithmetic ty = false)
    (count : vals.length = args.length) :
    ∃ v, op.onBits? (args.map Expr.ty) vals consts = some v := by
  cases op with
  | sub | and | or | xor | cat =>
    simp only [resultTy, binary_eq_ok_iff] at typed
    obtain ⟨a, b, rfl, rfl, -⟩ := typed
    obtain ⟨x, y, rfl⟩ := List.length_eq_two.mp count
    exact ⟨_, rfl⟩
  | asUInt | asSInt | not | andr | orr | xorr =>
    simp only [resultTy, unary_eq_ok_iff] at typed
    obtain ⟨a, rfl, rfl, -⟩ := typed
    obtain ⟨x, rfl⟩ := List.length_eq_one_iff.mp count
    exact ⟨_, rfl⟩
  | head | tail =>
    simp only [resultTy, unaryBy_eq_ok_iff] at typed
    obtain ⟨a, _, rfl, rfl, -⟩ := typed
    obtain ⟨x, rfl⟩ := List.length_eq_one_iff.mp count
    exact ⟨_, rfl⟩
  | bits =>
    simp only [resultTy, bitsTy_eq_ok_iff] at typed
    obtain ⟨a, _, _, _, _, rfl, rfl, -⟩ := typed
    obtain ⟨x, rfl⟩ := List.length_eq_one_iff.mp count
    exact ⟨_, rfl⟩
  | add | mul | div | rem | lt | leq | gt | geq | eq | neq | pad | shl | shr | dshl | dshr | cvt
  | neg => cases other
  | asInterval | incp | decp | setp | wrap | clip => cases typed

/-- The value of an operator. A number that it computes is put through `keep`; what it reads from
bits has the width of its type in any case. -/
def value? (keep : Ty → Int → Int) (op : Operator) (tys : List Ty) (vals consts : List Int)
    (ty : Ty) : Option Int :=
  if op.isArithmetic ty then (op.arithmetic? vals consts ty).map (keep ty)
  else (op.onBits? tys vals consts).map ty.fit

end Operator

namespace Expr

mutual

/-- The leaf of the value of an expression at the end of a path, every computed number put through
`keep`. -/
def valueAt (keep : Ty → Int → Int) (env : Environment) : Expr → List Access → Option Int
  | .ref name ty, path => do return keep (← ty.leaf? path) (env name path)
  | .field parent name _, path => parent.valueAt keep env (.field name :: path)
  | .index parent position _, path => parent.valueAt keep env (.item position :: path)
  | .uint value width, path => do return keep (← (Ty.uint width).leaf? path) value
  | .sint value width, path => do return keep (← (Ty.sint width).leaf? path) value
  | .prim op args consts ty, path => do
    let ty ← ty.leaf? path
    let vals ← values keep env args
    op.value? keep (args.map Expr.ty) vals consts ty
  | .mux cond tval fval ty, path => do
    let leaf ← ty.leaf? path
    let c ← cond.valueAt keep env []
    let t ← tval.valueAt keep env path
    let f ← fval.valueAt keep env path
    return keep leaf (if c = 0 then f else t)

/-- The values of operands, which are ground. -/
def values (keep : Ty → Int → Int) (env : Environment) : List Expr → Option (List Int)
  | [] => some []
  | e :: es => do
    let v ← e.valueAt keep env []
    let vs ← values keep env es
    return v :: vs

end

/-- Evaluation over unbounded integers. -/
abbrev exactAt : Environment → Expr → List Access → Option Int := valueAt fun _ v => v

/-- Evaluation with every result cut to the width of its type. -/
abbrev hardwareAt : Environment → Expr → List Access → Option Int := valueAt Ty.fit

/-- Operands have values together if each has one. -/
theorem values_of_forall₂ {keep : Ty → Int → Int} {env : Environment} {es : List Expr}
    {vals : List Int} (each : List.Forall₂ (fun e v => e.valueAt keep env [] = some v) es vals) :
    values keep env es = some vals := by
  induction each with
  | nil => rfl
  | cons head _ ih => simp [values, head, ih]

/-- What an expression is assumed to be given, node by node: its integer types have known widths,
the names hold values of their types, literals fit their widths, no width is cut off at the greatest
bit count, and no divisor is zero. -/
structure Admits (env : Environment) (e : Expr) : Prop where
  sized : e.ty.IsSized
  names : ∀ name ty, e = .ref name ty → ∀ path leaf, ty.leaf? path = some leaf →
    leaf.Holds (env name path)
  literals : ∀ value width, e = .uint value width ∨ e = .sint value width → e.ty.Holds value
  uncut : ∀ op args consts ty, e = .prim op args consts ty →
    op.uncutWidth (args.map Expr.ty) consts ≤ BitCount.limit
  divisors : ∀ op a b consts ty, e = .prim op [a, b] consts ty → op = .div ∨ op = .rem →
    b.exactAt env [] ≠ some 0

/-- Every leaf of the exact result is in the range of its type, so that cutting the result and all
that it is computed from to their widths does not change it. -/
def WideEnough (env : Environment) (e : Expr) : Prop :=
  ∀ path leaf, e.ty.leaf? path = some leaf →
    ∃ v, e.exactAt env path = some v ∧ e.hardwareAt env path = some v ∧ leaf.Holds v

/-- The node is as its subexpressions type it. -/
def NodeTyped (s : Scope) (e : Expr) : Prop := inferNode s e = .ok e

/-- What inference gives is typed at every node. -/
theorem everywhere_nodeTyped_of_infer {s : Scope} {e e' : Expr} (typed : e.infer s = .ok e') :
    e'.Everywhere (NodeTyped s) := by
  refine everywhere_of_replaceUpM (fun node e' inside done => ?_) typed
  obtain ⟨ty, rfl⟩ := retyped_of_inferNode done
  refine ⟨(inferNode_retyped s ty node).trans done, ?_⟩
  rw [children_retyped]
  exact inside

/-- An operator is typed where its rule gives the recorded type. -/
theorem nodeTyped_prim_iff {s : Scope} {op : Operator} {args : List Expr} {consts : List Int}
    {ty : Ty} : NodeTyped s (.prim op args consts ty) ↔ op.resultTy args consts = .ok ty := by
  simp [NodeTyped, inferNode, map_eq_ok_iff]

/-- A field is typed at the type of that field of its parent. -/
theorem nodeTyped_field_iff {s : Scope} {parent : Expr} {name : String} {ty : Ty} :
    NodeTyped s (.field parent name ty) ↔
      ∃ found, parent.ty.field? name = some found ∧ found.ty = ty := by
  simp only [NodeTyped, inferNode]
  split <;> simp_all

/-- An element is typed at the element type of a vector long enough. -/
theorem nodeTyped_index_iff {s : Scope} {parent : Expr} {position : UInt64} {ty : Ty} :
    NodeTyped s (.index parent position ty) ↔
      ∃ size, parent.ty = .vector ty size ∧ position < size := by
  simp only [NodeTyped, inferNode]
  split
  · split <;> simp_all
  · simp_all

/-- A selection is typed by its branches, over an unsigned condition. -/
theorem nodeTyped_mux_iff {s : Scope} {cond tval fval : Expr} {ty : Ty} :
    NodeTyped s (.mux cond tval fval ty) ↔
      (∃ w, cond.ty = .uint w) ∧ muxTy tval.ty fval.ty = .ok ty := by
  simp only [NodeTyped, inferNode]
  split <;> simp_all [map_eq_ok_iff]

/-- A selection is typed between integers of one sign, or between equal types. -/
theorem branches_of_muxTy {a b t : Ty} (typed : muxTy a b = .ok t) :
    (∃ (s : Signedness) (w v : Width), a = s.ty w ∧ b = s.ty v ∧ t = s.ty (w.max v)) ∨
      (a.equal b = true ∧ t = a) := by
  unfold muxTy at typed
  split at typed
  · cases typed
    exact .inl ⟨.unsigned, _, _, rfl, rfl, rfl⟩
  · cases typed
    exact .inl ⟨.signed, _, _, rfl, rfl, rfl⟩
  · split at typed
    · rename_i same
      cases typed
      exact .inr ⟨same, rfl⟩
    · cases typed

/-- Both branches of a selection have the leaves of its type, or narrower ones. -/
theorem leaves_of_muxTy {a b t leaf : Ty} {path : List Access} (typed : muxTy a b = .ok t)
    (sized : t.IsSized) (found : t.leaf? path = some leaf) :
    ∃ la lb, a.leaf? path = some la ∧ b.leaf? path = some lb ∧
      ∀ v, la.Holds v ∨ lb.Holds v → leaf.Holds v := by
  rcases branches_of_muxTy typed with ⟨s, w, v, rfl, rfl, rfl⟩ | ⟨same, rfl⟩
  · obtain ⟨_, known⟩ := sized s _ rfl
    obtain ⟨m, n, rfl, rfl, -⟩ := Width.combine_eq_known_iff.mp known
    obtain ⟨rfl, rfl⟩ := Ty.leaf?_integer_iff.mp found
    refine ⟨_, _, Ty.leaf?_integer_iff.mpr ⟨rfl, rfl⟩, Ty.leaf?_integer_iff.mpr ⟨rfl, rfl⟩, ?_⟩
    intro x holds
    simp only [Width.max_known, Ty.holds_known_iff, BitCount.toNat_max] at holds ⊢
    rcases holds with fits | fits
    · exact fits.mono (Nat.le_max_left _ _)
    · exact fits.mono (Nat.le_max_right _ _)
  · obtain ⟨lb, found', equal⟩ := Ty.leaf?_of_equal same found
    refine ⟨leaf, lb, found, found', fun x holds => ?_⟩
    exact holds.elim id (Ty.holds_of_equal equal)

/-- Over operands that are wide enough, so is an operator. -/
theorem wideEnough_prim {s : Scope} {env : Environment} {op : Operator} {args : List Expr}
    {consts : List Int} {ty : Ty} (typed : NodeTyped s (.prim op args consts ty))
    (admits : Admits env (.prim op args consts ty)) (sized : ∀ a ∈ args, a.ty.IsSized)
    (operands : ∀ a ∈ args, a.WideEnough env) :
    WideEnough env (.prim op args consts ty) := by
  rw [nodeTyped_prim_iff] at typed
  intro path leaf found
  obtain ⟨sign, w, rfl⟩ := Operator.resultTy_integer typed
  obtain ⟨rfl, rfl⟩ := Ty.leaf?_integer_iff.mp found
  -- one value for each operand, both exact and in hardware
  obtain ⟨vals, each⟩ := exists_forall₂ fun a present => operands a present [] a.ty (by
    rw [Ty.leaf?, if_pos (Operator.ground_of_resultTy typed a present)])
  have exact : values (fun _ v => v) env args = some vals :=
    values_of_forall₂ (each.imp fun _ _ found => found.1)
  have hardware : values Ty.fit env args = some vals :=
    values_of_forall₂ (each.imp fun _ _ found => found.2.1)
  have ranges : Operator.Operands args vals :=
    forall₂_imp_of_mem (fun a present _ found => ⟨sized a present, found.2.2⟩) each
  have found' : (sign.ty w).leaf? [] = some (sign.ty w) := found
  simp only [exactAt, hardwareAt, valueAt, found', exact, hardware, Option.bind_eq_bind,
    Option.bind_some]
  by_cases arithmetic : op.isArithmetic (sign.ty w) = true
  · have divisor : op = .rem → ∀ x y, vals = [x, y] → y ≠ 0 := by
      rintro rfl x y rfl rfl
      rcases each with _ | ⟨-, _ | ⟨divisor, _ | _⟩⟩
      exact admits.divisors _ _ _ _ _ rfl (.inr rfl) divisor.1
    obtain ⟨v, value, holds⟩ := Operator.holds_of_resultTy typed arithmetic
      (admits.uncut _ _ _ _ rfl) divisor ranges
    refine ⟨v, ?_, ?_, holds⟩
    · simp only [Operator.value?, if_pos arithmetic, value, Option.map_some]
    · simp only [Operator.value?, if_pos arithmetic, value, Option.map_some, Ty.fit_of_holds holds]
  · obtain ⟨v, value⟩ := Operator.exists_onBits typed (by simpa using arithmetic)
      each.length_eq.symm
    refine ⟨(sign.ty w).fit v, ?_, ?_, Ty.holds_fit _ v⟩
    all_goals simp only [Operator.value?, if_neg arithmetic, value, Option.map_some]

/-- Over typed subexpressions every expression is wide enough. -/
theorem wideEnough_of_typed {s : Scope} {env : Environment} {e : Expr}
    (typed : e.Everywhere (NodeTyped s)) (admits : e.Everywhere (Admits env)) :
    e.WideEnough env := by
  induction e with
  | ref name ty =>
    intro path leaf found
    have holds := admits.here.names name ty rfl path leaf found
    refine ⟨env name path, ?_, ?_, holds⟩
    · simp [exactAt, valueAt, show ty.leaf? path = some leaf from found]
    · simp [hardwareAt, valueAt, show ty.leaf? path = some leaf from found,
        Ty.fit_of_holds holds]
  | field parent name ty ih =>
    intro path leaf found
    obtain ⟨field, present, rfl⟩ := nodeTyped_field_iff.mp typed.here
    refine ih (typed.inside _ List.mem_cons_self) (admits.inside _ List.mem_cons_self)
      (.field name :: path) leaf ?_
    simp only [Ty.leaf?, present]
    exact found
  | index parent position ty ih =>
    intro path leaf found
    obtain ⟨size, vector, inside⟩ := nodeTyped_index_iff.mp typed.here
    refine ih (typed.inside _ List.mem_cons_self) (admits.inside _ List.mem_cons_self)
      (.item position :: path) leaf ?_
    simp only [vector, Ty.leaf?, if_pos inside]
    exact found
  | uint value width =>
    intro path leaf found
    have holds := admits.here.literals value width (.inl rfl)
    obtain ⟨rfl, rfl⟩ := (Ty.leaf?_integer_iff (s := .unsigned)).mp found
    refine ⟨value, rfl, ?_, holds⟩
    simp only [hardwareAt, valueAt]
    exact congrArg some (Ty.fit_of_holds holds)
  | sint value width =>
    intro path leaf found
    have holds := admits.here.literals value width (.inr rfl)
    obtain ⟨rfl, rfl⟩ := (Ty.leaf?_integer_iff (s := .signed)).mp found
    refine ⟨value, rfl, ?_, holds⟩
    simp only [hardwareAt, valueAt]
    exact congrArg some (Ty.fit_of_holds holds)
  | prim op args consts ty ih =>
    refine wideEnough_prim typed.here admits.here
      (fun a present => (admits.inside a present).here.sized) fun a present => ?_
    exact ih a present (typed.inside a present) (admits.inside a present)
  | mux cond tval fval ty condIh tvalIh fvalIh =>
    intro path leaf found
    simp only [everywhere_iff (e := .mux cond tval fval ty), children, List.forall_mem_cons]
      at typed admits
    obtain ⟨typed, condTyped, tvalTyped, fvalTyped, -⟩ := typed
    obtain ⟨admits, condAdmits, tvalAdmits, fvalAdmits, -⟩ := admits
    obtain ⟨⟨w, flag⟩, selected⟩ := nodeTyped_mux_iff.mp typed
    obtain ⟨la, lb, tvalLeaf, fvalLeaf, wider⟩ := leaves_of_muxTy selected admits.sized found
    obtain ⟨c, condExact, condHardware, -⟩ := condIh condTyped condAdmits [] (.uint w)
      (by rw [flag]; rfl)
    obtain ⟨t, tExact, tHardware, tHolds⟩ := tvalIh tvalTyped tvalAdmits path la tvalLeaf
    obtain ⟨f, fExact, fHardware, fHolds⟩ := fvalIh fvalTyped fvalAdmits path lb fvalLeaf
    have found' : ty.leaf? path = some leaf := found
    have holds : leaf.Holds (if c = 0 then f else t) := by
      split
      · exact wider f (.inr fHolds)
      · exact wider t (.inl tHolds)
    refine ⟨if c = 0 then f else t, ?_, ?_, holds⟩
    · simp [exactAt, valueAt, found', condExact, tExact, fExact]
    · simp [hardwareAt, valueAt, found', condHardware, tHardware, fHardware,
        Ty.fit_of_holds holds]

/-- Where every node is typed and admits its operands' values, each is wide enough for its own. -/
theorem everywhere_wideEnough {s : Scope} {env : Environment} {e : Expr}
    (typed : e.Everywhere (NodeTyped s)) (admits : e.Everywhere (Admits env)) :
    e.Everywhere (WideEnough env) := by
  induction admits with
  | intro here inside ih =>
    refine ⟨wideEnough_of_typed typed ⟨here, inside⟩, fun child present => ?_⟩
    exact ih child present (typed.inside child present)

/-- A name of an integer type is given a value in the range of the type. -/
theorem admits_ref {env : Environment} {name : String} {s : Signedness} {n : BitCount}
    (fits : s.Fits n.toNat (env name [])) : Admits env (.ref name (s.ty (.known n))) where
  sized r w same := by
    obtain ⟨-, rfl⟩ := Signedness.ty_inj.mp same
    exact ⟨n, rfl⟩
  names := by
    rintro _ _ ⟨⟩ path leaf found
    obtain ⟨rfl, rfl⟩ := Ty.leaf?_integer_iff.mp found
    exact Ty.holds_known_iff.mpr fits
  literals := by
    rintro _ _ (other | other) <;> cases other
  uncut := nofun
  divisors := nofun

/-- An operator of an integer type is applied within the limit, and not to divide by zero. -/
theorem admits_prim {env : Environment} {op : Operator} {args : List Expr} {consts : List Int}
    {s : Signedness} {n : BitCount}
    (uncut : op.uncutWidth (args.map Expr.ty) consts ≤ BitCount.limit)
    (divisors : op = .div ∨ op = .rem → ∀ a b, args = [a, b] → b.exactAt env [] ≠ some 0) :
    Admits env (.prim op args consts (s.ty (.known n))) where
  sized r w same := by
    obtain ⟨-, rfl⟩ := Signedness.ty_inj.mp same
    exact ⟨n, rfl⟩
  names := nofun
  literals := by
    rintro _ _ (other | other) <;> cases other
  uncut := by
    rintro _ _ _ _ ⟨⟩
    exact uncut
  divisors := by
    rintro _ a b _ _ ⟨⟩ division
    exact divisors division a b rfl

end Expr

namespace Circuit

/-- In a typed circuit every expression, and every expression inside it, is wide enough for each
environment that gives its names values of their types. -/
theorem wideEnough_of_infer {c d : Circuit} (typed : c.infer = .ok d) :
    d.EveryStmt fun stmt => ∀ e ∈ stmt.exprs, ∀ env : Environment,
      e.Everywhere (Expr.Admits env) → e.Everywhere (Expr.WideEnough env) := by
  refine (translated_of_infer typed).everywhere fun s e e' done env admits => ?_
  exact Expr.everywhere_wideEnough (Expr.everywhere_nodeTyped_of_infer done) admits

/-- A quotient, which is negated, and a shift to the left by a computed amount. -/
def extremes (quotient negated amount shifted : Ty) : Circuit :=
  let a : Ty := .sint (.known (.ofNat 4))
  let b : Ty := .sint (.known (.ofNat 2))
  let u : Ty := .uint (.known (.ofNat 3))
  ⟨"Top", [⟨"Top", [⟨"a", .input, a⟩, ⟨"b", .input, b⟩, ⟨"u", .input, u⟩],
    some (.block [
      .node "q" (.prim .neg [.prim .div [.ref "a" a, .ref "b" b] [] quotient] [] negated),
      .node "s" (.prim .dshl [.ref "u" u, .prim .tail [.ref "u" u] [1] amount] [] shifted)])⟩]⟩

/-- The most negative numbers. -/
def lowest : Environment := fun name _ =>
  match name with
  | "a" => -8
  | "b" => -1
  | _ => 7

/-- The quotient and the negative that need the bit more which their rules give them. -/
theorem wideEnough_of_infer_extremes :
    let sint (n : Nat) : Ty := .sint (.known (.ofNat n))
    let uint (n : Nat) : Ty := .uint (.known (.ofNat n))
    let a : Expr := .ref "a" (sint 4)
    let b : Expr := .ref "b" (sint 2)
    let quotient : Expr := .prim .div [a, b] [] (sint 5)
    let negated : Expr := .prim .neg [quotient] [] (sint 6)
    (extremes .unknown .unknown .unknown .unknown).infer =
        .ok (extremes (sint 5) (sint 6) (uint 2) (uint 6)) ∧
      negated.Everywhere (Expr.Admits lowest) ∧ negated.Everywhere (Expr.WideEnough lowest) ∧
      quotient.exactAt lowest [] = some 8 ∧ negated.hardwareAt lowest [] = some (-8) := by
  intro sint uint a b quotient negated
  have typed : (extremes .unknown .unknown .unknown .unknown).infer =
      .ok (extremes (sint 5) (sint 6) (uint 2) (uint 6)) := rfl
  have inA : Expr.Admits lowest a := Expr.admits_ref (s := .signed) (by decide)
  have inB : Expr.Admits lowest b := Expr.admits_ref (s := .signed) (by decide)
  have divides : Expr.Admits lowest quotient :=
    Expr.admits_prim (s := .signed) (by decide) (by rintro - _ _ ⟨⟩; decide)
  have negates : Expr.Admits lowest negated :=
    Expr.admits_prim (s := .signed) (by decide) (by rintro (other | other) <;> cases other)
  have admits : negated.Everywhere (Expr.Admits lowest) := by
    refine ⟨negates, List.forall_mem_singleton.mpr ⟨divides, ?_⟩⟩
    simp only [quotient, Expr.children, List.forall_mem_cons]
    exact ⟨⟨inA, by simp [a, Expr.children]⟩, ⟨inB, by simp [b, Expr.children]⟩, by simp⟩
  have all := wideEnough_of_infer typed _ List.mem_cons_self _ rfl
  have node := (all.inside _ List.mem_cons_self).here negated List.mem_cons_self
  exact ⟨typed, admits, node lowest admits, by decide, by decide⟩

end Circuit

end IntervalHdl
