import IntervalHdl.Typing
import IntervalHdl.Proofs.Traversal

/-!
# What the typing rules accept

Each helper of the typing rules succeeds on exactly one form of operands, stated here as an
equivalence, so that a rule is opened by rewriting and never by unfolding. The results that
everything else builds on: an operator gives an integer type, and only the operators that are not
reserved for intervals give one at all.
-/

namespace IntervalHdl
set_option autoImplicit false

/-- The type of an integer determines its sign and its width. -/
theorem Signedness.ty_inj {s r : Signedness} {w v : Width} : s.ty w = r.ty v ↔ s = r ∧ w = v := by
  cases s <;> cases r <;> simp [Signedness.ty]

theorem Signedness.ty_unsigned (w : Width) : Signedness.unsigned.ty w = .uint w := rfl

theorem Signedness.ty_signed (w : Width) : Signedness.signed.ty w = .sint w := rfl

namespace Scope

variable {scope : Scope} {name other : String} {ty found : Ty}

/-- A name is resolved to the type that the scope has for it. -/
theorem resolve_eq_ok_iff : scope.resolve name = .ok ty ↔ scope.lookup name = some ty := by
  unfold resolve
  cases scope.lookup name <;> simp

/-- A declared name is found at its type. -/
@[simp] theorem lookup_declare_self : (scope.declare name ty).lookup name = some ty := by
  simp [declare]

/-- Other names are found as before. -/
theorem lookup_declare_of_ne (apart : other ≠ name) :
    (scope.declare name ty).lookup other = scope.lookup other := by
  simp [declare, List.lookup_cons, beq_false_of_ne apart]

/-- What is found behind a declaration is what it declares, or what was there before. -/
theorem lookup_declare_eq_some (lookup : (scope.declare name ty).lookup other = some found) :
    other = name ∧ ty = found ∨ other ≠ name ∧ scope.lookup other = some found := by
  by_cases same : other = name
  · subst same
    rw [lookup_declare_self] at lookup
    exact .inl ⟨rfl, Option.some.inj lookup⟩
  · rw [lookup_declare_of_ne same] at lookup
    exact .inr ⟨same, lookup⟩

theorem lookup_declare_eq_none_iff :
    (scope.declare name ty).lookup other = none ↔ other ≠ name ∧ scope.lookup other = none := by
  by_cases same : other = name
  · subst same
    simp
  · rw [lookup_declare_of_ne same]
    exact (and_iff_right same).symm

end Scope

namespace Operator

variable {op : Operator} {args : List Expr} {consts : List Int}

/-- An operand passes as an integer exactly with its sign and width. -/
theorem integer_eq_ok_iff {t : Ty} {r : Signedness × Width} :
    op.integer t = .ok r ↔ t = r.1.ty r.2 := by
  obtain ⟨s, w⟩ := r
  cases t <;> cases s <;> simp [integer, Signedness.ty, eq_comm]

/-- Two operands pass as integers of one sign exactly with that sign and their widths. -/
theorem sameSign_eq_ok_iff {a b : Ty} {r : Signedness × Width × Width} :
    op.sameSign a b = .ok r ↔ a = r.1.ty r.2.1 ∧ b = r.1.ty r.2.2 := by
  obtain ⟨s, wa, wb⟩ := r
  simp only [sameSign, bind_eq_ok_iff, integer_eq_ok_iff]
  constructor
  · rintro ⟨⟨s', wa'⟩, rfl, ⟨r, wb'⟩, rfl, same⟩
    split at same
    · cases same; subst_vars; exact ⟨rfl, rfl⟩
    · cases same
  · rintro ⟨rfl, rfl⟩
    exact ⟨(s, wa), rfl, (s, wb), rfl, by simp⟩

/-- A constant passes as a bit count exactly if it is one. -/
theorem bitCount_eq_ok_iff {v : Int} {n : BitCount} :
    op.bitCount v = .ok n ↔ (n.toNat : Int) = v := by
  rw [← BitCount.ofInt?_eq_some_iff]
  simp only [bitCount]
  split <;> simp_all

/-- Raw bits are those of an integer, or the one of a clock. -/
theorem rawWidth_eq_ok_iff {t : Ty} {w : Width} :
    op.rawWidth t = .ok w ↔
      t = .uint w ∨ t = .sint w ∨ (t = .clock ∧ w = .known (.ofNat 1)) := by
  cases t <;> simp [rawWidth, eq_comm]

/-- The amount of a shift is an unsigned integer. -/
theorem shiftWidth_eq_ok_iff {t : Ty} {w : Width} : op.shiftWidth t = .ok w ↔ t = .uint w := by
  cases t <;> simp [shiftWidth]

section Shapes

variable {t : Ty}

/-- A rule of one operand types exactly one operand and no constant. -/
theorem unary_eq_ok_iff {rule : Ty → Except TypingError Ty} :
    op.unary args consts rule = .ok t ↔ ∃ a, args = [a] ∧ consts = [] ∧ rule a.ty = .ok t := by
  unfold unary
  split
  · simp
  · rename_i other
    simp only [reduceCtorEq, false_iff]
    rintro ⟨a, rfl, rfl, -⟩
    exact other a rfl rfl

/-- A rule of two operands types exactly two operands and no constant. -/
theorem binary_eq_ok_iff {rule : Ty → Ty → Except TypingError Ty} :
    op.binary args consts rule = .ok t ↔
      ∃ a b, args = [a, b] ∧ consts = [] ∧ rule a.ty b.ty = .ok t := by
  unfold binary
  split
  · simp
  · rename_i other
    simp only [reduceCtorEq, false_iff]
    rintro ⟨a, b, rfl, rfl, -⟩
    exact other a b rfl rfl

/-- A rule of one operand and an amount types exactly one operand and one constant. -/
theorem unaryBy_eq_ok_iff {rule : Ty → BitCount → Except TypingError Ty} :
    op.unaryBy args consts rule = .ok t ↔
      ∃ (a : Expr) (n : BitCount), args = [a] ∧ consts = [(n.toNat : Int)] ∧
        rule a.ty n = .ok t := by
  unfold unaryBy
  split
  · rename_i a c
    simp only [bind_eq_ok_iff, bitCount_eq_ok_iff]
    constructor
    · rintro ⟨n, rfl, found⟩
      exact ⟨a, n, rfl, rfl, found⟩
    · rintro ⟨a', n, same, count, found⟩
      cases same
      exact ⟨n, (List.cons.inj count).1.symm, found⟩
  · rename_i other
    simp only [reduceCtorEq, false_iff]
    rintro ⟨a, n, rfl, rfl, -⟩
    exact other a n.toNat rfl rfl

/-- A bit selection is typed exactly within its operand. -/
theorem bitsTy_eq_ok_iff :
    bitsTy args consts = .ok t ↔
      ∃ (a : Expr) (hi lo : BitCount) (s : Signedness) (w : Width), args = [a] ∧
        consts = [(hi.toNat : Int), (lo.toNat : Int)] ∧ a.ty = s.ty w ∧
        ¬ (hi < lo ∨ liesOutside w hi = true) ∧
        t = .uint (.known (hi - lo + .ofNat 1)) := by
  unfold bitsTy
  split
  · rename_i a hi lo
    simp only [bind_eq_ok_iff, bitCount_eq_ok_iff, integer_eq_ok_iff]
    constructor
    · rintro ⟨hi', rfl, lo', rfl, ⟨s, w⟩, ty, inside⟩
      split at inside
      · cases inside
      · rename_i within
        cases inside
        exact ⟨a, hi', lo', s, w, rfl, rfl, ty, within, rfl⟩
    · rintro ⟨a', hi', lo', s, w, same, counts, ty, within, rfl⟩
      cases same
      simp only [List.cons.injEq, and_true] at counts
      exact ⟨hi', counts.1.symm, lo', counts.2.symm, (s, w), ty, by rw [if_neg within]⟩
  · rename_i other
    simp only [reduceCtorEq, false_iff]
    rintro ⟨a, hi, lo, s, w, rfl, rfl, -⟩
    exact other a hi.toNat lo.toNat rfl rfl

end Shapes

/-- Operators reserved for intervals have no typing rule. -/
theorem isIntervalOnly_of_resultTy {t : Ty} (typed : op.resultTy args consts = .ok t) :
    op.isIntervalOnly = false := by
  cases op <;> first | rfl | cases typed

/-- Every operator with a typing rule gives an integer. -/
theorem resultTy_integer {t : Ty} (typed : op.resultTy args consts = .ok t) :
    ∃ (s : Signedness) (w : Width), t = s.ty w := by
  cases op with
  | asInterval | incp | decp | setp | wrap | clip => cases typed
  | add | sub | mul | rem =>
    simp only [resultTy, binary_eq_ok_iff, bind_eq_ok_iff, pure_eq_ok_iff] at typed
    obtain ⟨_, _, -, -, r, -, rfl⟩ := typed
    exact ⟨r.1, _, rfl⟩
  | lt | leq | gt | geq | eq | neq | and | or | xor | cat =>
    simp only [resultTy, binary_eq_ok_iff, bind_eq_ok_iff, pure_eq_ok_iff] at typed
    obtain ⟨_, _, -, -, _, -, rfl⟩ := typed
    exact ⟨.unsigned, _, rfl⟩
  | div =>
    simp only [resultTy, binary_eq_ok_iff, bind_eq_ok_iff, pure_eq_ok_iff] at typed
    obtain ⟨_, _, -, -, ⟨s, _, _⟩, -, rfl⟩ := typed
    cases s
    · exact ⟨.unsigned, _, rfl⟩
    · exact ⟨.signed, _, rfl⟩
  | pad | shl | shr =>
    simp only [resultTy, unaryBy_eq_ok_iff, bind_eq_ok_iff, pure_eq_ok_iff] at typed
    obtain ⟨_, _, -, -, r, -, rfl⟩ := typed
    exact ⟨r.1, _, rfl⟩
  | head | tail =>
    simp only [resultTy, unaryBy_eq_ok_iff, bind_eq_ok_iff, pure_eq_ok_iff] at typed
    obtain ⟨_, _, -, -, _, -, rfl⟩ := typed
    exact ⟨.unsigned, _, rfl⟩
  | dshl | dshr =>
    simp only [resultTy, binary_eq_ok_iff, bind_eq_ok_iff, pure_eq_ok_iff] at typed
    obtain ⟨_, _, -, -, r, -, _, -, rfl⟩ := typed
    exact ⟨r.1, _, rfl⟩
  | asUInt | not | andr | orr | xorr =>
    simp only [resultTy, unary_eq_ok_iff, bind_eq_ok_iff, pure_eq_ok_iff] at typed
    obtain ⟨_, -, -, _, -, rfl⟩ := typed
    exact ⟨.unsigned, _, rfl⟩
  | asSInt | neg =>
    simp only [resultTy, unary_eq_ok_iff, bind_eq_ok_iff, pure_eq_ok_iff] at typed
    obtain ⟨_, -, -, _, -, rfl⟩ := typed
    exact ⟨.signed, _, rfl⟩
  | cvt =>
    simp only [resultTy, unary_eq_ok_iff, bind_eq_ok_iff, pure_eq_ok_iff] at typed
    obtain ⟨_, -, -, ⟨s, _⟩, -, rfl⟩ := typed
    cases s <;> exact ⟨.signed, _, rfl⟩
  | bits =>
    simp only [resultTy, bitsTy_eq_ok_iff] at typed
    obtain ⟨_, _, _, _, _, -, -, -, -, rfl⟩ := typed
    exact ⟨.unsigned, _, rfl⟩

end Operator

/-- A selection is of an integer type, or of that of its branches. -/
theorem muxTy_eq_ok {a b t : Ty} (typed : muxTy a b = .ok t) :
    (∃ (s : Signedness) (w : Width), t = s.ty w) ∨ t = a := by
  unfold muxTy at typed
  split at typed
  · cases typed; exact .inl ⟨.unsigned, _, rfl⟩
  · cases typed; exact .inl ⟨.signed, _, rfl⟩
  · split at typed
    · cases typed; exact .inr rfl
    · cases typed

namespace Expr

/-- An expression is typed when its subexpressions are and then the node over them. -/
theorem infer_eq_ok_iff {s : Scope} {e e' : Expr} :
    e.infer s = .ok e' ↔
      ∃ node, Rebuilt (fun a b => a.infer s = .ok b) e node ∧ inferNode s node = .ok e' :=
  replaceUpM_eq_ok_iff

/-- The expression recorded at another type. Literals record none. -/
def retyped (ty : Ty) : Expr → Expr
  | .ref name _ => .ref name ty
  | .field parent name _ => .field parent name ty
  | .index parent position _ => .index parent position ty
  | .prim op args consts _ => .prim op args consts ty
  | .mux cond tval fval _ => .mux cond tval fval ty
  | literal => literal

theorem children_retyped (ty : Ty) (e : Expr) : (e.retyped ty).children = e.children := by
  cases e <;> rfl

/-- The recorded type of a node has no influence on the type that it is given. -/
theorem inferNode_retyped (s : Scope) (ty : Ty) (e : Expr) :
    inferNode s (e.retyped ty) = inferNode s e := by
  cases e <;> rfl

/-- A typed node is the node up to its recorded type. -/
theorem retyped_of_inferNode {s : Scope} {node e : Expr} (done : inferNode s node = .ok e) :
    ∃ ty, e = node.retyped ty := by
  cases node with
  | ref | prim =>
    simp only [inferNode, bind_eq_ok_iff, pure_eq_ok_iff] at done
    obtain ⟨ty, -, rfl⟩ := done
    exact ⟨ty, rfl⟩
  | field parent name ty =>
    simp only [inferNode] at done
    split at done <;> cases done
    exact ⟨_, rfl⟩
  | index parent position ty =>
    simp only [inferNode] at done
    split at done
    · split at done <;> cases done
      exact ⟨_, rfl⟩
    · cases done
  | uint | sint =>
    cases done
    exact ⟨.unknown, rfl⟩
  | mux cond tval fval ty =>
    simp only [inferNode] at done
    split at done
    · simp only [bind_eq_ok_iff, pure_eq_ok_iff] at done
      obtain ⟨ty, -, rfl⟩ := done
      exact ⟨ty, rfl⟩
    · cases done

end Expr

end IntervalHdl
