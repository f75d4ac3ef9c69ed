import IntervalHdl.Proofs.Typing.Bodies

/-!
# Unknown widths in type inference

An unknown width stands for any known one. Where two circuits differ in widths only, and each width
that the first one knows is the same in the second, both inferences relate their results in the same
way (`Circuit.filledBy_of_infer`): no rule turns an unknown width into a number that a known one in
its place would contradict. Each rule is followed through both runs side by side, and the scopes
with them.
-/

namespace IntervalHdl
set_option autoImplicit false

/-! ## Two runs side by side -/

section Runs

variable {ε α β γ δ : Type} {R : α → β → Prop} {S : γ → δ → Prop}

/-- If both computations succeed, their results are related. -/
def BothYield (R : α → β → Prop) (x : Except ε α) (y : Except ε β) : Prop :=
  ∀ a b, x = .ok a → y = .ok b → R a b

namespace BothYield

theorem ok {a : α} {b : β} (related : R a b) :
    BothYield R (.ok a : Except ε α) (.ok b : Except ε β) := by
  rintro _ _ ⟨⟩ ⟨⟩
  exact related

theorem error_left (e : ε) (y : Except ε β) : BothYield R (.error e : Except ε α) y := nofun

theorem error_right (x : Except ε α) (e : ε) : BothYield R x (.error e : Except ε β) := nofun

/-- Related results are carried on into related next steps. -/
theorem bind {x : Except ε α} {y : Except ε β} {f : α → Except ε γ} {g : β → Except ε δ}
    (first : BothYield R x y) (next : ∀ a b, R a b → BothYield S (f a) (g b)) :
    BothYield S (x >>= f) (y >>= g) := by
  intro c d done done'
  obtain ⟨a, here, done⟩ := bind_eq_ok_iff.mp done
  obtain ⟨b, here', done'⟩ := bind_eq_ok_iff.mp done'
  exact next a b (first a b here here') c d done done'

/-- Two lists whose members yield related results yield related lists. -/
theorem mapM {f : α → Except ε γ} {g : β → Except ε δ} {as : List α} {bs : List β}
    (each : List.Forall₂ (fun a b => BothYield S (f a) (g b)) as bs) :
    BothYield (List.Forall₂ S) (as.mapM f) (bs.mapM g) := by
  induction each with
  | nil => exact ok .nil
  | cons head _ ih =>
    rw [List.mapM_cons, List.mapM_cons]
    exact head.bind fun _ _ first => ih.bind fun _ _ rest => ok (.cons first rest)

end BothYield

end Runs

/-! ## Widths and types -/

/-- The second width is the first, or stands in for an unknown one. -/
def Width.FilledBy (w v : Width) : Prop := ∀ n, w = .known n → v = .known n

namespace Width.FilledBy

variable {w w' v v' : Width}

theorem refl (w : Width) : w.FilledBy w := fun _ known => known

/-- A change of a width goes along with filling it. -/
theorem map (filled : w.FilledBy v) (f : BitCount → BitCount) : (w.map f).FilledBy (v.map f) := by
  intro n known
  obtain ⟨x, here, rfl⟩ := map_eq_known_iff.mp known
  rw [filled x here]
  rfl

/-- A combination of two widths goes along with filling either. -/
theorem combine (filled : w.FilledBy v) (filled' : w'.FilledBy v')
    (f : BitCount → BitCount → BitCount) :
    (Width.combine f w w').FilledBy (Width.combine f v v') := by
  intro n known
  obtain ⟨x, y, here, here', rfl⟩ := combine_eq_known_iff.mp known
  rw [filled x here, filled' y here']
  rfl

/-- The width of a shift by a value goes along with filling the width of the value. -/
theorem shifted (filled : w.FilledBy v) (amount : w'.FilledBy v') :
    (Operator.shiftedWidth w w').FilledBy (Operator.shiftedWidth v v') := by
  cases w' with
  | known n =>
    rw [amount n rfl]
    exact filled.map _
  | unknown => nofun

end Width.FilledBy

/-- The second type is the first with known widths in place of some unknown ones, at any depth. -/
inductive Ty.FilledBy : Ty → Ty → Prop where
  | uint {w v : Width} (filled : w.FilledBy v) : FilledBy (.uint w) (.uint v)
  | sint {w v : Width} (filled : w.FilledBy v) : FilledBy (.sint w) (.sint v)
  | interval (t : Interval) : FilledBy (.interval t) (.interval t)
  | clock : FilledBy .clock .clock
  | unknown : FilledBy .unknown .unknown
  | bundle {fields fields' : List (Field Ty)}
    (each : List.Forall₂ (Field.Related FilledBy) fields fields') :
    FilledBy (.bundle fields) (.bundle fields')
  | vector {elem elem' : Ty} (size : UInt64) (inner : FilledBy elem elem') :
    FilledBy (.vector elem size) (.vector elem' size)

namespace Ty.FilledBy

variable {t t' u u' : Ty}

/-- A filled width makes a filled integer type. -/
theorem integer (s : Signedness) {w v : Width} (filled : w.FilledBy v) :
    (s.ty w).FilledBy (s.ty v) := by
  cases s
  · exact .uint filled
  · exact .sint filled

/-- The first field of a name is filled as the bundle is. -/
theorem field (filled : t.FilledBy t') {name : String} {f f' : Field Ty}
    (found : t.field? name = some f) (found' : t'.field? name = some f') :
    f.ty.FilledBy f'.ty := by
  cases filled with
  | bundle each =>
    rw [field?] at found found'
    induction each with
    | nil => cases found
    | cons head _ ih =>
      cases head with
      | mk other flip inner =>
        rw [List.find?_cons] at found found'
        split at found
        · rename_i here
          simp only [here] at found'
          cases found
          cases found'
          exact inner
        · rename_i here
          simp only [here] at found'
          exact ih found found'
  | _ => cases found

end Ty.FilledBy

/-! ## Rules -/

namespace Operator

open BothYield

variable {op : Operator} {args args' : List Expr} {consts : List Int}

/-- The operand of an integer operator keeps its sign, and its width is filled at most. -/
theorem integer_filledBy {t t' : Ty} (filled : t.FilledBy t') :
    BothYield (fun r r' => r.1 = r'.1 ∧ r.2.FilledBy r'.2) (op.integer t) (op.integer t') := by
  cases filled with
  | uint filled => exact ok ⟨rfl, filled⟩
  | sint filled => exact ok ⟨rfl, filled⟩
  | _ => exact error_left _ _

/-- Operands of one sign keep it, and their widths are filled at most. -/
theorem sameSign_filledBy {t t' u u' : Ty} (filled : t.FilledBy t') (filled' : u.FilledBy u') :
    BothYield (fun r r' => r.1 = r'.1 ∧ r.2.1.FilledBy r'.2.1 ∧ r.2.2.FilledBy r'.2.2)
      (op.sameSign t u) (op.sameSign t' u') := by
  refine (integer_filledBy filled).bind ?_
  rintro ⟨s, w⟩ ⟨_, w'⟩ ⟨rfl, first⟩
  refine (integer_filledBy filled').bind ?_
  rintro ⟨r, v⟩ ⟨_, v'⟩ ⟨rfl, second⟩
  dsimp only
  split
  · exact ok ⟨rfl, first, second⟩
  · exact error_left _ _

/-- The raw bits of a type that is filled are filled with it. -/
theorem rawWidth_filledBy {t t' : Ty} (filled : t.FilledBy t') :
    BothYield Width.FilledBy (op.rawWidth t) (op.rawWidth t') := by
  cases filled with
  | uint filled => exact ok filled
  | sint filled => exact ok filled
  | clock => exact ok (.refl _)
  | _ => exact error_left _ _

/-- The amount of a shift has its width filled with its type. -/
theorem shiftWidth_filledBy {t t' : Ty} (filled : t.FilledBy t') :
    BothYield Width.FilledBy (op.shiftWidth t) (op.shiftWidth t') := by
  cases filled with
  | uint filled => exact ok filled
  | _ => exact error_left _ _

/-- The width of selected bits is the number of positions, whatever the operand. -/
theorem bitsTy_filledBy :
    BothYield Ty.FilledBy (bitsTy args consts) (bitsTy args' consts) := by
  intro r r' typed typed'
  obtain ⟨a, hi, lo, s, w, -, rfl, -, -, rfl⟩ := bitsTy_eq_ok_iff.mp typed
  obtain ⟨a', hi', lo', s', w', -, same, -, -, rfl⟩ := bitsTy_eq_ok_iff.mp typed'
  simp only [List.cons.injEq, Int.natCast_inj, and_true] at same
  obtain rfl := BitCount.ext same.1
  obtain rfl := BitCount.ext same.2
  exact .uint (.refl _)

section Shapes

variable (each : List.Forall₂ (fun e e' => e.ty.FilledBy e'.ty) args args')
include each

/-- A rule of one operand goes along with filling if its types do. -/
theorem unary_filledBy {rule : Ty → Except TypingError Ty}
    (follows : ∀ t t', t.FilledBy t' → BothYield Ty.FilledBy (rule t) (rule t')) :
    BothYield Ty.FilledBy (op.unary args consts rule) (op.unary args' consts rule) := by
  intro r r' typed typed'
  obtain ⟨a, rfl, rfl, typed⟩ := unary_eq_ok_iff.mp typed
  obtain ⟨a', rfl, -, typed'⟩ := unary_eq_ok_iff.mp typed'
  obtain ⟨filled, -⟩ := List.forall₂_cons.mp each
  exact follows _ _ filled _ _ typed typed'

/-- A rule of two operands goes along with filling if its types do. -/
theorem binary_filledBy {rule : Ty → Ty → Except TypingError Ty}
    (follows : ∀ t t' u u', t.FilledBy t' → u.FilledBy u' →
      BothYield Ty.FilledBy (rule t u) (rule t' u')) :
    BothYield Ty.FilledBy (op.binary args consts rule) (op.binary args' consts rule) := by
  intro r r' typed typed'
  obtain ⟨a, b, rfl, rfl, typed⟩ := binary_eq_ok_iff.mp typed
  obtain ⟨a', b', rfl, -, typed'⟩ := binary_eq_ok_iff.mp typed'
  obtain ⟨filled, rest⟩ := List.forall₂_cons.mp each
  obtain ⟨filled', -⟩ := List.forall₂_cons.mp rest
  exact follows _ _ _ _ filled filled' _ _ typed typed'

/-- A rule of one operand and a constant goes along with filling if its types do. -/
theorem unaryBy_filledBy {rule : Ty → BitCount → Except TypingError Ty}
    (follows : ∀ t t' n, t.FilledBy t' → BothYield Ty.FilledBy (rule t n) (rule t' n)) :
    BothYield Ty.FilledBy (op.unaryBy args consts rule) (op.unaryBy args' consts rule) := by
  intro r r' typed typed'
  obtain ⟨a, n, rfl, rfl, given⟩ := unaryBy_eq_ok_iff.mp typed
  obtain ⟨a', n', rfl, same, given'⟩ := unaryBy_eq_ok_iff.mp typed'
  obtain rfl : n = n' := BitCount.ext (by simpa using same)
  obtain ⟨filled, -⟩ := List.forall₂_cons.mp each
  exact follows _ _ n filled _ _ given given'

/-- An operator on operands whose types are filled has a type that is filled. -/
theorem resultTy_filledBy :
    BothYield Ty.FilledBy (op.resultTy args consts) (op.resultTy args' consts) := by
  unfold resultTy
  cases op with
  | asInterval | incp | decp | setp | wrap | clip => exact error_left _ _
  | add | sub =>
    refine binary_filledBy each fun _ _ _ _ filled filled' => ?_
    refine (sameSign_filledBy filled filled').bind ?_
    rintro ⟨s, w, v⟩ ⟨_, w', v'⟩ ⟨rfl, first, second⟩
    exact ok (.integer s ((first.combine second _).map _))
  | mul =>
    refine binary_filledBy each fun _ _ _ _ filled filled' => ?_
    refine (sameSign_filledBy filled filled').bind ?_
    rintro ⟨s, w, v⟩ ⟨_, w', v'⟩ ⟨rfl, first, second⟩
    exact ok (.integer s (first.combine second _))
  | rem =>
    refine binary_filledBy each fun _ _ _ _ filled filled' => ?_
    refine (sameSign_filledBy filled filled').bind ?_
    rintro ⟨s, w, v⟩ ⟨_, w', v'⟩ ⟨rfl, first, second⟩
    exact ok (.integer s (first.combine second _))
  | div =>
    refine binary_filledBy each fun _ _ _ _ filled filled' => ?_
    refine (sameSign_filledBy filled filled').bind ?_
    rintro ⟨s, w, v⟩ ⟨_, w', v'⟩ ⟨rfl, first, second⟩
    cases s
    · exact ok (.uint first)
    · exact ok (.sint (first.map _))
  | lt | leq | gt | geq | eq | neq =>
    exact binary_filledBy each fun _ _ _ _ filled filled' =>
      (sameSign_filledBy filled filled').bind fun _ _ _ => ok (.uint (.refl _))
  | and | or | xor | cat =>
    exact binary_filledBy each fun _ _ _ _ filled filled' =>
      (sameSign_filledBy filled filled').bind fun _ _ related =>
        ok (.uint (related.2.1.combine related.2.2 _))
  | pad =>
    refine unaryBy_filledBy each fun _ _ n filled => ?_
    refine (integer_filledBy filled).bind ?_
    rintro ⟨s, w⟩ ⟨_, w'⟩ ⟨rfl, first⟩
    exact ok (.integer s (first.combine (.refl _) _))
  | shl | shr =>
    refine unaryBy_filledBy each fun _ _ n filled => ?_
    refine (integer_filledBy filled).bind ?_
    rintro ⟨s, w⟩ ⟨_, w'⟩ ⟨rfl, first⟩
    exact ok (.integer s (first.map _))
  | dshl =>
    refine binary_filledBy each fun _ _ _ _ filled filled' => ?_
    refine (integer_filledBy filled).bind ?_
    rintro ⟨s, w⟩ ⟨_, w'⟩ ⟨rfl, first⟩
    exact (shiftWidth_filledBy filled').bind fun _ _ amount =>
      ok (.integer s (first.shifted amount))
  | dshr =>
    refine binary_filledBy each fun _ _ _ _ filled filled' => ?_
    refine (integer_filledBy filled).bind ?_
    rintro ⟨s, w⟩ ⟨_, w'⟩ ⟨rfl, first⟩
    exact (shiftWidth_filledBy filled').bind fun _ _ _ => ok (.integer s first)
  | asUInt =>
    exact unary_filledBy each fun _ _ filled =>
      (rawWidth_filledBy filled).bind fun _ _ filled => ok (.uint filled)
  | asSInt =>
    exact unary_filledBy each fun _ _ filled =>
      (rawWidth_filledBy filled).bind fun _ _ filled => ok (.sint filled)
  | cvt =>
    refine unary_filledBy each fun _ _ filled => ?_
    refine (integer_filledBy filled).bind ?_
    rintro ⟨s, w⟩ ⟨_, w'⟩ ⟨rfl, first⟩
    cases s
    · exact ok (.sint (first.map _))
    · exact ok (.sint first)
  | neg =>
    exact unary_filledBy each fun _ _ filled =>
      (integer_filledBy filled).bind fun _ _ related => ok (.sint (related.2.map _))
  | not =>
    exact unary_filledBy each fun _ _ filled =>
      (integer_filledBy filled).bind fun _ _ related => ok (.uint related.2)
  | andr | orr | xorr =>
    exact unary_filledBy each fun _ _ filled =>
      (integer_filledBy filled).bind fun _ _ _ => ok (.uint (.refl _))
  | bits => exact bitsTy_filledBy
  | head =>
    exact unaryBy_filledBy each fun _ _ _ filled =>
      (integer_filledBy filled).bind fun _ _ _ => ok (.uint (.refl _))
  | tail =>
    exact unaryBy_filledBy each fun _ _ _ filled =>
      (integer_filledBy filled).bind fun _ _ related => ok (.uint (related.2.map _))

end Shapes

end Operator

/-- A selection between integers takes the wider width; between other types, the one they share. -/
theorem muxTy_filledBy {t t' u u' : Ty} (filled : t.FilledBy t') (filled' : u.FilledBy u') :
    BothYield Ty.FilledBy (muxTy t u) (muxTy t' u') := by
  have whole := filled
  intro r r' typed typed'
  cases filled with
  | uint first =>
    cases filled' with
    | uint second =>
      cases typed
      cases typed'
      exact .uint (first.combine second _)
    | _ => simp [muxTy, Ty.equal] at typed
  | sint first =>
    cases filled' with
    | sint second =>
      cases typed
      cases typed'
      exact .sint (first.combine second _)
    | _ => simp [muxTy, Ty.equal] at typed
  | _ =>
    simp only [muxTy] at typed typed'
    split at typed <;> cases typed
    split at typed' <;> cases typed'
    exact whole

/-! ## Expressions -/

/-- The second expression is the first with known widths in place of some unknown ones in its
literals, and with recorded types that are related by `T`. -/
inductive Expr.FilledBy (T : Ty → Ty → Prop) : Expr → Expr → Prop where
  | ref {ty ty' : Ty} (name : String) (recorded : T ty ty') :
    FilledBy T (.ref name ty) (.ref name ty')
  | field {parent parent' : Expr} {ty ty' : Ty} (name : String)
    (inner : FilledBy T parent parent') (recorded : T ty ty') :
    FilledBy T (.field parent name ty) (.field parent' name ty')
  | index {parent parent' : Expr} {ty ty' : Ty} (position : UInt64)
    (inner : FilledBy T parent parent') (recorded : T ty ty') :
    FilledBy T (.index parent position ty) (.index parent' position ty')
  | uint {width width' : Width} (value : Int) (filled : width.FilledBy width') :
    FilledBy T (.uint value width) (.uint value width')
  | sint {width width' : Width} (value : Int) (filled : width.FilledBy width') :
    FilledBy T (.sint value width) (.sint value width')
  | prim {args args' : List Expr} {ty ty' : Ty} (op : Operator) (consts : List Int)
    (each : List.Forall₂ (FilledBy T) args args') (recorded : T ty ty') :
    FilledBy T (.prim op args consts ty) (.prim op args' consts ty')
  | mux {cond cond' tval tval' fval fval' : Expr} {ty ty' : Ty} (first : FilledBy T cond cond')
    (second : FilledBy T tval tval') (third : FilledBy T fval fval') (recorded : T ty ty') :
    FilledBy T (.mux cond tval fval ty) (.mux cond' tval' fval' ty')

/-- What the first scope and the second one both know is filled. -/
def Scope.FilledBy (s s' : Scope) : Prop :=
  ∀ name ty ty', s.lookup name = some ty → s'.lookup name = some ty' → ty.FilledBy ty'

/-- A scope stays filled when a name is declared at a filled type. -/
theorem Scope.FilledBy.declare {s s' : Scope} (filled : s.FilledBy s') {ty ty' : Ty}
    (declared : ty.FilledBy ty') (name : String) :
    (s.declare name ty).FilledBy (s'.declare name ty') := by
  intro other found found' here here'
  rcases lookup_declare_eq_some here with ⟨rfl, rfl⟩ | ⟨apart, here⟩
  · rw [lookup_declare_self] at here'
    cases here'
    exact declared
  · rw [lookup_declare_of_ne apart] at here'
    exact filled other found found' here here'

namespace Expr

open BothYield

/-- A filled expression is recorded at a filled type. -/
theorem FilledBy.ty {e e' : Expr} (filled : FilledBy Ty.FilledBy e e') : e.ty.FilledBy e'.ty := by
  cases filled with
  | ref _ recorded | field _ _ recorded | index _ _ recorded | prim _ _ _ recorded
  | mux _ _ _ recorded => exact recorded
  | uint _ filled => exact .uint filled
  | sint _ filled => exact .sint filled

/-- Inference in scopes that are filled gives expressions at types that are filled. -/
theorem infer_filledBy {s s' : Scope} (scopes : s.FilledBy s') {e e' : Expr}
    (filled : FilledBy (fun _ _ => True) e e') :
    BothYield (FilledBy Ty.FilledBy) (e.infer s) (e'.infer s') := by
  induction e generalizing e' with
  | ref name ty =>
    cases filled with
    | ref =>
      have found : BothYield Ty.FilledBy (s.resolve name) (s'.resolve name) :=
        fun ty ty' here here' => scopes name ty ty' (Scope.resolve_eq_ok_iff.mp here)
          (Scope.resolve_eq_ok_iff.mp here')
      exact found.bind fun _ _ filled => ok (.ref name filled)
  | field parent name ty ih =>
    cases filled with
    | field _ inner =>
      refine (ih inner).bind fun p p' related x x' done done' => ?_
      simp only [inferNode] at done done'
      split at done <;> cases done
      rename_i found
      split at done' <;> cases done'
      rename_i found'
      exact .field name related (related.ty.field found found')
  | index parent position ty ih =>
    cases filled with
    | index _ inner =>
      refine (ih inner).bind fun p p' related => ?_
      have types := related.ty
      simp only [inferNode]
      generalize p.ty = t, p'.ty = t' at types ⊢
      cases types with
      | vector size elem =>
        dsimp only
        split
        · exact ok (.index position related elem)
        · exact error_left _ _
      | _ => exact error_left _ _
  | uint value =>
    cases filled with
    | uint _ filled => exact ok (.uint value filled)
  | sint value =>
    cases filled with
    | sint _ filled => exact ok (.sint value filled)
  | prim op args consts ty ih =>
    cases filled with
    | prim _ _ each =>
      have operands := forall₂_imp_of_mem
        (S := fun arg arg' => BothYield (FilledBy Ty.FilledBy) (arg.infer s) (arg'.infer s'))
        (fun arg found arg' filled => ih arg found filled) each
      simp only [infer, replaceUpM, replaceAllUpM_eq_mapM] at operands ⊢
      refine (BothYield.mapM operands).bind fun args args' related => ?_
      have tys := related.imp fun _ _ filled => filled.ty
      exact (Operator.resultTy_filledBy tys).bind fun _ _ recorded =>
        ok (.prim op consts related recorded)
  | mux cond tval fval ty condIh tvalIh fvalIh =>
    cases filled with
    | mux first second third =>
      refine (condIh first).bind fun c c' condRelated => ?_
      refine (tvalIh second).bind fun t t' tvalRelated => ?_
      refine (fvalIh third).bind fun f f' fvalRelated => ?_
      simp only [inferNode]
      split
      · split
        · exact (muxTy_filledBy tvalRelated.ty fvalRelated.ty).bind fun _ _ recorded =>
            ok (.mux condRelated tvalRelated fvalRelated recorded)
        · exact error_right _ _
      · exact error_left _ _

end Expr

/-! ## Statements -/

namespace Stmt

open BothYield

/-- Inference fills no less in a statement whose widths were filled before, and leaves a scope
filled as much. -/
theorem infer_filledBy {s₁ s₂ s behind : Scope} (scopes : s₁.FilledBy s₂) {stmt stmt' : Stmt}
    (filled : Stmt.Translated Ty.FilledBy (fun _ => Expr.FilledBy fun _ _ => True) s stmt stmt'
      behind) :
    BothYield (fun r r' => Stmt.Translated Ty.FilledBy (fun _ => Expr.FilledBy Ty.FilledBy) s₂
      r.1 r'.1 r'.2 ∧ r.2.FilledBy r'.2) (stmt.infer s₁) (stmt'.infer s₂) := by
  induction stmt generalizing s₁ s₂ s stmt' behind with
  | wire name ty =>
    cases filled with
    | wire _ declared => exact ok ⟨.wire name declared, scopes.declare declared name⟩
  | reg name ty clock reset =>
    cases filled with
    | reg _ declared clock =>
      have scopes := scopes.declare declared name
      exact (Expr.infer_filledBy scopes clock).bind fun _ _ clock =>
        ok ⟨.reg name declared clock, scopes⟩
    | regReset _ declared clock signal init =>
      have scopes := scopes.declare declared name
      exact (Expr.infer_filledBy scopes clock).bind fun _ _ clock =>
        (Expr.infer_filledBy scopes signal).bind fun _ _ signal =>
          (Expr.infer_filledBy scopes init).bind fun _ _ init =>
            ok ⟨.regReset name declared clock signal init, scopes⟩
  | node name value =>
    cases filled with
    | node _ value =>
      exact (Expr.infer_filledBy scopes value).bind fun _ _ value =>
        ok ⟨.node name value, scopes.declare value.ty name⟩
  | connect loc value =>
    cases filled with
    | connect loc value =>
      exact (Expr.infer_filledBy scopes loc).bind fun _ _ loc =>
        (Expr.infer_filledBy scopes value).bind fun _ _ value => ok ⟨.connect loc value, scopes⟩
  | partialConnect loc value =>
    cases filled with
    | partialConnect loc value =>
      exact (Expr.infer_filledBy scopes loc).bind fun _ _ loc =>
        (Expr.infer_filledBy scopes value).bind fun _ _ value =>
          ok ⟨.partialConnect loc value, scopes⟩
  | when cond conseq alt conseqIh altIh =>
    cases filled with
    | when cond conseq alt =>
      refine (Expr.infer_filledBy scopes cond).bind fun _ _ cond => ?_
      refine (conseqIh scopes conseq).bind fun _ _ conseq => ?_
      exact (altIh conseq.2 alt).bind fun _ _ alt => ok ⟨.when cond conseq.1 alt.1, alt.2⟩
  | block stmts ih =>
    cases filled with
    | @block _ _ _ stmts' chain =>
      have all : BothYield (fun r r' => Threads (Stmt.Translated Ty.FilledBy
          (fun _ => Expr.FilledBy Ty.FilledBy)) s₂ r.1 r'.1 r'.2 ∧ r.2.FilledBy r'.2)
          (inferAll s₁ stmts) (inferAll s₂ stmts') := by
        induction chain generalizing s₁ s₂ with
        | nil => exact ok ⟨.nil s₂, scopes⟩
        | cons head _ rest =>
          refine (ih _ List.mem_cons_self scopes head).bind fun _ _ first => ?_
          have tail := rest (fun stmt found => ih stmt (List.mem_cons_of_mem _ found)) first.2
          exact tail.bind fun _ _ rest => ok ⟨.cons first.1 rest.1, rest.2⟩
      exact all.bind fun _ _ done => ok ⟨.block done.1, done.2⟩
  | invalid loc =>
    cases filled with
    | invalid loc =>
      exact (Expr.infer_filledBy scopes loc).bind fun _ _ loc => ok ⟨.invalid loc, scopes⟩
  | skip =>
    cases filled
    exact ok ⟨.skip s₂, scopes⟩

end Stmt

/-! ## Modules and circuits -/

/-- Filled ports declare a filled scope. -/
theorem Scope.FilledBy.ofPorts {ports ports' : List Port}
    (each : List.Forall₂ (fun p p' => p'.name = p.name ∧ p'.direction = p.direction ∧
      p.ty.FilledBy p'.ty) ports ports') :
    (Scope.ofPorts ports).FilledBy (Scope.ofPorts ports') := by
  have folded {s s' : Scope} (scopes : s.FilledBy s') :
      Scope.FilledBy (ports.foldl (fun s p => s.declare p.name p.ty) s)
        (ports'.foldl (fun s p => s.declare p.name p.ty) s') := by
    induction each generalizing s s' with
    | nil => exact scopes
    | cons head _ ih =>
      obtain ⟨name, -, ty⟩ := head
      rw [List.foldl_cons, List.foldl_cons, name]
      exact ih (scopes.declare ty _)
  exact folded nofun

open BothYield in
/-- Inference fills no less in a module whose widths were filled before. -/
theorem Module.infer_filledBy {m m' : Module}
    (filled : Module.Translated Ty.FilledBy (fun _ => Expr.FilledBy fun _ _ => True) m m') :
    BothYield (Module.Translated Ty.FilledBy fun _ => Expr.FilledBy Ty.FilledBy) m.infer
      m'.infer := by
  obtain ⟨name, ports, body?⟩ := m
  obtain ⟨name', ports', body'?⟩ := m'
  obtain ⟨name_eq, ports_filled, body⟩ := filled
  cases body with
  | none => exact ok ⟨name_eq, ports_filled, .none⟩
  | some body =>
    obtain ⟨behind, body⟩ := body
    have scopes : (Scope.ofPorts ports).FilledBy (Scope.ofPorts ports') := .ofPorts ports_filled
    simp only [infer, mapBodyM, bind_assoc, pure_bind]
    exact (Stmt.infer_filledBy scopes body).bind fun _ r' done =>
      ok ⟨name_eq, ports_filled, .some ⟨r'.2, done.1⟩⟩

/-- Filling in unknown widths of declarations and literals fills in inferred types: where inference
succeeds before and after, every expression keeps the shape of its type and every width that was
known. -/
theorem Circuit.filledBy_of_infer {c c' d d' : Circuit}
    (filled : Circuit.Translated Ty.FilledBy (fun _ => Expr.FilledBy fun _ _ => True) c c')
    (typed : c.infer = .ok d) (typed' : c'.infer = .ok d') :
    Circuit.Translated Ty.FilledBy (fun _ => Expr.FilledBy Ty.FilledBy) d d' := by
  obtain ⟨main_eq, modules⟩ := filled
  have all : BothYield (Circuit.Translated Ty.FilledBy fun _ => Expr.FilledBy Ty.FilledBy) c.infer
      c'.infer :=
    (BothYield.mapM (modules.imp fun _ _ => Module.infer_filledBy)).bind fun _ _ modules =>
      BothYield.ok ⟨main_eq, modules⟩
  exact all d d' typed typed'

namespace Circuit

/-- A selection between a sum and a shifted literal, by the widths of a port, a wire and the literal
and those recorded on the operators. -/
def blended (a b literal sum shifted chosen : Width) : Circuit :=
  let one : Ty := .uint (.known (.ofNat 1))
  let x : Expr := .ref "x" (.uint a)
  let y : Expr := .ref "y" (.uint b)
  ⟨"Top", [⟨"Top", [⟨"x", .input, .uint a⟩],
    some (.block [
      .wire "y" (.uint b),
      .node "s" (.prim .add [x, y] [] (.uint sum)),
      .connect y (.mux (.prim .lt [x, y] [] one) (.ref "s" (.uint sum))
        (.prim .shl [.uint 3 literal] [2] (.uint shifted)) (.uint chosen))])⟩]⟩

/-- The blended circuit with widths filled in before inference, and without. -/
theorem filledBy_of_infer_blended :
    let known (n : Nat) : Width := .known (.ofNat n)
    let c := blended .unknown (known 4) .unknown .unknown .unknown .unknown
    let c' := blended (known 3) (known 4) (known 6) .unknown .unknown .unknown
    let d := blended .unknown (known 4) .unknown .unknown .unknown .unknown
    let d' := blended (known 3) (known 4) (known 6) (known 5) (known 8) (known 8)
    Circuit.Translated Ty.FilledBy (fun _ => Expr.FilledBy fun _ _ => True) c c' ∧
      c.infer = .ok d ∧ c'.infer = .ok d' ∧
      Circuit.Translated Ty.FilledBy (fun _ => Expr.FilledBy Ty.FilledBy) d d' := by
  intro known c c' d d'
  have operands (e e' : Expr) (same : Expr.FilledBy (fun _ _ => True) e e') (ty ty' : Ty) :
      List.Forall₂ (Expr.FilledBy fun _ _ => True) [.ref "x" ty, e] [.ref "x" ty', e'] :=
    .cons (.ref "x" trivial) (.cons same .nil)
  have y : Expr.FilledBy (fun _ _ => True) (.ref "y" (.uint (known 4)))
      (.ref "y" (.uint (known 4))) := .ref "y" trivial
  have literal : Expr.FilledBy (fun _ _ => True) (.uint 3 .unknown) (.uint 3 (known 6)) :=
    .uint 3 nofun
  have filled : Circuit.Translated Ty.FilledBy (fun _ => Expr.FilledBy fun _ _ => True) c c' := by
    let behind := ((Scope.ofPorts [⟨"x", .input, .uint (known 3)⟩]).declare "y"
      (.uint (known 4))).declare "s" (.uint .unknown)
    refine ⟨rfl, .cons ⟨rfl, .cons ⟨rfl, rfl, .uint nofun⟩ .nil, .some ⟨behind, .block ?_⟩⟩ .nil⟩
    refine .cons (.wire "y" (.uint (.refl _))) ?_
    refine .cons (.node "s" ?_) (.cons (.connect y ?_) (.nil _))
    · exact .prim .add [] (operands _ _ y _ _) trivial
    · exact .mux (.prim .lt [] (operands _ _ y _ _) trivial) (.ref "s" trivial)
        (.prim .shl [2] (.cons literal .nil) trivial) trivial
  have typed : c.infer = .ok d := rfl
  have typed' : c'.infer = .ok d' := rfl
  exact ⟨filled, typed, typed', filledBy_of_infer filled typed typed'⟩

end Circuit

end IntervalHdl
