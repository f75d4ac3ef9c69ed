import IntervalHdl.Proofs.Lowering.NoSurvivors
import IntervalHdl.Proofs.Typing.Skeleton
import IntervalHdl.Proofs.Typing.Values
import IntervalHdl.Proofs.Meaning

/-!
# Components of lowered types

Lowering a type commutes with selecting a component of it: the first field of a name, or an element
inside a vector. So a chain of fields and elements that is recorded at what it selects from the
declared type of its name is lowered to one that is recorded at what it selects from the lowered
declared type (`Expr.everywhere_atSelection`).
-/

namespace IntervalHdl
set_option autoImplicit false

open Reported

/-! ## Equal types are lowered alike -/

/-- Bounds that are equal, however they are spelled, have the same encodings. -/
theorem Bound.encoding?_of_equal {a b : Bound} (same : a.equal b = true) (p : BitCount) :
    a.encoding? p = b.encoding? p := by
  cases a <;> cases b <;> simp only [equal, Bool.false_eq_true] at same
  · simp only [encoding?_known, Fraction.scaledFloor_eq_floor, Fraction.toRat_of_equal same]
  · rfl

/-- Equal intervals have the same integer type. -/
theorem Interval.lowered_of_equal {a b : Interval} {ty : Ty} (same : a.equal b = true)
    (done : a.lowered = .ok ty) : b.lowered = .ok ty := by
  simp only [equal, Bool.and_eq_true, beq_iff_eq] at same
  obtain ⟨⟨⟨lower, upper⟩, point⟩, width⟩ := same
  have ends : a.encodings? = b.encodings? := by
    simp only [encodings?, lowest?, highest?, point,
      funext (Bound.encoding?_of_equal lower), funext (Bound.encoding?_of_equal upper)]
  rw [lowered_eq_ok_iff] at done ⊢
  rwa [← ends, ← point, ← width]

namespace Ty

/-- Equal types are lowered to one type. -/
theorem lower_of_equal {a b ty : Ty} (same : a.equal b = true) (done : a.lower.outcome = .ok ty) :
    b.lower.outcome = .ok ty := by
  induction a generalizing b ty with
  | uint | sint | clock | unknown =>
    cases b <;> simp_all [equal]
  | interval t =>
    cases b with
    | interval u =>
      rw [lower_interval_outcome] at done ⊢
      exact Interval.lowered_of_equal same done
    | _ => cases same
  | vector elem size ih =>
    cases b with
    | vector elem' size' =>
      simp only [equal, Bool.and_eq_true, beq_iff_eq] at same
      obtain ⟨elem'', elemDone, rfl⟩ := lower_vector_eq_ok_iff.mp done
      exact lower_vector_eq_ok_iff.mpr ⟨elem'', ih same.1 elemDone, by rw [same.2]⟩
    | _ => cases same
  | bundle fields ih =>
    cases b with
    | bundle fields' =>
      rw [equal] at same
      obtain ⟨lowered, each, rfl⟩ := lower_bundle_eq_ok_iff.mp done
      refine lower_bundle_eq_ok_iff.mpr ⟨lowered, ?_, rfl⟩
      rw [lowerFields_outcome_eq_ok_iff] at each ⊢
      clear done
      induction each generalizing fields' with
      | nil => cases fields' <;> simp_all [fieldsEqual]
      | @cons f l fields lowered head _ rest =>
        cases fields' with
        | nil => simp [fieldsEqual] at same
        | cons f' fields' =>
          simp only [fieldsEqual, Bool.and_eq_true, beq_iff_eq] at same
          obtain ⟨⟨⟨name, flip⟩, type⟩, tail⟩ := same
          obtain ⟨name', flip', tyDone⟩ := head
          exact .cons ⟨name'.trans name, flip'.trans flip, ih f List.mem_cons_self type tyDone⟩
            (rest (fun f found => ih f (List.mem_cons_of_mem _ found)) _ tail)
    | _ => cases same

/-! ## Components -/

/-- The type of the elements of a vector that reaches to the position. -/
def elem? (t : Ty) (position : UInt64) : Option Ty :=
  match t with
  | .vector elem size => if position < size then some elem else none
  | _ => none

/-- Lowering a bundle lowers the first field of every name. -/
theorem field?_of_lower {t t' : Ty} {name : String} {f : Field Ty}
    (done : t.lower.outcome = .ok t') (found : t.field? name = some f) :
    ∃ f', t'.field? name = some f' ∧ f.ty.lower.outcome = .ok f'.ty := by
  cases t with
  | bundle fields =>
    obtain ⟨fields', each, rfl⟩ := lower_bundle_eq_ok_iff.mp done
    rw [lowerFields_outcome_eq_ok_iff] at each
    rw [field?] at found ⊢
    clear done
    induction each with
    | nil => cases found
    | @cons g g' fields fields' head _ rest =>
      obtain ⟨same, -, tyDone⟩ := head
      rw [List.find?_cons] at found ⊢
      rw [same]
      cases here : g.name == name with
      | true =>
        simp only [here, Option.some.injEq] at found
        exact ⟨g', by simp only, found ▸ tyDone⟩
      | false =>
        simp only [here] at found
        exact rest found
  | _ => cases found

/-- A vector's element is selected after lowering where it was before, at its lowered type. -/
theorem elem?_of_lower {t t' elem : Ty} {position : UInt64} (done : t.lower.outcome = .ok t')
    (found : t.elem? position = some elem) :
    ∃ elem', t'.elem? position = some elem' ∧ elem.lower.outcome = .ok elem' := by
  cases t with
  | vector elem₀ size =>
    obtain ⟨elem', elemDone, rfl⟩ := lower_vector_eq_ok_iff.mp done
    rw [elem?] at found ⊢
    split at found
    · cases found
      exact ⟨elem', if_pos ‹_›, elemDone⟩
    · cases found
  | _ => cases found

end Ty

namespace Expr

/-- The name that a chain of fields and elements starts from. -/
def root? : Expr → Option String
  | .ref name _ => some name
  | .field parent _ _ | .index parent _ _ => parent.root?
  | _ => none

/-- The component that the chain selects from the type that its name is declared with. -/
def selected? (declared : Ty) : Expr → Option Ty
  | .ref _ _ => some declared
  | .field parent name _ => do return (← (← parent.selected? declared).field? name).ty
  | .index parent position _ => do (← parent.selected? declared).elem? position
  | _ => none

theorem selected?_field_eq_some_iff {declared component ty : Ty} {parent : Expr} {name : String} :
    (field parent name ty).selected? declared = some component ↔
      ∃ t f, parent.selected? declared = some t ∧ t.field? name = some f ∧ f.ty = component := by
  simp [selected?, Option.bind_eq_some_iff]

theorem selected?_index_eq_some_iff {declared component ty : Ty} {parent : Expr}
    {position : UInt64} :
    (index parent position ty).selected? declared = some component ↔
      ∃ t, parent.selected? declared = some t ∧ t.elem? position = some component := by
  simp [selected?, Option.bind_eq_some_iff]

/-- Recorded types have no influence on the name that a chain starts from. -/
theorem root?_skeleton (e : Expr) : e.skeleton.root? = e.root? := by
  induction e with
  | ref | uint | sint | prim | mux => simp only [skeleton, root?]
  | field _ _ _ ih | index _ _ _ ih => simpa only [skeleton, root?] using ih

/-- Recorded types have no influence on what a chain selects of a declared type. -/
theorem selected?_skeleton (e : Expr) (declared : Ty) :
    e.skeleton.selected? declared = e.selected? declared := by
  induction e with
  | ref | uint | sint | prim | mux => simp only [skeleton, selected?]
  | field _ _ _ ih | index _ _ _ ih => simp only [skeleton, selected?, ih]

/-- The node is recorded at the component that it selects from the type of its name. -/
def RecordsSelection (declared : String → Ty → Prop) (x : Expr) : Prop :=
  ∀ name ty, x.root? = some name → declared name ty →
    ∃ component, x.selected? ty = some component ∧ x.ty.equal component = true

/-- Whatever component the node selects from the type of its name, it is recorded at. -/
def AtSelection (declared : String → Ty → Prop) (x : Expr) : Prop :=
  ∀ name ty component, x.root? = some name → declared name ty →
    x.selected? ty = some component → x.ty = component

/-- An expression that is no chain from a name has no component to agree with. -/
theorem AtSelection.of_rootless {declared : String → Ty → Prop} {x : Expr}
    (rootless : x.root? = none) : x.AtSelection declared := by
  intro name _ _ root
  rw [rootless] at root
  cases root

section Lowering

variable {warn : Bool} {declared declared' : String → Ty → Prop}

/-- A lowered chain selects what lowering makes of the selected component. -/
theorem selected?_of_lower {e e' : Expr} {t t' component : Ty}
    (done : (e.lower warn).outcome = .ok e') (types : t.lower.outcome = .ok t')
    (found : e.selected? t = some component) :
    ∃ component', e'.selected? t' = some component' ∧
      component.lower.outcome = .ok component' := by
  induction e generalizing e' component with
  | ref name ty =>
    simp only [lower, bind_outcome_eq_ok_iff, outcome_pure, Except.ok.injEq] at done
    obtain ⟨ty', -, rfl⟩ := done
    cases found
    exact ⟨t', rfl, types⟩
  | field parent name ty ih =>
    simp only [lower, bind_outcome_eq_ok_iff, outcome_pure, Except.ok.injEq] at done
    obtain ⟨parent', parentDone, ty', -, rfl⟩ := done
    obtain ⟨u, f, inner, field, rfl⟩ := selected?_field_eq_some_iff.mp found
    obtain ⟨u', inner', uDone⟩ := ih parentDone inner
    obtain ⟨f', field', fDone⟩ := Ty.field?_of_lower uDone field
    exact ⟨f'.ty, selected?_field_eq_some_iff.mpr ⟨u', f', inner', field', rfl⟩, fDone⟩
  | index parent position ty ih =>
    simp only [lower, bind_outcome_eq_ok_iff, outcome_pure, Except.ok.injEq] at done
    obtain ⟨parent', parentDone, ty', -, rfl⟩ := done
    obtain ⟨u, inner, elem⟩ := selected?_index_eq_some_iff.mp found
    obtain ⟨u', inner', uDone⟩ := ih parentDone inner
    obtain ⟨component', elem', componentDone⟩ := Ty.elem?_of_lower uDone elem
    exact ⟨component', selected?_index_eq_some_iff.mpr ⟨u', inner', elem'⟩, componentDone⟩
  | uint | sint | prim | mux => cases found

/-- Lowering a chain lowers the type that is recorded on it. -/
theorem ty_of_lower {e e' : Expr} {name : String} (done : (e.lower warn).outcome = .ok e')
    (root : e.root? = some name) : e.ty.lower.outcome = .ok e'.ty := by
  cases e with
  | ref name ty =>
    simp only [lower, bind_outcome_eq_ok_iff, outcome_pure, Except.ok.injEq] at done
    obtain ⟨ty', tyDone, rfl⟩ := done
    exact tyDone
  | field parent name ty | index parent position ty =>
    simp only [lower, bind_outcome_eq_ok_iff, outcome_pure, Except.ok.injEq] at done
    obtain ⟨parent', -, ty', tyDone, rfl⟩ := done
    exact tyDone
  | uint | sint | prim | mux => cases root

/-- A chain that is recorded at its selection is lowered to one that is, too. -/
theorem RecordsSelection.lowered {e e' : Expr} (recorded : e.RecordsSelection declared)
    (done : (e.lower warn).outcome = .ok e') {name : String} {t t' component : Ty}
    (root : e.root? = some name) (here : declared name t) (types : t.lower.outcome = .ok t')
    (found : e'.selected? t' = some component) : e'.ty = component := by
  obtain ⟨source, selected, same⟩ := recorded name t root here
  obtain ⟨component', found', sourceDone⟩ := selected?_of_lower done types selected
  have agree := Ty.lower_of_equal same (ty_of_lower done root)
  rw [sourceDone, Except.ok.injEq] at agree
  rw [found', Option.some.injEq] at found
  rw [← agree, found]

/-- A saturation is a chain from a name only where nothing is compared. -/
theorem root?_saturated {check : RangeCheck} {value : Expr} {action : SaturateAction}
    {name : String} (root : (saturated check value action).root? = some name) :
    saturated check value action = value := by
  cases action <;> first | rfl | cases root

/-- A wrap is a chain from a name only where nothing is corrected. -/
theorem root?_wrapped {check : RangeCheck} {value : Expr} {action : WrapAction} {name : String}
    (root : (wrapped check value action).root? = some name) :
    wrapped check value action = value := by
  cases action <;> first | rfl | cases root

end Lowering

end Expr

/-- An operator is lowered to a chain only where a saturation or a wrap has nothing to do: the chain
is its operand then, and had an interval type. -/
theorem Operator.operand_of_root {warn : Bool} {op : Operator} {operands : List Operand}
    {consts : List Int} {ty : Ty} {e : Expr} {name : String}
    (done : (op.lower warn operands consts ty).outcome = .ok e) (root : e.root? = some name) :
    ∃ o ∈ operands, e = o.value ∧ ∃ t, o.recorded = .interval t := by
  have ranged {op : Operator} {t : Ty} {ends : Int × Int} (range : op.operandRange t = .ok ends) :
      ∃ i, t = .interval i := by
    cases t <;> first | exact ⟨_, rfl⟩ | cases range
  cases reserved : op.isIntervalOnly with
  | false =>
    rw [lower_of_generic reserved] at done
    simp only [bind_outcome_eq_ok_iff, outcome_pure, Except.ok.injEq] at done
    obtain ⟨ty', -, rfl⟩ := done
    cases root
  | true =>
    cases op with
    | asInterval =>
      obtain ⟨a, rfl, -, rfl⟩ := Operand.lowerCast_eq_ok_iff.mp done
      cases root
    | incp | decp =>
      obtain ⟨a, rfl, rfl⟩ := Operand.lowerShift_eq_ok_iff.mp done
      cases root
    | clip =>
      obtain ⟨a, b, lo, hi, inLo, inHi, rfl, -, range, rfl⟩ :=
        Operand.lowerClip_eq_ok_iff.mp done
      exact ⟨a, List.mem_cons_self, Expr.root?_saturated root, ranged range⟩
    | wrap =>
      obtain ⟨a, b, rfl, ⟨w, -, done⟩ | ⟨lo, hi, -, done⟩⟩ := Operand.lowerWrap_eq_ok_iff.mp done
      · obtain ⟨n, -, -, rfl⟩ := Operand.lowerWidthWrap_eq_ok_iff.mp done
        cases root
      · obtain ⟨inLo, inHi, range, rfl⟩ := Operand.lowerWrapInto_eq_ok_iff.mp done
        exact ⟨a, List.mem_cons_self, Expr.root?_wrapped root, ranged range⟩
    | setp => cases done
    | _ => cases reserved

namespace Expr

variable {warn : Bool} {declared declared' : String → Ty → Prop}

/-- The nodes that lowering makes are no chains from a name. -/
theorem holdsOfMade_atSelection : HoldsOfMade (AtSelection declared) where
  literal _ := .of_rootless rfl
  prim _ _ _ _ := .of_rootless rfl
  mux _ _ _ _ := .of_rootless rfl

/-- The lowered expression is a chain into its declaration only if the expression is one from the
same name, or at an integer type. -/
def FollowsChain (declared' : String → Ty → Prop) (e e' : Expr) : Prop :=
  ∀ name ty component, e'.root? = some name → declared' name ty →
    e'.selected? ty = some component → e.root? = some name ∨ ∃ w, e'.ty = .sint w

/-- An expression that is no chain from a name has none to follow. -/
theorem FollowsChain.of_rootless {e e' : Expr} (rootless : e'.root? = none) :
    FollowsChain declared' e e' := by
  intro name ty component root
  rw [rootless] at root
  cases root

/-- What selects an aggregate is not at an integer type, so it comes from a chain. -/
theorem FollowsChain.root_of_aggregate {e e' : Expr} (follows : FollowsChain declared' e e')
    (selects : e'.AtSelection declared') {name : String} {ty t : Ty} (root : e'.root? = some name)
    (here : declared' name ty) (found : e'.selected? ty = some t) (aggregate : ∀ w, t ≠ .sint w) :
    e.root? = some name := by
  rcases follows name ty t root here found with same | ⟨w, integer⟩
  · exact same
  · obtain rfl := selects name ty t root here found
    exact absurd integer (aggregate w)

section Types

variable (types : ∀ name ty', declared' name ty' →
  ∃ ty, declared name ty ∧ ty.lower.outcome = .ok ty')
include types

/-- A chain recorded at what it selects is lowered to one that is, if its name is kept. -/
theorem RecordsSelection.followed {e e' : Expr} (recorded : e.RecordsSelection declared)
    (done : (e.lower warn).outcome = .ok e')
    (same : ∀ name ty component, e'.root? = some name → declared' name ty →
      e'.selected? ty = some component → e.root? = some name) :
    e'.AtSelection declared' ∧ FollowsChain declared' e e' := by
  refine ⟨fun name ty' component root here found => ?_, fun name ty' component root here found =>
    .inl (same name ty' component root here found)⟩
  obtain ⟨ty, source, tyDone⟩ := types name ty' here
  exact recorded.lowered done (same name ty' component root here found) source tyDone found

/-- Where chains are recorded at what they select, the lowered expression has chains that are, too.
A chain that comes from the operand of an operator is at an integer type, and so has no
components. -/
theorem everywhere_atSelection {e e' : Expr}
    (recorded : e.Everywhere (RecordsSelection declared)) (done : (e.lower warn).outcome = .ok e') :
    e'.Everywhere (AtSelection declared') ∧ FollowsChain declared' e e' := by
  induction e generalizing e' with
  | ref name ty =>
    have whole := done
    simp only [lower, bind_outcome_eq_ok_iff, outcome_pure, Except.ok.injEq] at done
    obtain ⟨ty', -, rfl⟩ := done
    obtain ⟨selects, follows⟩ := recorded.here.followed types whole fun _ _ _ root _ _ => root
    exact ⟨everywhere_ref_iff.mpr selects, follows⟩
  | field parent name ty ih =>
    have whole := done
    simp only [lower, bind_outcome_eq_ok_iff, outcome_pure, Except.ok.injEq] at done
    obtain ⟨parent', parentDone, ty', -, rfl⟩ := done
    obtain ⟨inParent, parentFollows⟩ := ih (everywhere_field_iff.mp recorded).2 parentDone
    obtain ⟨selects, follows⟩ := recorded.here.followed types whole fun _ _ _ root here found => by
      obtain ⟨t, f, inner, field, -⟩ := selected?_field_eq_some_iff.mp found
      exact parentFollows.root_of_aggregate inParent.here root here inner fun w integer => by
        rw [integer] at field
        cases field
    exact ⟨everywhere_field_iff.mpr ⟨selects, inParent⟩, follows⟩
  | index parent position ty ih =>
    have whole := done
    simp only [lower, bind_outcome_eq_ok_iff, outcome_pure, Except.ok.injEq] at done
    obtain ⟨parent', parentDone, ty', -, rfl⟩ := done
    obtain ⟨inParent, parentFollows⟩ := ih (everywhere_index_iff.mp recorded).2 parentDone
    obtain ⟨selects, follows⟩ := recorded.here.followed types whole fun _ _ _ root here found => by
      obtain ⟨t, inner, elem⟩ := selected?_index_eq_some_iff.mp found
      exact parentFollows.root_of_aggregate inParent.here root here inner fun w integer => by
        rw [integer] at elem
        cases elem
    exact ⟨everywhere_index_iff.mpr ⟨selects, inParent⟩, follows⟩
  | uint value width =>
    cases done
    exact ⟨everywhere_uint_iff.mpr (.of_rootless rfl), .of_rootless rfl⟩
  | sint value width =>
    cases done
    exact ⟨everywhere_sint_iff.mpr (.of_rootless rfl), .of_rootless rfl⟩
  | prim op args consts ty ih =>
    simp only [lower, bind_outcome_eq_ok_iff, lowerOperands_outcome_eq_ok_iff] at done
    obtain ⟨operands, each, done⟩ := done
    have inside := (everywhere_prim_iff.mp recorded).2
    refine ⟨Operator.everywhere_lower holdsOfMade_atSelection ?_ done, ?_⟩
    · exact forall_mem_of_forall₂ each fun arg found o step =>
        (ih arg found (inside arg found) step.1).1
    · intro name ty' component root here found
      obtain ⟨o, present, rfl, t, recordedTy⟩ := Operator.operand_of_root done root
      have follows : ∀ o ∈ operands, ∃ arg : Expr, o.recorded = arg.ty ∧
          (arg.lower warn).outcome = .ok o.value ∧ FollowsChain declared' arg o.value :=
        forall_mem_of_forall₂ each fun arg found o step =>
          ⟨arg, step.2, step.1, (ih arg found (inside arg found) step.1).2⟩
      obtain ⟨arg, same, argDone, follows⟩ := follows o present
      rcases follows name ty' component root here found with chain | integer
      · have tyDone := ty_of_lower argDone chain
        rw [← same, recordedTy, Ty.lower_interval_outcome, Interval.lowered_eq_ok_iff] at tyDone
        obtain ⟨_, _, _, -, -, -, integer⟩ := tyDone
        exact .inr ⟨_, integer.symm⟩
      · exact .inr integer
  | mux cond tval fval ty condIh tvalIh fvalIh =>
    simp only [lower, bind_outcome_eq_ok_iff, outcome_pure, Except.ok.injEq] at done
    obtain ⟨cond', condDone, tval', tvalDone, fval', fvalDone, ty', -, rfl⟩ := done
    obtain ⟨-, inCond, inTval, inFval⟩ := everywhere_mux_iff.mp recorded
    exact ⟨everywhere_mux_iff.mpr ⟨.of_rootless rfl, (condIh inCond condDone).1,
      (tvalIh inTval tvalDone).1, (fvalIh inFval fvalDone).1⟩, .of_rootless rfl⟩

end Types

/-- In a typed expression a chain is at the component that it selects, if references are at the type
of their declaration. -/
theorem everywhere_selects {e : Expr} (typed : e.Everywhere fun x =>
      (∃ s, NodeTyped s x) ∧ ∀ name ty ty', x = .ref name ty → declared name ty' → ty' = ty) :
    e.Everywhere fun x =>
      ∀ name ty, x.root? = some name → declared name ty → x.selected? ty = some x.ty := by
  induction e using ind_children with
  | step e ih =>
    have parts := everywhere_iff.mp typed
    have inside (child : Expr) (among : child ∈ e.children) := ih child among (parts.2 child among)
    refine ⟨?_, inside⟩
    obtain ⟨⟨s, node⟩, reference⟩ := parts.1
    intro name ty root here
    cases e with
    | ref referred ty' =>
      cases root
      rw [selected?, reference name ty' ty rfl here]
      rfl
    | field parent f ty' =>
      obtain ⟨found, field, rfl⟩ := nodeTyped_field_iff.mp node
      have inner := (inside parent List.mem_cons_self).here name ty root here
      exact selected?_field_eq_some_iff.mpr ⟨_, found, inner, field, rfl⟩
    | index parent position ty' =>
      obtain ⟨size, vector, within⟩ := nodeTyped_index_iff.mp node
      have inner := (inside parent List.mem_cons_self).here name ty root here
      refine selected?_index_eq_some_iff.mpr ⟨_, inner, ?_⟩
      rw [vector]
      exact if_pos within
    | uint | sint | prim | mux => cases root

end Expr

end IntervalHdl
