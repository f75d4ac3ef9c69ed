import Mathlib
import IntervalHdl.Circuit
import IntervalHdl.Removal.Report

/-!
# Positions, and rewriting them

A property can hold everywhere in an expression or a statement: at the root and at every position
below it. The replacing functions are opened here once: a bottom-up replacement succeeds exactly
when the subexpressions are replaced and the rebuilt node is rewritten
(`Expr.replaceUpM_eq_ok_iff`), so a property of its results follows by induction on the expression
from one fact about the rewriting of a node (`Expr.everywhere_of_replaceUpM`).
-/

namespace IntervalHdl
set_option autoImplicit false

section Outcomes

variable {ε α β : Type}

/-- Steps in sequence succeed exactly when the first does and then the next on its result. -/
theorem bind_eq_ok_iff {x : Except ε α} {f : α → Except ε β} {b : β} :
    x >>= f = .ok b ↔ ∃ a, x = .ok a ∧ f a = .ok b := by
  cases x <;> simp [bind, Except.bind]

theorem map_eq_ok_iff {x : Except ε α} {f : α → β} {b : β} :
    f <$> x = .ok b ↔ ∃ a, x = .ok a ∧ f a = b := by
  cases x <;> simp [Functor.map, Except.map]

theorem pure_eq_ok_iff {a b : α} : (pure a : Except ε α) = .ok b ↔ a = b := by
  simp [pure, Except.pure]

/-- A list is replaced exactly when each element is. -/
theorem mapM_eq_ok_iff {f : α → Except ε β} {as : List α} {bs : List β} :
    as.mapM f = .ok bs ↔ List.Forall₂ (fun a b => f a = .ok b) as bs := by
  induction as generalizing bs with
  | nil => cases bs <;> simp [pure_eq_ok_iff]
  | cons a as ih =>
    simp only [List.mapM_cons, bind_eq_ok_iff, pure_eq_ok_iff, List.forall₂_cons_left_iff, ih]
    constructor
    · rintro ⟨b, head, bs', tail, rfl⟩
      exact ⟨b, bs', head, tail, rfl⟩
    · rintro ⟨b, bs', head, tail, rfl⟩
      exact ⟨b, head, bs', tail, rfl⟩

/-- A pass over a list succeeds exactly where every element passes. -/
theorem forM_eq_ok_iff {f : α → Except ε Unit} {as : List α} :
    as.forM f = .ok () ↔ ∀ a ∈ as, f a = .ok () := by
  induction as with
  | nil => simp [pure_eq_ok_iff]
  | cons a as ih =>
    rw [List.forall_mem_cons, ← ih]
    simp only [List.forM_eq_forM, List.forM_cons, bind_eq_ok_iff]
    exact ⟨fun ⟨_, head, tail⟩ => ⟨head, tail⟩, fun ⟨head, tail⟩ => ⟨(), head, tail⟩⟩

/-- A pass over a list fails with the cause of the first element that fails. -/
theorem forM_eq_error_iff {f : α → Except ε Unit} {as : List α} {cause : ε} :
    as.forM f = .error cause ↔
      ∃ before a after, as = before ++ a :: after ∧ (∀ b ∈ before, f b = .ok ()) ∧
        f a = .error cause := by
  induction as with
  | nil => simp [pure, Except.pure]
  | cons head tail ih =>
    rw [List.forM_eq_forM, List.forM_cons]
    constructor
    · intro failed
      cases first : f head with
      | error e =>
        rw [first] at failed
        cases failed
        exact ⟨[], head, tail, rfl, nofun, first⟩
      | ok u =>
        rw [first] at failed
        obtain ⟨before, a, after, rfl, passed, failed⟩ := ih.mp failed
        exact ⟨head :: before, a, after, rfl, List.forall_mem_cons.mpr ⟨first, passed⟩, failed⟩
    · rintro ⟨before, a, after, split, passed, failed⟩
      cases before with
      | nil =>
        obtain ⟨rfl, rfl⟩ := List.cons.inj split
        rw [failed]
        rfl
      | cons b before =>
        obtain ⟨rfl, rfl⟩ := List.cons.inj split
        rw [passed head List.mem_cons_self]
        exact ih.mpr ⟨before, a, after, rfl, fun b found => passed b (List.mem_cons_of_mem _ found),
          failed⟩

/-- Equal steps on the members of a list make equal passes over it. -/
theorem mapM_congr {m : Type → Type} [Monad m] [LawfulMonad m] {f g : α → m β} {as : List α}
    (same : ∀ a ∈ as, f a = g a) : as.mapM f = as.mapM g := by
  induction as with
  | nil => rfl
  | cons a as ih =>
    simp only [List.mapM_cons, same a List.mem_cons_self,
      ih fun a found => same a (List.mem_cons_of_mem _ found)]

/-- A list is kept where each element is. -/
theorem mapM_eq_self {m : Type → Type} [Monad m] [LawfulMonad m] {f : α → m α} {as : List α}
    (same : ∀ a ∈ as, f a = pure a) : as.mapM f = pure as := by
  rw [mapM_congr (g := fun a => pure a) same, List.mapM_pure, List.map_id']

namespace Reported

/-- As `bind_eq_ok_iff`, the reports left aside. -/
theorem bind_outcome_eq_ok_iff {x : Reported ε α} {f : α → Reported ε β} {b : β} :
    (x >>= f).outcome = .ok b ↔ ∃ a, x.outcome = .ok a ∧ (f a).outcome = .ok b := by
  rw [outcome_bind, bind_eq_ok_iff]

/-- A sequence succeeds when its first step does, and then the rest. -/
theorem bind_succeeds_iff {x : Reported ε α} {f : α → Reported ε β} :
    (∃ b, (x >>= f).outcome = .ok b) ↔ ∃ a, x.outcome = .ok a ∧ ∃ b, (f a).outcome = .ok b := by
  simp only [bind_outcome_eq_ok_iff]
  rw [exists_comm]
  simp only [exists_and_left]

theorem map_succeeds_iff {x : Reported ε α} {f : α → β} :
    (∃ b, (f <$> x).outcome = .ok b) ↔ ∃ a, x.outcome = .ok a := by
  simp only [outcome_map, map_eq_ok_iff]
  rw [exists_comm]
  simp only [exists_and_left, exists_eq', and_true]

@[simp] theorem count_bind_outcome (tally : Tally) (f : Unit → Reported ε β) :
    (count tally >>= f).outcome = (f ()).outcome := by
  rw [outcome_bind]; rfl

@[simp] theorem tell_bind_outcome (event : Event) (f : Unit → Reported ε β) :
    (tell event >>= f).outcome = (f ()).outcome := by
  rw [outcome_bind]; rfl

/-- A pass over a list succeeds exactly when it does on every member. -/
theorem mapM_outcome_eq_ok_iff {f : α → Reported ε β} {as : List α} {bs : List β} :
    (as.mapM f).outcome = .ok bs ↔ List.Forall₂ (fun a b => (f a).outcome = .ok b) as bs := by
  rw [outcome_mapM, mapM_eq_ok_iff]

end Reported

end Outcomes

/-- A relation between two lists may be weakened by a fact about the members of the first. -/
theorem forall₂_imp_of_mem {α β : Type} {R S : α → β → Prop} {as : List α} {bs : List β}
    (step : ∀ a ∈ as, ∀ b, R a b → S a b) (each : List.Forall₂ R as bs) : List.Forall₂ S as bs := by
  induction each with
  | nil => exact .nil
  | cons head _ ih =>
    exact .cons (step _ List.mem_cons_self _ head)
      (ih fun a found => step a (List.mem_cons_of_mem _ found))

/-! ## Ways to fail -/

section Failures

variable {ε α β : Type} {P : ε → Prop}

/-- Every cause with which the computation can fail has the property. -/
def FailsWithin (P : ε → Prop) (x : Except ε α) : Prop := ∀ e, x = .error e → P e

theorem failsWithin_ok (a : α) : FailsWithin P (.ok a) := nofun

theorem failsWithin_error {e : ε} (cause : P e) : FailsWithin P (.error e : Except ε α) := by
  rintro _ ⟨⟩
  exact cause

theorem FailsWithin.imp {Q : ε → Prop} {x : Except ε α} (within : FailsWithin P x)
    (weaker : ∀ e, P e → Q e) : FailsWithin Q x :=
  fun e failed => weaker e (within e failed)

/-- A sequence fails with a cause of its first step, or of the rest behind what that step gives. -/
theorem failsWithin_bind_of_ok {x : Except ε α} {f : α → Except ε β} (first : FailsWithin P x)
    (next : ∀ a, x = .ok a → FailsWithin P (f a)) : FailsWithin P (x >>= f) := by
  cases x with
  | error e => exact failsWithin_error (first e rfl)
  | ok a => exact next a rfl

/-- Steps in sequence fail only with errors that one of them fails with. -/
theorem failsWithin_bind {x : Except ε α} {f : α → Except ε β} (first : FailsWithin P x)
    (next : ∀ a, FailsWithin P (f a)) : FailsWithin P (x >>= f) :=
  failsWithin_bind_of_ok first fun a _ => next a

/-- A pass over a list fails only with errors that it fails with on a member. -/
theorem failsWithin_mapM {f : α → Except ε β} {as : List α}
    (each : ∀ a ∈ as, FailsWithin P (f a)) : FailsWithin P (as.mapM f) := by
  induction as with
  | nil => exact failsWithin_ok _
  | cons a as ih =>
    rw [List.mapM_cons]
    refine failsWithin_bind (each a List.mem_cons_self) fun b => ?_
    exact failsWithin_bind (ih fun a found => each a (List.mem_cons_of_mem _ found))
      fun bs => failsWithin_ok _

/-- A sequence of reporting steps fails with a cause of one of its steps. -/
theorem Reported.failsWithin_bind {x : Reported ε α} {f : α → Reported ε β}
    (first : FailsWithin P x.outcome) (next : ∀ a, FailsWithin P (f a).outcome) :
    FailsWithin P (x >>= f).outcome := by
  rw [outcome_bind]
  exact IntervalHdl.failsWithin_bind first next

theorem Reported.failsWithin_mapM {f : α → Reported ε β} {as : List α}
    (each : ∀ a ∈ as, FailsWithin P (f a).outcome) : FailsWithin P (as.mapM f).outcome := by
  rw [outcome_mapM]
  exact IntervalHdl.failsWithin_mapM each

end Failures

/-- What a list is turned into has a property that each step gives. -/
theorem forall_mem_of_forall₂ {α β : Type} {R : α → β → Prop} {P : β → Prop} {as : List α}
    {bs : List β} (each : List.Forall₂ R as bs) (step : ∀ a ∈ as, ∀ b, R a b → P b) :
    ∀ b ∈ bs, P b := by
  induction each with
  | nil => simp
  | cons head _ ih =>
    intro b found
    rcases List.mem_cons.mp found with rfl | found
    · exact step _ List.mem_cons_self _ head
    · exact ih (fun a present => step a (List.mem_cons_of_mem _ present)) b found

/-- A relation that finds something for every element finds a list for the list. -/
theorem exists_forall₂ {α β : Type} {R : α → β → Prop} {as : List α}
    (each : ∀ a ∈ as, ∃ b, R a b) : ∃ bs, List.Forall₂ R as bs := by
  induction as with
  | nil => exact ⟨[], .nil⟩
  | cons a as ih =>
    obtain ⟨b, head⟩ := each a List.mem_cons_self
    obtain ⟨bs, tail⟩ := ih fun a found => each a (List.mem_cons_of_mem _ found)
    exact ⟨b :: bs, .cons head tail⟩

/-- An element of the first list is related to one of the second. -/
theorem mem_exists_of_forall₂ {α β : Type} {R : α → β → Prop} {as : List α} {bs : List β}
    (each : List.Forall₂ R as bs) {a : α} (present : a ∈ as) : ∃ b ∈ bs, R a b := by
  induction each with
  | nil => cases present
  | cons head _ ih =>
    rcases List.mem_cons.mp present with rfl | present
    · exact ⟨_, List.mem_cons_self, head⟩
    · obtain ⟨b, found, related⟩ := ih present
      exact ⟨b, List.mem_cons_of_mem _ found, related⟩

/-- A list can be replaced exactly when each of its elements can. -/
theorem exists_forall₂_iff {α β : Type} {R : α → β → Prop} {as : List α} :
    (∃ bs, List.Forall₂ R as bs) ↔ ∀ a ∈ as, ∃ b, R a b := by
  refine ⟨?_, exists_forall₂⟩
  rintro ⟨bs, each⟩ a found
  obtain ⟨b, -, related⟩ := mem_exists_of_forall₂ each found
  exact ⟨b, related⟩

theorem single_of_forall₂ {α β : Type} {R : α → β → Prop} {a : α} {bs : List β}
    (each : List.Forall₂ R [a] bs) : ∃ b, R a b ∧ bs = [b] := by
  rcases each with _ | ⟨related, _ | _⟩
  exact ⟨_, related, rfl⟩

theorem pair_of_forall₂ {α β : Type} {R : α → β → Prop} {a a' : α} {bs : List β}
    (each : List.Forall₂ R [a, a'] bs) : ∃ b b', R a b ∧ R a' b' ∧ bs = [b, b'] := by
  rcases each with _ | ⟨first, _ | ⟨second, _ | _⟩⟩
  exact ⟨_, _, first, second, rfl⟩

/-- Two properties agree on lists whose elements they agree on, one by one. -/
theorem forall_mem_iff_of_forall₂ {α β : Type} {R : α → β → Prop} {P : α → Prop} {Q : β → Prop}
    {as : List α} {bs : List β} (each : List.Forall₂ R as bs)
    (step : ∀ a b, R a b → (Q b ↔ P a)) : (∀ b ∈ bs, Q b) ↔ ∀ a ∈ as, P a := by
  induction each with
  | nil => simp
  | cons head _ ih => simp only [List.forall_mem_cons, step _ _ head, ih]

namespace Expr

/-- The operator of an operator node. -/
def operator? : Expr → Option Operator
  | .prim op _ _ _ => some op
  | _ => none

/-- The property holds of the expression and of every expression inside it. -/
inductive Everywhere (P : Expr → Prop) : Expr → Prop where
  | intro {e : Expr} (here : P e) (inside : ∀ child ∈ e.children, Everywhere P child) :
    Everywhere P e

theorem Everywhere.here {P : Expr → Prop} {e : Expr} (all : e.Everywhere P) : P e := by
  cases all; assumption

theorem Everywhere.inside {P : Expr → Prop} {e : Expr} (all : e.Everywhere P) :
    ∀ child ∈ e.children, child.Everywhere P := by
  cases all; assumption

/-- A property holds throughout an expression when it holds at the root and throughout the children.
-/
theorem everywhere_iff {P : Expr → Prop} {e : Expr} :
    e.Everywhere P ↔ P e ∧ ∀ child ∈ e.children, child.Everywhere P :=
  ⟨fun all => ⟨all.here, all.inside⟩, fun ⟨here, inside⟩ => ⟨here, inside⟩⟩

section Forms

variable {P : Expr → Prop}

@[simp] theorem everywhere_ref_iff {name : String} {ty : Ty} :
    (ref name ty).Everywhere P ↔ P (.ref name ty) :=
  ⟨Everywhere.here, fun here => ⟨here, nofun⟩⟩

@[simp] theorem everywhere_uint_iff {value : Int} {width : Width} :
    (uint value width).Everywhere P ↔ P (.uint value width) :=
  ⟨Everywhere.here, fun here => ⟨here, nofun⟩⟩

@[simp] theorem everywhere_sint_iff {value : Int} {width : Width} :
    (sint value width).Everywhere P ↔ P (.sint value width) :=
  ⟨Everywhere.here, fun here => ⟨here, nofun⟩⟩

@[simp] theorem everywhere_field_iff {parent : Expr} {name : String} {ty : Ty} :
    (field parent name ty).Everywhere P ↔ P (.field parent name ty) ∧ parent.Everywhere P := by
  rw [everywhere_iff, children, List.forall_mem_singleton]

@[simp] theorem everywhere_index_iff {parent : Expr} {position : UInt64} {ty : Ty} :
    (index parent position ty).Everywhere P ↔
      P (.index parent position ty) ∧ parent.Everywhere P := by
  rw [everywhere_iff, children, List.forall_mem_singleton]

@[simp] theorem everywhere_prim_iff {op : Operator} {args : List Expr} {consts : List Int}
    {ty : Ty} :
    (prim op args consts ty).Everywhere P ↔
      P (.prim op args consts ty) ∧ ∀ arg ∈ args, arg.Everywhere P := by
  rw [everywhere_iff, children]

@[simp] theorem everywhere_mux_iff {cond tval fval : Expr} {ty : Ty} :
    (mux cond tval fval ty).Everywhere P ↔
      P (.mux cond tval fval ty) ∧ cond.Everywhere P ∧ tval.Everywhere P ∧ fval.Everywhere P := by
  rw [everywhere_iff, children]
  simp

end Forms

/-- The same node over other subexpressions, each in relation to the one it stands for. -/
inductive Rebuilt (R : Expr → Expr → Prop) : Expr → Expr → Prop where
  | ref (name : String) (ty : Ty) : Rebuilt R (.ref name ty) (.ref name ty)
  | field {parent parent' : Expr} (name : String) (ty : Ty) :
    R parent parent' → Rebuilt R (.field parent name ty) (.field parent' name ty)
  | index {parent parent' : Expr} (position : UInt64) (ty : Ty) :
    R parent parent' → Rebuilt R (.index parent position ty) (.index parent' position ty)
  | uint (value : Int) (width : Width) : Rebuilt R (.uint value width) (.uint value width)
  | sint (value : Int) (width : Width) : Rebuilt R (.sint value width) (.sint value width)
  | prim {args args' : List Expr} (op : Operator) (consts : List Int) (ty : Ty) :
    List.Forall₂ R args args' → Rebuilt R (.prim op args consts ty) (.prim op args' consts ty)
  | mux {cond cond' tval tval' fval fval' : Expr} (ty : Ty) :
    R cond cond' → R tval tval' → R fval fval' →
      Rebuilt R (.mux cond tval fval ty) (.mux cond' tval' fval' ty)

/-- Rebuilding by a relation is rebuilding by any weaker one. -/
theorem Rebuilt.imp {R S : Expr → Expr → Prop} {e e' : Expr} (weaker : ∀ a b, R a b → S a b)
    (rebuilt : Rebuilt R e e') : Rebuilt S e e' := by
  cases rebuilt with
  | ref name ty => exact .ref name ty
  | uint value width => exact .uint value width
  | sint value width => exact .sint value width
  | field name ty parent => exact .field name ty (weaker _ _ parent)
  | index position ty parent => exact .index position ty (weaker _ _ parent)
  | prim op consts ty args => exact .prim op consts ty (args.imp weaker)
  | mux ty cond tval fval =>
    exact .mux ty (weaker _ _ cond) (weaker _ _ tval) (weaker _ _ fval)

/-- A node can be rebuilt when each of its subexpressions has one to stand for it. -/
theorem exists_rebuilt {R : Expr → Expr → Prop} {e : Expr}
    (each : ∀ child ∈ e.children, ∃ child', R child child') : ∃ e', Rebuilt R e e' := by
  cases e with
  | ref name ty => exact ⟨_, .ref name ty⟩
  | uint value width => exact ⟨_, .uint value width⟩
  | sint value width => exact ⟨_, .sint value width⟩
  | field parent name ty =>
    obtain ⟨parent', related⟩ := each parent List.mem_cons_self
    exact ⟨_, .field name ty related⟩
  | index parent position ty =>
    obtain ⟨parent', related⟩ := each parent List.mem_cons_self
    exact ⟨_, .index position ty related⟩
  | prim op args consts ty =>
    obtain ⟨args', related⟩ := exists_forall₂ each
    exact ⟨_, .prim op consts ty related⟩
  | mux cond tval fval ty =>
    obtain ⟨cond', condRelated⟩ := each cond (by simp [children])
    obtain ⟨tval', tvalRelated⟩ := each tval (by simp [children])
    obtain ⟨fval', fvalRelated⟩ := each fval (by simp [children])
    exact ⟨_, .mux ty condRelated tvalRelated fvalRelated⟩

/-- A subexpression of the rebuilt node stands for one of the node. -/
theorem Rebuilt.children {R : Expr → Expr → Prop} {e e' : Expr} (rebuilt : Rebuilt R e e') :
    List.Forall₂ R e.children e'.children := by
  cases rebuilt with
  | ref | uint | sint => exact .nil
  | field _ _ parent | index _ _ parent => exact .cons parent .nil
  | prim _ _ _ args => exact args
  | mux _ cond tval fval => exact .cons cond (.cons tval (.cons fval .nil))

section Replacing

variable {ε : Type}

/-- Reports have no influence on what a replacement gives. -/
theorem outcome_replaceUpM (f : Expr → Reported ε Expr) (e : Expr) :
    (e.replaceUpM f).outcome = e.replaceUpM fun e => (f e).outcome := by
  induction e with
  | ref | uint | sint => simp only [replaceUpM]
  | field parent name ty ih | index parent position ty ih =>
    simp only [replaceUpM, Reported.outcome_bind, ih]
  | prim op args consts ty ih =>
    have each : (replaceAllUpM f args).outcome
        = replaceAllUpM (fun e => (f e).outcome) args := by
      simp only [replaceAllUpM_eq_mapM, Reported.outcome_mapM]
      exact mapM_congr ih
    simp only [replaceUpM, Reported.outcome_bind, each]
  | mux cond tval fval ty condIh tvalIh fvalIh =>
    simp only [replaceUpM, Reported.outcome_bind, condIh, tvalIh, fvalIh]

/-- What a bottom-up replacement does: the subexpressions first, then the node over the new
ones. -/
theorem replaceUpM_eq_ok_iff {f : Expr → Except ε Expr} {e e' : Expr} :
    e.replaceUpM f = .ok e' ↔
      ∃ node, Rebuilt (fun a b => a.replaceUpM f = .ok b) e node ∧ f node = .ok e' := by
  constructor
  · intro done
    cases e with
    | ref | uint | sint => exact ⟨_, by constructor, by simpa only [replaceUpM] using done⟩
    | field parent name ty =>
      simp only [replaceUpM, bind_eq_ok_iff] at done
      obtain ⟨parent', inner, node⟩ := done
      exact ⟨_, .field name ty inner, node⟩
    | index parent position ty =>
      simp only [replaceUpM, bind_eq_ok_iff] at done
      obtain ⟨parent', inner, node⟩ := done
      exact ⟨_, .index position ty inner, node⟩
    | prim op args consts ty =>
      simp only [replaceUpM, bind_eq_ok_iff, replaceAllUpM_eq_mapM, mapM_eq_ok_iff] at done
      obtain ⟨args', inner, node⟩ := done
      exact ⟨_, .prim op consts ty inner, node⟩
    | mux cond tval fval ty =>
      simp only [replaceUpM, bind_eq_ok_iff] at done
      obtain ⟨cond', condDone, tval', tvalDone, fval', fvalDone, node⟩ := done
      exact ⟨_, .mux ty condDone tvalDone fvalDone, node⟩
  · rintro ⟨node, rebuilt, done⟩
    cases rebuilt with
    | ref | uint | sint => simpa only [replaceUpM] using done
    | field _ _ inner | index _ _ inner =>
      simp only [replaceUpM, bind_eq_ok_iff]
      exact ⟨_, inner, done⟩
    | prim _ _ _ inner =>
      simp only [replaceUpM, bind_eq_ok_iff, replaceAllUpM_eq_mapM, mapM_eq_ok_iff]
      exact ⟨_, inner, done⟩
    | mux _ condDone tvalDone fvalDone =>
      simp only [replaceUpM, bind_eq_ok_iff]
      exact ⟨_, condDone, _, tvalDone, _, fvalDone, done⟩

/-- Induction along a successful replacement: a relation between an expression and its result holds
if it carries over from the subexpressions to the rewritten node. -/
theorem replaceUpM_rel {f : Expr → Except ε Expr} {R : Expr → Expr → Prop}
    (step : ∀ e node e', Rebuilt R e node → f node = .ok e' → R e e') {e e' : Expr}
    (done : e.replaceUpM f = .ok e') : R e e' := by
  induction e generalizing e' with
  | ref | uint | sint =>
    obtain ⟨node, rebuilt, node_done⟩ := replaceUpM_eq_ok_iff.mp done
    cases rebuilt
    exact step _ _ _ (by constructor) node_done
  | field parent name ty ih =>
    obtain ⟨node, rebuilt, done⟩ := replaceUpM_eq_ok_iff.mp done
    cases rebuilt with
    | field _ _ inner => exact step _ _ _ (.field name ty (ih inner)) done
  | index parent position ty ih =>
    obtain ⟨node, rebuilt, done⟩ := replaceUpM_eq_ok_iff.mp done
    cases rebuilt with
    | index _ _ inner => exact step _ _ _ (.index position ty (ih inner)) done
  | prim op args consts ty ih =>
    obtain ⟨node, rebuilt, done⟩ := replaceUpM_eq_ok_iff.mp done
    cases rebuilt with
    | prim _ _ _ inner =>
      exact step _ _ _ (.prim op consts ty (forall₂_imp_of_mem (fun _ found _ => ih _ found) inner))
        done
  | mux cond tval fval ty condIh tvalIh fvalIh =>
    obtain ⟨node, rebuilt, done⟩ := replaceUpM_eq_ok_iff.mp done
    cases rebuilt with
    | mux _ condDone tvalDone fvalDone =>
      exact step _ _ _ (.mux ty (condIh condDone) (tvalIh tvalDone) (fvalIh fvalDone)) done

/-- A property holds everywhere in the result of a replacement if rewriting a node establishes it
there, given that it holds everywhere below. -/
theorem everywhere_of_replaceUpM {f : Expr → Except ε Expr} {P : Expr → Prop}
    (step : ∀ node e', (∀ child ∈ node.children, child.Everywhere P) → f node = .ok e' →
      e'.Everywhere P) {e e' : Expr} (done : e.replaceUpM f = .ok e') : e'.Everywhere P := by
  refine replaceUpM_rel (R := fun _ e' => e'.Everywhere P)
    (fun e node e' rebuilt node_done => ?_) done
  exact step node e' (forall_mem_of_forall₂ rebuilt.children fun _ _ _ all => all) node_done

/-- Rebuilding an expression fails only with errors that the step at a node fails with. -/
theorem failsWithin_replaceUpM {P : ε → Prop} {f : Expr → Reported ε Expr}
    (node : ∀ e, FailsWithin P (f e).outcome) (e : Expr) :
    FailsWithin P (e.replaceUpM f).outcome := by
  induction e with
  | ref | uint | sint =>
    rw [replaceUpM]
    exact node _
  | field parent name ty ih | index parent position ty ih =>
    rw [replaceUpM]
    exact Reported.failsWithin_bind ih fun _ => node _
  | prim op args consts ty ih =>
    rw [replaceUpM, replaceAllUpM_eq_mapM]
    exact Reported.failsWithin_bind (Reported.failsWithin_mapM ih) fun _ => node _
  | mux cond tval fval ty condIh tvalIh fvalIh =>
    rw [replaceUpM]
    exact Reported.failsWithin_bind condIh fun _ =>
      Reported.failsWithin_bind tvalIh fun _ => Reported.failsWithin_bind fvalIh fun _ => node _

end Replacing

end Expr

/-- A pass over the expressions of a statement fails only with errors that it fails with on one. -/
theorem Stmt.failsWithin_mapExprsM {ε : Type} {P : ε → Prop} {f : Expr → Reported ε Expr}
    (each : ∀ e, FailsWithin P (f e).outcome) (s : Stmt) :
    FailsWithin P (s.mapExprsM f).outcome := by
  unfold mapExprsM
  split
  · exact Reported.failsWithin_bind (each _) fun _ => failsWithin_ok _
  · refine Reported.failsWithin_bind (each _) fun _ => ?_
    refine Reported.failsWithin_bind (each _) fun _ => ?_
    exact Reported.failsWithin_bind (each _) fun _ => failsWithin_ok _
  · exact Reported.failsWithin_bind (each _) fun _ => failsWithin_ok _
  · exact Reported.failsWithin_bind (each _) fun _ =>
      Reported.failsWithin_bind (each _) fun _ => failsWithin_ok _
  · exact Reported.failsWithin_bind (each _) fun _ =>
      Reported.failsWithin_bind (each _) fun _ => failsWithin_ok _
  · exact Reported.failsWithin_bind (each _) fun _ => failsWithin_ok _
  · exact Reported.failsWithin_bind (each _) fun _ => failsWithin_ok _
  · exact failsWithin_ok _

namespace Stmt

/-- The property holds of the statement and of every statement inside it. -/
inductive Everywhere (P : Stmt → Prop) : Stmt → Prop where
  | intro {s : Stmt} (here : P s) (inside : ∀ inner ∈ s.stmts, Everywhere P inner) :
    Everywhere P s

theorem Everywhere.here {P : Stmt → Prop} {s : Stmt} (all : s.Everywhere P) : P s := by
  cases all; assumption

theorem Everywhere.inside {P : Stmt → Prop} {s : Stmt} (all : s.Everywhere P) :
    ∀ inner ∈ s.stmts, inner.Everywhere P := by
  cases all; assumption

theorem Everywhere.mono {P Q : Stmt → Prop} {s : Stmt} (all : s.Everywhere P)
    (weaker : ∀ s, P s → Q s) : s.Everywhere Q := by
  induction all with
  | intro here _ ih => exact ⟨weaker _ here, ih⟩

/-- A property holds throughout a statement when it holds of it and throughout the statements
inside. -/
theorem everywhere_iff {P : Stmt → Prop} {s : Stmt} :
    s.Everywhere P ↔ P s ∧ ∀ inner ∈ s.stmts, inner.Everywhere P :=
  ⟨fun all => ⟨all.here, all.inside⟩, fun ⟨here, inside⟩ => ⟨here, inside⟩⟩

end Stmt

/-- The property holds of every statement of the circuit, at any nesting. -/
def Circuit.EveryStmt (P : Stmt → Prop) (c : Circuit) : Prop :=
  ∀ m ∈ c.modules, ∀ body ∈ m.body?, body.Everywhere P

/-- The property holds of every expression of the circuit, at any nesting of statements and
expressions. -/
def Circuit.EveryExpr (P : Expr → Prop) (c : Circuit) : Prop :=
  c.EveryStmt fun s => ∀ e ∈ s.exprs, e.Everywhere P

section Modules

variable {ε : Type}

/-- A pass over the body of a module keeps name and ports, and a module without a body. -/
theorem Module.mapBodyM_eq_ok_iff {f : Stmt → Except ε Stmt} {m m' : Module} :
    m.mapBodyM f = .ok m' ↔
      m'.name = m.name ∧ m'.ports = m.ports ∧
        Option.Rel (fun body body' => f body = .ok body') m.body? m'.body? := by
  obtain ⟨name, ports, body?⟩ := m
  obtain ⟨name', ports', body'?⟩ := m'
  cases body? with
  | none =>
    simp only [mapBodyM, pure_eq_ok_iff, Module.mk.injEq]
    constructor
    · rintro ⟨rfl, rfl, rfl⟩
      exact ⟨rfl, rfl, .none⟩
    · rintro ⟨rfl, rfl, ⟨⟩⟩
      exact ⟨rfl, rfl, rfl⟩
  | some body =>
    simp only [mapBodyM, bind_eq_ok_iff, pure_eq_ok_iff, Module.mk.injEq]
    constructor
    · rintro ⟨body', done, rfl, rfl, rfl⟩
      exact ⟨rfl, rfl, .some done⟩
    · rintro ⟨rfl, rfl, ⟨done⟩⟩
      exact ⟨_, done, rfl, rfl, rfl⟩

/-- A pass over the ports of a module keeps name and body. -/
theorem Module.mapPortsM_eq_ok_iff {f : Port → Except ε Port} {m m' : Module} :
    m.mapPortsM f = .ok m' ↔
      m'.name = m.name ∧ m'.body? = m.body? ∧
        List.Forall₂ (fun p p' => f p = .ok p') m.ports m'.ports := by
  obtain ⟨name, ports, body?⟩ := m
  obtain ⟨name', ports', body'?⟩ := m'
  simp only [mapPortsM, bind_eq_ok_iff, pure_eq_ok_iff, mapM_eq_ok_iff, Module.mk.injEq]
  constructor
  · rintro ⟨ports', each, rfl, rfl, rfl⟩
    exact ⟨rfl, rfl, each⟩
  · rintro ⟨rfl, rfl, each⟩
    exact ⟨_, each, rfl, rfl, rfl⟩

/-- A pass over the modules of a circuit keeps its main module's name, and their order. -/
theorem Circuit.mapModulesM_eq_ok_iff {f : Module → Except ε Module} {c c' : Circuit} :
    c.mapModulesM f = .ok c' ↔
      c'.main = c.main ∧ List.Forall₂ (fun m m' => f m = .ok m') c.modules c'.modules := by
  obtain ⟨main, modules⟩ := c
  obtain ⟨main', modules'⟩ := c'
  simp only [mapModulesM, bind_eq_ok_iff, pure_eq_ok_iff, mapM_eq_ok_iff, Circuit.mk.injEq]
  constructor
  · rintro ⟨modules', each, rfl, rfl⟩
    exact ⟨rfl, each⟩
  · rintro ⟨rfl, each⟩
    exact ⟨_, each, rfl, rfl⟩

/-- The outcome of a pass over a body is the pass of the outcomes. -/
theorem Module.outcome_mapBodyM (f : Stmt → Reported ε Stmt) (m : Module) :
    (m.mapBodyM f).outcome = m.mapBodyM fun s => (f s).outcome := by
  unfold mapBodyM
  split
  · rw [Reported.outcome_bind]; rfl
  · rfl

theorem Module.outcome_mapPortsM (f : Port → Reported ε Port) (m : Module) :
    (m.mapPortsM f).outcome = m.mapPortsM fun p => (f p).outcome := by
  simp only [mapPortsM, Reported.outcome_bind, Reported.outcome_mapM]
  rfl

/-- The outcome of a pass over modules is the pass of the outcomes. -/
theorem Circuit.outcome_mapModulesM (f : Module → Reported ε Module) (c : Circuit) :
    (c.mapModulesM f).outcome = c.mapModulesM fun m => (f m).outcome := by
  simp only [mapModulesM, Reported.outcome_bind, Reported.outcome_mapM]
  rfl

theorem Module.failsWithin_mapBodyM {P : ε → Prop} {f : Stmt → Reported ε Stmt}
    (each : ∀ s, FailsWithin P (f s).outcome) (m : Module) :
    FailsWithin P (m.mapBodyM f).outcome := by
  unfold mapBodyM
  split
  · exact Reported.failsWithin_bind (each _) fun _ => failsWithin_ok _
  · exact failsWithin_ok _

end Modules

end IntervalHdl
