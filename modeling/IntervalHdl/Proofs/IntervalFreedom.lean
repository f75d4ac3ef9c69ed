import IntervalHdl.Removal
import IntervalHdl.Proofs.Typing.Results
import IntervalHdl.Proofs.Lowering.Steps

/-!
# Circuits without intervals

What it means that no interval is left, said over all positions and without the search of
`Circuit.checkIntervalFree`: no interval at any depth of any type, and no operator reserved for
intervals. Lowering establishes it on every circuit it accepts, whatever the circuit looked like,
and type inference keeps it, since all types it hands out come from declarations or from the rules
of integer operators. The final check of a removal therefore never fails.
-/

namespace IntervalHdl
set_option autoImplicit false

open Reported

/-- An interval occurs in the type, at some depth. -/
inductive Ty.HasInterval : Ty → Prop where
  | interval (t : Interval) : HasInterval (.interval t)
  | field {fields : List (Field Ty)} {f : Field Ty} (found : f ∈ fields)
    (inner : HasInterval f.ty) : HasInterval (.bundle fields)
  | elem {elem : Ty} (size : UInt64) (inner : HasInterval elem) : HasInterval (.vector elem size)

/-- The node itself shows no interval. -/
structure Expr.NodeFree (e : Expr) : Prop where
  ty : ¬ e.ty.HasInterval
  operator : ∀ op ∈ e.operator?, op.isIntervalOnly = false

/-- The statement itself shows no interval, in its declared type or anywhere in its expressions. -/
structure Stmt.NodeFree (s : Stmt) : Prop where
  declared : ∀ ty ∈ s.declaredTy?, ¬ ty.HasInterval
  exprs : ∀ e ∈ s.exprs, e.Everywhere Expr.NodeFree

/-- No interval in the ports of a module or anywhere in its body. -/
structure Module.IntervalFree (m : Module) : Prop where
  ports : ∀ p ∈ m.ports, ¬ p.ty.HasInterval
  body : ∀ body ∈ m.body?, body.Everywhere Stmt.NodeFree

/-- No interval anywhere in a circuit. -/
def Circuit.IntervalFree (c : Circuit) : Prop := ∀ m ∈ c.modules, m.IntervalFree

namespace Ty

@[simp] theorem not_hasInterval_uint (w : Width) : ¬ (Ty.uint w).HasInterval := nofun
@[simp] theorem not_hasInterval_sint (w : Width) : ¬ (Ty.sint w).HasInterval := nofun
@[simp] theorem not_hasInterval_clock : ¬ Ty.clock.HasInterval := nofun
@[simp] theorem not_hasInterval_unknown : ¬ Ty.unknown.HasInterval := nofun

@[simp] theorem not_hasInterval_signedness (s : Signedness) (w : Width) :
    ¬ (s.ty w).HasInterval := by
  cases s <;> nofun

@[simp] theorem hasInterval_bundle_iff {fields : List (Field Ty)} :
    (Ty.bundle fields).HasInterval ↔ ∃ f ∈ fields, f.ty.HasInterval := by
  constructor
  · rintro (_ | ⟨found, inner⟩)
    exact ⟨_, found, inner⟩
  · rintro ⟨f, found, inner⟩
    exact .field found inner

@[simp] theorem hasInterval_vector_iff {elem : Ty} {size : UInt64} :
    (Ty.vector elem size).HasInterval ↔ elem.HasInterval := by
  constructor
  · rintro (_ | _ | ⟨_, inner⟩)
    exact inner
  · exact .elem size

/-- The program's test for an interval in a type finds one at any depth. -/
theorem containsInterval_iff {t : Ty} : t.containsInterval = true ↔ t.HasInterval := by
  induction t with
  | uint | sint | clock | unknown => simp [containsInterval]
  | interval t => simp [containsInterval, HasInterval.interval]
  | bundle fields ih =>
    simp only [containsInterval_bundle, List.any_eq_true, hasInterval_bundle_iff]
    exact exists_congr fun f => and_congr_right fun found => ih f found
  | vector elem size ih => simp [ih]

/-- A type is reported exactly if an interval occurs in it. -/
theorem survivor?_eq_none_iff {t : Ty} {survivor : Survivor} :
    t.survivor? survivor = none ↔ ¬ t.HasInterval := by
  simp [survivor?, ← containsInterval_iff]

end Ty

/-- An operator is reported exactly if it is reserved for intervals. -/
theorem Operator.survivor?_eq_none_iff {op : Operator} {survivor : Survivor} :
    op.survivor? survivor = none ↔ op.isIntervalOnly = false := by
  simp [survivor?]

/-! ## The check -/

namespace Expr

theorem nodeFree_iff {e : Expr} :
    e.NodeFree ↔ ¬ e.ty.HasInterval ∧ ∀ op ∈ e.operator?, op.isIntervalOnly = false :=
  ⟨fun free => ⟨free.ty, free.operator⟩, fun ⟨ty, operator⟩ => ⟨ty, operator⟩⟩

/-- A node that applies no operator shows no interval if its type has none. -/
theorem NodeFree.plain {e : Expr} (plain : e.operator? = none) (ty : ¬ e.ty.HasInterval) :
    e.NodeFree :=
  ⟨ty, by simp [plain]⟩

/-- A search through expressions comes up empty when it does on each. -/
theorem firstSurvivor?_eq_none_iff {es : List Expr} :
    firstSurvivor? es = none ↔ ∀ e ∈ es, e.survivor? = none := by
  induction es with
  | nil => simp [firstSurvivor?]
  | cons e es ih => simp [firstSurvivor?, Option.or_eq_none_iff, ih]

/-- The search comes up empty exactly on the expressions without intervals. -/
theorem survivor?_eq_none_iff {e : Expr} : e.survivor? = none ↔ e.Everywhere NodeFree := by
  induction e with
  | ref | uint | sint =>
    rw [everywhere_iff, nodeFree_iff]
    simp [survivor?, Ty.survivor?_eq_none_iff, operator?, children, Expr.ty]
  | field parent name ty ih | index parent position ty ih =>
    rw [everywhere_iff, nodeFree_iff]
    simp [survivor?, Option.or_eq_none_iff, Ty.survivor?_eq_none_iff, operator?, children, Expr.ty,
      ih]
  | prim op args consts ty ih =>
    rw [everywhere_iff, nodeFree_iff]
    simp only [survivor?, Option.or_eq_none_iff, Ty.survivor?_eq_none_iff,
      Operator.survivor?_eq_none_iff, firstSurvivor?_eq_none_iff, operator?, children, Expr.ty,
      Option.mem_def, Option.some.injEq, forall_eq']
    have each := forall₂_congr ih
    tauto
  | mux cond tval fval ty condIh tvalIh fvalIh =>
    rw [everywhere_iff, nodeFree_iff]
    simp [survivor?, Option.or_eq_none_iff, Ty.survivor?_eq_none_iff, operator?, children, Expr.ty,
      condIh, tvalIh, fvalIh]

end Expr

namespace Stmt

theorem nodeFree_iff {s : Stmt} :
    s.NodeFree ↔ (∀ ty ∈ s.declaredTy?, ¬ ty.HasInterval) ∧
      ∀ e ∈ s.exprs, e.Everywhere Expr.NodeFree :=
  ⟨fun free => ⟨free.declared, free.exprs⟩, fun ⟨declared, exprs⟩ => ⟨declared, exprs⟩⟩

/-- The search outside the inner statements comes up empty when none of it shows an interval. -/
theorem ownSurvivor?_eq_none_iff {s : Stmt} : s.ownSurvivor? = none ↔ s.NodeFree := by
  simp only [ownSurvivor?, Option.or_eq_none_iff, Expr.firstSurvivor?_eq_none_iff,
    Expr.survivor?_eq_none_iff, nodeFree_iff]
  refine and_congr_left fun _ => ?_
  cases s <;> simp [declarationSurvivor?, declaredName?, declaredTy?, Ty.survivor?_eq_none_iff]

/-- A search through statements comes up empty when it does on each. -/
theorem firstSurvivor?_eq_none_iff {stmts : List Stmt} :
    firstSurvivor? stmts = none ↔ ∀ s ∈ stmts, s.survivor? = none := by
  induction stmts with
  | nil => simp [firstSurvivor?]
  | cons s stmts ih => simp [firstSurvivor?, Option.or_eq_none_iff, ih]

/-- The search comes up empty exactly on the statements without intervals, at any nesting. -/
theorem survivor?_eq_none_iff {s : Stmt} : s.survivor? = none ↔ s.Everywhere NodeFree := by
  induction s with
  | wire | reg | node | connect | partialConnect | invalid =>
    rw [everywhere_iff, ← ownSurvivor?_eq_none_iff]
    simp [survivor?, stmts]
  | when cond conseq alt conseqIh altIh =>
    rw [everywhere_iff, ← ownSurvivor?_eq_none_iff]
    simp [survivor?, stmts, Option.or_eq_none_iff, conseqIh, altIh]
  | block stmts ih =>
    rw [everywhere_iff, nodeFree_iff]
    simp only [survivor?, firstSurvivor?_eq_none_iff, Stmt.stmts, declaredTy?, exprs]
    have each := forall₂_congr ih
    simp [each]
  | skip =>
    rw [everywhere_iff, nodeFree_iff]
    simp [survivor?, declaredTy?, exprs, stmts]

end Stmt

/-- The search comes up empty exactly on the modules without intervals. -/
theorem Module.survivor?_eq_none_iff {m : Module} : m.survivor? = none ↔ m.IntervalFree := by
  have ports : m.ports.findSome? Port.survivor? = none ↔ ∀ p ∈ m.ports, ¬ p.ty.HasInterval := by
    simp [List.findSome?_eq_none_iff, Port.survivor?, Ty.survivor?_eq_none_iff]
  have body : m.body?.bind Stmt.survivor? = none ↔
      ∀ body ∈ m.body?, body.Everywhere Stmt.NodeFree := by
    cases m.body? <;> simp [Stmt.survivor?_eq_none_iff]
  rw [survivor?, Option.or_eq_none_iff, ports, body]
  exact ⟨fun ⟨ports, body⟩ => ⟨ports, body⟩, fun free => ⟨free.ports, free.body⟩⟩

/-- The check accepts exactly the modules without intervals. -/
theorem Module.checkIntervalFree_eq_ok_iff {m : Module} :
    m.checkIntervalFree = .ok () ↔ m.IntervalFree := by
  rw [← Module.survivor?_eq_none_iff, checkIntervalFree]
  cases m.survivor? <;> simp

/-- The check accepts exactly the circuits without intervals. -/
theorem Circuit.checkIntervalFree_eq_ok_iff {c : Circuit} :
    c.checkIntervalFree = .ok () ↔ c.IntervalFree := by
  rw [checkIntervalFree, forM_eq_ok_iff]
  exact forall₂_congr fun _ _ => Module.checkIntervalFree_eq_ok_iff

/-! ## Type inference -/

/-- No declared type in the scope holds an interval. -/
def Scope.Free (s : Scope) : Prop := ∀ entry ∈ s, ¬ entry.2.HasInterval

/-- A scope without intervals stays so when a type without them is declared. -/
theorem Scope.Free.declare {s : Scope} (free : s.Free) (name : String) {ty : Ty}
    (tyFree : ¬ ty.HasInterval) : (s.declare name ty).Free := by
  intro entry found
  rcases List.mem_cons.mp found with rfl | found
  · exact tyFree
  · exact free entry found

/-- Ports without intervals declare none. -/
theorem Scope.Free.ofPorts {ports : List Port} (free : ∀ p ∈ ports, ¬ p.ty.HasInterval) :
    (Scope.ofPorts ports).Free := by
  have extend : ∀ s : Scope, s.Free → (ports.foldl (fun s p => s.declare p.name p.ty) s).Free := by
    induction ports with
    | nil => exact fun _ sFree => sFree
    | cons p ports ih =>
      intro s sFree
      exact ih (fun q found => free q (List.mem_cons_of_mem _ found)) _
        (sFree.declare p.name (free p List.mem_cons_self))
  exact extend [] nofun

/-- A type that is found is one of those declared. -/
theorem Scope.mem_of_lookup {s : Scope} {name : String} {ty : Ty}
    (found : s.lookup name = some ty) : (name, ty) ∈ s := by
  induction s with
  | nil => cases found
  | cons entry s ih =>
    obtain ⟨other, declared⟩ := entry
    rw [List.lookup_cons] at found
    split at found
    · rename_i same
      cases found
      rw [eq_of_beq same]
      exact List.mem_cons_self
    · exact List.mem_cons_of_mem _ (ih found)

namespace Expr

/-- Typing a node gives it a type without intervals, if its subexpressions and the scope have
none. The type recorded before plays no part. -/
theorem nodeFree_of_inferNode {s : Scope} (free : s.Free) {node e : Expr}
    (inside : ∀ child ∈ node.children, child.Everywhere NodeFree)
    (typed : inferNode s node = .ok e) : e.Everywhere NodeFree := by
  cases node with
  | ref name ty =>
    simp only [inferNode, bind_eq_ok_iff, Scope.resolve_eq_ok_iff, pure_eq_ok_iff] at typed
    obtain ⟨declared, found, rfl⟩ := typed
    exact ⟨.plain rfl (free _ (Scope.mem_of_lookup found)), inside⟩
  | uint value width =>
    cases typed
    exact ⟨.plain rfl (by simp [Expr.ty]), inside⟩
  | sint value width =>
    cases typed
    exact ⟨.plain rfl (by simp [Expr.ty]), inside⟩
  | field parent name ty =>
    simp only [inferNode] at typed
    split at typed
    · rename_i found lookup
      cases typed
      refine ⟨.plain rfl ?_, inside⟩
      have parentFree := (inside parent List.mem_cons_self).here.ty
      cases bundle : parent.ty <;> simp only [bundle, Ty.field?, reduceCtorEq] at lookup
      rw [bundle, Ty.hasInterval_bundle_iff] at parentFree
      exact fun occurs => parentFree ⟨found, List.mem_of_find?_eq_some lookup, occurs⟩
    · cases typed
  | index parent position ty =>
    simp only [inferNode] at typed
    split at typed
    · rename_i elem size vector
      split at typed
      · cases typed
        refine ⟨.plain rfl ?_, inside⟩
        have parentFree := (inside parent List.mem_cons_self).here.ty
        rwa [vector, Ty.hasInterval_vector_iff] at parentFree
      · cases typed
    · cases typed
  | prim op args consts ty =>
    simp only [inferNode, bind_eq_ok_iff, pure_eq_ok_iff] at typed
    obtain ⟨result, typed, rfl⟩ := typed
    obtain ⟨sign, width, rfl⟩ := Operator.resultTy_integer typed
    refine ⟨⟨Ty.not_hasInterval_signedness sign width, ?_⟩, inside⟩
    rintro _ ⟨⟩
    exact Operator.isIntervalOnly_of_resultTy typed
  | mux cond tval fval ty =>
    simp only [inferNode] at typed
    split at typed
    · simp only [bind_eq_ok_iff, pure_eq_ok_iff] at typed
      obtain ⟨result, typed, rfl⟩ := typed
      refine ⟨.plain rfl ?_, inside⟩
      rcases muxTy_eq_ok typed with ⟨sign, width, rfl⟩ | rfl
      · exact Ty.not_hasInterval_signedness sign width
      · exact (inside tval (by simp [children])).here.ty
    · cases typed

/-- Inference in a scope without intervals gives an expression without them, whatever it recorded.
-/
theorem everywhere_nodeFree_of_infer {s : Scope} (free : s.Free) {e e' : Expr}
    (typed : e.infer s = .ok e') : e'.Everywhere NodeFree :=
  everywhere_of_replaceUpM (fun _ _ inside done => nodeFree_of_inferNode free inside done) typed

end Expr

namespace Stmt

/-- The statement itself declares no interval. -/
def DeclaresFree (s : Stmt) : Prop := ∀ ty ∈ s.declaredTy?, ¬ ty.HasInterval

/-- A statement without a declared type declares no interval. -/
theorem DeclaresFree.of_none {s : Stmt} (none : s.declaredTy? = none) : s.DeclaresFree := by
  simp [DeclaresFree, none]

/-- A statement without nested ones shows no interval if its declared type and its typed
expressions show none. -/
theorem everywhere_nodeFree_leaf {s : Stmt} (leaf : s.stmts = []) (declared : s.DeclaresFree)
    (exprs : ∀ e ∈ s.exprs, e.Everywhere Expr.NodeFree) : s.Everywhere NodeFree :=
  ⟨⟨declared, exprs⟩, by simp [leaf]⟩

/-- What typing a statement gives, and the scope behind it, are without intervals. -/
def InfersFree (stmt : Stmt) : Prop :=
  ∀ (s : Scope) (result : Stmt × Scope), s.Free → stmt.Everywhere DeclaresFree →
    stmt.infer s = .ok result → result.1.Everywhere NodeFree ∧ result.2.Free

/-- Statements in order are typed without intervals if each is, and leave a scope without them. -/
theorem inferAll_free {stmts : List Stmt} (each : ∀ stmt ∈ stmts, stmt.InfersFree) :
    ∀ (s : Scope) (result : List Stmt × Scope), s.Free →
      (∀ stmt ∈ stmts, stmt.Everywhere DeclaresFree) → inferAll s stmts = .ok result →
        (∀ stmt ∈ result.1, stmt.Everywhere NodeFree) ∧ result.2.Free := by
  induction stmts with
  | nil =>
    intro s result free _ typed
    cases typed
    exact ⟨nofun, free⟩
  | cons stmt stmts ih =>
    intro s result free declared typed
    simp only [inferAll, bind_eq_ok_iff, pure_eq_ok_iff] at typed
    obtain ⟨⟨stmt', s'⟩, head, ⟨stmts', s''⟩, tail, rfl⟩ := typed
    obtain ⟨headFree, free'⟩ := each stmt List.mem_cons_self s _ free
      (declared stmt List.mem_cons_self) head
    obtain ⟨tailFree, free''⟩ := ih (fun stmt found => each stmt (List.mem_cons_of_mem _ found))
      s' _ free' (fun stmt found => declared stmt (List.mem_cons_of_mem _ found)) tail
    refine ⟨?_, free''⟩
    rintro inner (_ | ⟨_, found⟩)
    · exact headFree
    · exact tailFree inner found

/-- Inference brings no interval into a statement: every type in it comes from a declaration without
intervals or from the rule of an operator. -/
theorem infersFree (stmt : Stmt) : stmt.InfersFree := by
  induction stmt with
  | wire name ty =>
    intro s result free declared typed
    cases typed
    have tyFree := declared.here ty rfl
    exact ⟨everywhere_nodeFree_leaf rfl declared.here nofun, free.declare name tyFree⟩
  | reg name ty clock reset =>
    intro s result free declared typed
    have tyFree := declared.here ty rfl
    have inner := free.declare name tyFree
    cases reset with
    | none =>
      simp only [infer, bind_eq_ok_iff, pure_eq_ok_iff] at typed
      obtain ⟨clock', clockTyped, rfl⟩ := typed
      refine ⟨everywhere_nodeFree_leaf rfl declared.here ?_, inner⟩
      simpa [exprs] using Expr.everywhere_nodeFree_of_infer inner clockTyped
    | some reset =>
      simp only [infer, bind_eq_ok_iff, pure_eq_ok_iff] at typed
      obtain ⟨clock', clockTyped, signal', signalTyped, init', initTyped, rfl⟩ := typed
      refine ⟨everywhere_nodeFree_leaf rfl declared.here ?_, inner⟩
      simp only [exprs, List.forall_mem_cons]
      exact ⟨Expr.everywhere_nodeFree_of_infer inner clockTyped,
        Expr.everywhere_nodeFree_of_infer inner signalTyped,
        Expr.everywhere_nodeFree_of_infer inner initTyped, nofun⟩
  | node name value =>
    intro s result free _ typed
    simp only [infer, bind_eq_ok_iff, pure_eq_ok_iff] at typed
    obtain ⟨value', valueTyped, rfl⟩ := typed
    have valueFree := Expr.everywhere_nodeFree_of_infer free valueTyped
    refine ⟨everywhere_nodeFree_leaf rfl (.of_none rfl) ?_, free.declare name valueFree.here.ty⟩
    simpa [exprs] using valueFree
  | connect loc value | partialConnect loc value =>
    intro s result free _ typed
    simp only [infer, bind_eq_ok_iff, pure_eq_ok_iff] at typed
    obtain ⟨loc', locTyped, value', valueTyped, rfl⟩ := typed
    refine ⟨everywhere_nodeFree_leaf rfl (.of_none rfl) ?_, free⟩
    simp only [exprs, List.forall_mem_cons]
    exact ⟨Expr.everywhere_nodeFree_of_infer free locTyped,
      Expr.everywhere_nodeFree_of_infer free valueTyped, nofun⟩
  | when cond conseq alt conseqIh altIh =>
    intro s result free declared typed
    simp only [infer, bind_eq_ok_iff, pure_eq_ok_iff] at typed
    obtain ⟨cond', condTyped, ⟨conseq', s'⟩, conseqTyped, ⟨alt', s''⟩, altTyped, rfl⟩ := typed
    obtain ⟨conseqFree, free'⟩ := conseqIh s _ free (declared.inside conseq (by simp [stmts]))
      conseqTyped
    obtain ⟨altFree, free''⟩ := altIh s' _ free' (declared.inside alt (by simp [stmts])) altTyped
    refine ⟨⟨⟨nofun, ?_⟩, ?_⟩, free''⟩
    · simpa [exprs] using Expr.everywhere_nodeFree_of_infer free condTyped
    · simp only [stmts, List.forall_mem_cons]
      exact ⟨conseqFree, altFree, nofun⟩
  | block stmts ih =>
    intro s result free declared typed
    simp only [infer, bind_eq_ok_iff, pure_eq_ok_iff] at typed
    obtain ⟨⟨stmts', s'⟩, stmtsTyped, rfl⟩ := typed
    obtain ⟨stmtsFree, free'⟩ := inferAll_free ih s _ free declared.inside stmtsTyped
    exact ⟨⟨⟨nofun, nofun⟩, stmtsFree⟩, free'⟩
  | invalid loc =>
    intro s result free _ typed
    simp only [infer, bind_eq_ok_iff, pure_eq_ok_iff] at typed
    obtain ⟨loc', locTyped, rfl⟩ := typed
    refine ⟨everywhere_nodeFree_leaf rfl (.of_none rfl) ?_, free⟩
    simpa [exprs] using Expr.everywhere_nodeFree_of_infer free locTyped
  | skip =>
    intro s result free _ typed
    cases typed
    exact ⟨everywhere_nodeFree_leaf rfl nofun nofun, free⟩

end Stmt

/-- Typing keeps a circuit without intervals free of them. -/
theorem Circuit.intervalFree_of_infer {c c' : Circuit} (free : c.IntervalFree)
    (typed : c.infer = .ok c') : c'.IntervalFree := by
  obtain ⟨-, each⟩ := Circuit.mapModulesM_eq_ok_iff.mp typed
  refine forall_mem_of_forall₂ each fun m found m' typed => ?_
  obtain ⟨-, ports, body⟩ := Module.mapBodyM_eq_ok_iff.mp typed
  refine ⟨ports ▸ (free m found).ports, fun body' present => ?_⟩
  rw [Option.mem_def.mp present] at body
  generalize source : m.body? = body? at body
  cases body with
  | some typed =>
    simp only [bind_eq_ok_iff, pure_eq_ok_iff] at typed
    obtain ⟨result, typed, rfl⟩ := typed
    have declared := ((free m found).body _ source).mono fun _ here => here.declared
    exact (Stmt.infersFree _ _ _ (Scope.Free.ofPorts (free m found).ports) declared typed).1

end IntervalHdl
