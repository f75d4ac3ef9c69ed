import IntervalHdl.Proofs.Typing.Results

/-!
# Statements and what they are translated to

A pass that keeps the statements relates each to its translation: declared types by one relation,
expressions by another, which may look at the scope that the translated declarations make. Type
inference is such a pass (`Stmt.translated_of_infer`). What holds of every translated expression
holds throughout a translated circuit (`Circuit.Translated.everywhere`).
-/

namespace IntervalHdl
set_option autoImplicit false

/-- The second field is the first at a related type. -/
inductive Field.Related (T : Ty → Ty → Prop) : Field Ty → Field Ty → Prop where
  | mk {ty ty' : Ty} (name : String) (flip : Bool) (inner : T ty ty') :
    Related T ⟨name, flip, ty⟩ ⟨name, flip, ty'⟩

/-- Statements in order, each translated in the scope that the one before leaves. -/
inductive Threads (Q : Scope → Stmt → Stmt → Scope → Prop) :
    Scope → List Stmt → List Stmt → Scope → Prop where
  | nil (s : Scope) : Threads Q s [] [] s
  | cons {s between behind : Scope} {stmt stmt' : Stmt} {stmts stmts' : List Stmt} :
    Q s stmt stmt' between → Threads Q between stmts stmts' behind →
      Threads Q s (stmt :: stmts) (stmt' :: stmts') behind

/-- A chain through scopes may be weakened by a fact about its members. -/
theorem Threads.imp_of_mem {P Q : Scope → Stmt → Stmt → Scope → Prop} {s behind : Scope}
    {stmts stmts' : List Stmt}
    (step : ∀ stmt ∈ stmts, ∀ s stmt' behind, P s stmt stmt' behind → Q s stmt stmt' behind)
    (chain : Threads P s stmts stmts' behind) : Threads Q s stmts stmts' behind := by
  induction chain with
  | nil s => exact .nil s
  | cons head _ ih =>
    exact .cons (step _ List.mem_cons_self _ _ _ head)
      (ih fun stmt found => step stmt (List.mem_cons_of_mem _ found))

/-- A chain that does not look at scopes relates its lists member by member. -/
theorem Threads.forall₂ {P : Stmt → Stmt → Prop} {s behind : Scope} {stmts stmts' : List Stmt}
    (chain : Threads (fun _ stmt stmt' _ => P stmt stmt') s stmts stmts' behind) :
    List.Forall₂ P stmts stmts' := by
  induction chain with
  | nil => exact .nil
  | cons head _ ih => exact .cons head ih

section Translations

variable (T : Ty → Ty → Prop) (R : Scope → Expr → Expr → Prop)

/-- The second statement is the first with related types and expressions in it. The scopes are the
one it stands in and the one behind it. -/
inductive Stmt.Translated : Scope → Stmt → Stmt → Scope → Prop where
  | wire {s : Scope} {ty ty' : Ty} (name : String) :
    T ty ty' → Translated s (.wire name ty) (.wire name ty') (s.declare name ty')
  | reg {s : Scope} {ty ty' : Ty} {clock clock' : Expr} (name : String) :
    T ty ty' → R (s.declare name ty') clock clock' →
      Translated s (.reg name ty clock none) (.reg name ty' clock' none) (s.declare name ty')
  | regReset {s : Scope} {ty ty' : Ty} {clock clock' signal signal' init init' : Expr}
      (name : String) :
    T ty ty' → R (s.declare name ty') clock clock' → R (s.declare name ty') signal signal' →
      R (s.declare name ty') init init' →
      Translated s (.reg name ty clock (some ⟨signal, init⟩))
        (.reg name ty' clock' (some ⟨signal', init'⟩)) (s.declare name ty')
  | node {s : Scope} {value value' : Expr} (name : String) :
    R s value value' →
      Translated s (.node name value) (.node name value') (s.declare name value'.ty)
  | connect {s : Scope} {loc loc' value value' : Expr} :
    R s loc loc' → R s value value' →
      Translated s (.connect loc value) (.connect loc' value') s
  | partialConnect {s : Scope} {loc loc' value value' : Expr} :
    R s loc loc' → R s value value' →
      Translated s (.partialConnect loc value) (.partialConnect loc' value') s
  | when {s between behind : Scope} {cond cond' : Expr} {conseq conseq' alt alt' : Stmt} :
    R s cond cond' → Translated s conseq conseq' between → Translated between alt alt' behind →
      Translated s (.when cond conseq alt) (.when cond' conseq' alt') behind
  | block {s behind : Scope} {stmts stmts' : List Stmt} :
    Threads Translated s stmts stmts' behind →
      Translated s (.block stmts) (.block stmts') behind
  | invalid {s : Scope} {loc loc' : Expr} :
    R s loc loc' → Translated s (.invalid loc) (.invalid loc') s
  | skip (s : Scope) : Translated s .skip .skip s

/-- The second module is the first with related types and expressions in it. -/
structure Module.Translated (m m' : Module) : Prop where
  name_eq : m'.name = m.name
  ports : List.Forall₂
    (fun p p' => p'.name = p.name ∧ p'.direction = p.direction ∧ T p.ty p'.ty) m.ports m'.ports
  body : Option.Rel (fun stmt stmt' =>
    ∃ behind, Stmt.Translated T R (Scope.ofPorts m'.ports) stmt stmt' behind) m.body? m'.body?

/-- The second circuit is the first with related types and expressions in it. -/
structure Circuit.Translated (c c' : Circuit) : Prop where
  main_eq : c'.main = c.main
  modules : List.Forall₂ (Module.Translated T R) c.modules c'.modules

end Translations

section Keeping

variable {T : Ty → Ty → Prop} {R : Scope → Expr → Expr → Prop} {P : Expr → Prop}

/-- What a translation gives every expression, it gives those of a statement, at any nesting. -/
theorem Stmt.Translated.everywhere (each : ∀ s e e', R s e e' → P e') {s behind : Scope}
    {stmt stmt' : Stmt} (done : Stmt.Translated T R s stmt stmt' behind) :
    stmt'.Everywhere fun inner => ∀ e ∈ inner.exprs, P e := by
  have leaf {stmt : Stmt} (here : ∀ e ∈ stmt.exprs, P e) (inner : stmt.stmts = []) :
      stmt.Everywhere fun inner => ∀ e ∈ inner.exprs, P e := by
    refine ⟨here, fun stmt found => ?_⟩
    rw [inner] at found
    cases found
  induction stmt generalizing s stmt' behind with
  | wire =>
    cases done
    exact leaf nofun rfl
  | reg =>
    cases done with
    | reg _ _ clock => exact leaf (List.forall_mem_singleton.mpr (each _ _ _ clock)) rfl
    | regReset _ _ clock signal init =>
      refine leaf ?_ rfl
      simp only [exprs, List.forall_mem_cons]
      exact ⟨each _ _ _ clock, each _ _ _ signal, each _ _ _ init, nofun⟩
  | node =>
    cases done with
    | node _ value => exact leaf (List.forall_mem_singleton.mpr (each _ _ _ value)) rfl
  | connect =>
    cases done with
    | connect loc value =>
      refine leaf ?_ rfl
      simp only [exprs, List.forall_mem_cons]
      exact ⟨each _ _ _ loc, each _ _ _ value, nofun⟩
  | partialConnect =>
    cases done with
    | partialConnect loc value =>
      refine leaf ?_ rfl
      simp only [exprs, List.forall_mem_cons]
      exact ⟨each _ _ _ loc, each _ _ _ value, nofun⟩
  | when cond conseq alt conseqIh altIh =>
    cases done with
    | when cond conseq alt =>
      refine ⟨List.forall_mem_singleton.mpr (each _ _ _ cond), ?_⟩
      simp only [stmts, List.forall_mem_cons]
      exact ⟨conseqIh conseq, altIh alt, nofun⟩
  | block stmts ih =>
    cases done with
    | block chain =>
      refine ⟨nofun, ?_⟩
      have inner := (chain.imp_of_mem
        (Q := fun _ _ stmt' _ => stmt'.Everywhere fun inner => ∀ e ∈ inner.exprs, P e)
        fun stmt found _ _ _ done => ih stmt found done).forall₂
      exact forall_mem_of_forall₂ inner fun _ _ _ all => all
  | invalid =>
    cases done with
    | invalid loc => exact leaf (List.forall_mem_singleton.mpr (each _ _ _ loc)) rfl
  | skip =>
    cases done
    exact leaf nofun rfl

/-- What every translated expression has holds at every position of the translated circuit. -/
theorem Circuit.Translated.everywhere (each : ∀ s e e', R s e e' → P e') {c c' : Circuit}
    (done : Circuit.Translated T R c c') : c'.EveryStmt fun stmt => ∀ e ∈ stmt.exprs, P e := by
  refine forall_mem_of_forall₂ done.modules fun m _ m' translated => ?_
  intro body' found
  have body := translated.body
  rw [Option.mem_def.mp found] at body
  cases hbody : m.body? with
  | none =>
    rw [hbody] at body
    cases body
  | some stmt =>
    rw [hbody] at body
    cases body with
    | some done =>
      obtain ⟨_, done⟩ := done
      exact done.everywhere each

end Keeping

/-! ## Type inference as a translation -/

/-- Inference keeps the statements and what they declare. -/
theorem Stmt.translated_of_infer {s behind : Scope} {stmt stmt' : Stmt}
    (typed : stmt.infer s = .ok (stmt', behind)) :
    Stmt.Translated Eq (fun s e e' => e.infer s = .ok e') s stmt stmt' behind := by
  induction stmt generalizing s stmt' behind with
  | wire name ty =>
    cases typed
    exact .wire name rfl
  | reg name ty clock reset =>
    cases reset with
    | none =>
      simp only [infer, bind_eq_ok_iff, pure_eq_ok_iff, Prod.mk.injEq] at typed
      obtain ⟨clock', clockTyped, rfl, rfl⟩ := typed
      exact .reg name rfl clockTyped
    | some reset =>
      simp only [infer, bind_eq_ok_iff, pure_eq_ok_iff, Prod.mk.injEq] at typed
      obtain ⟨clock', clockTyped, signal', signalTyped, init', initTyped, rfl, rfl⟩ := typed
      exact .regReset name rfl clockTyped signalTyped initTyped
  | node name =>
    simp only [infer, bind_eq_ok_iff, pure_eq_ok_iff, Prod.mk.injEq] at typed
    obtain ⟨value', valueTyped, rfl, rfl⟩ := typed
    exact .node name valueTyped
  | connect =>
    simp only [infer, bind_eq_ok_iff, pure_eq_ok_iff, Prod.mk.injEq] at typed
    obtain ⟨loc', locTyped, value', valueTyped, rfl, rfl⟩ := typed
    exact .connect locTyped valueTyped
  | partialConnect =>
    simp only [infer, bind_eq_ok_iff, pure_eq_ok_iff, Prod.mk.injEq] at typed
    obtain ⟨loc', locTyped, value', valueTyped, rfl, rfl⟩ := typed
    exact .partialConnect locTyped valueTyped
  | when cond conseq alt conseqIh altIh =>
    simp only [infer, bind_eq_ok_iff, pure_eq_ok_iff, Prod.mk.injEq, Prod.exists] at typed
    obtain ⟨cond', condTyped, conseq', _, conseqTyped, alt', _, altTyped, rfl, rfl⟩ := typed
    exact .when condTyped (conseqIh conseqTyped) (altIh altTyped)
  | block stmts ih =>
    simp only [infer, bind_eq_ok_iff, pure_eq_ok_iff, Prod.mk.injEq, Prod.exists] at typed
    obtain ⟨stmts', _, stmtsTyped, rfl, rfl⟩ := typed
    refine .block ?_
    induction stmts generalizing s stmts' with
    | nil =>
      cases stmtsTyped
      exact .nil _
    | cons stmt stmts rest =>
      simp only [inferAll, bind_eq_ok_iff, pure_eq_ok_iff, Prod.mk.injEq, Prod.exists] at stmtsTyped
      obtain ⟨stmt', _, head, stmts', _, tail, rfl, rfl⟩ := stmtsTyped
      exact .cons (ih stmt List.mem_cons_self head)
        (rest (fun stmt found _ _ _ => ih stmt (List.mem_cons_of_mem _ found)) stmts' tail)
  | invalid =>
    simp only [infer, bind_eq_ok_iff, pure_eq_ok_iff, Prod.mk.injEq] at typed
    obtain ⟨loc', locTyped, rfl, rfl⟩ := typed
    exact .invalid locTyped
  | skip =>
    cases typed
    exact .skip s

/-- Inference translates a module by typing each expression in the scope where it stands. -/
theorem Module.translated_of_infer {m m' : Module} (typed : m.infer = .ok m') :
    Module.Translated Eq (fun s e e' => e.infer s = .ok e') m m' := by
  obtain ⟨name_eq, ports_eq, body⟩ := Module.mapBodyM_eq_ok_iff.mp typed
  refine ⟨name_eq, ?_, ?_⟩
  · rw [ports_eq]
    exact List.forall₂_same.mpr fun _ _ => ⟨rfl, rfl, rfl⟩
  · rw [ports_eq]
    generalize m.body? = before, m'.body? = after at body ⊢
    cases body with
    | none => exact .none
    | some done =>
      simp only [bind_eq_ok_iff, pure_eq_ok_iff, Prod.exists] at done
      obtain ⟨_, behind, done, rfl⟩ := done
      exact .some ⟨behind, Stmt.translated_of_infer done⟩

/-- Inference translates a circuit by typing each expression in the scope where it stands. -/
theorem Circuit.translated_of_infer {c d : Circuit} (typed : c.infer = .ok d) :
    Circuit.Translated Eq (fun s e e' => e.infer s = .ok e') c d := by
  obtain ⟨main_eq, modules⟩ := Circuit.mapModulesM_eq_ok_iff.mp typed
  exact ⟨main_eq, modules.imp fun _ _ => Module.translated_of_infer⟩

end IntervalHdl
