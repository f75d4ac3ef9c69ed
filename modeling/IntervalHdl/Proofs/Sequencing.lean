import IntervalHdl.Circuit

/-!
# Relations that sequencing keeps

Two programs that go through a circuit in the same way are compared step by step. A relation between
computations that sequencing keeps is kept by every function that replaces parts of a circuit, so a
comparison of two passes is left with what they do at a node.
-/

namespace IntervalHdl
set_option autoImplicit false

/-- The relation holds of computations that only return a value, and of sequences whose steps are in
it. -/
structure Sequential {m n : Type → Type} [Monad m] [Monad n]
    (R : (α : Type) → m α → n α → Prop) : Prop where
  pure {α : Type} (a : α) : R α (Pure.pure a) (Pure.pure a)
  bind {α β : Type} {x : m α} {y : n α} {f : α → m β} {g : α → n β} (first : R α x y)
    (next : ∀ a, R β (f a) (g a)) : R β (x >>= f) (y >>= g)

namespace Sequential

variable {m n : Type → Type} [Monad m] [Monad n] {R : (α : Type) → m α → n α → Prop}
  {α β : Type}

theorem bindPure (kept : Sequential R) {x : m α} {y : n α} {f : α → β} (first : R α x y) :
    R β (x >>= fun a => Pure.pure (f a)) (y >>= fun a => Pure.pure (f a)) :=
  kept.bind first fun a => kept.pure (f a)

/-- Passes over the expressions of a statement are related where their steps are. -/
theorem mapExprsM (kept : Sequential R) {f : Expr → m Expr} {g : Expr → n Expr}
    (step : ∀ e, R Expr (f e) (g e)) (s : Stmt) : R Stmt (s.mapExprsM f) (s.mapExprsM g) := by
  cases s with
  | wire | block | skip => exact kept.pure _
  | node name value => exact kept.bindPure (step value)
  | connect loc value => exact kept.bind (step loc) fun loc => kept.bindPure (step value)
  | partialConnect loc value => exact kept.bind (step loc) fun loc => kept.bindPure (step value)
  | when cond conseq alt => exact kept.bindPure (step cond)
  | invalid loc => exact kept.bindPure (step loc)
  | reg name ty clock reset =>
    cases reset with
    | none => exact kept.bindPure (step clock)
    | some reset =>
      exact kept.bind (step clock) fun clock => kept.bind (step reset.signal) fun signal =>
        kept.bindPure (step reset.init)

/-- Passes over the body of a module are related where their steps are. -/
theorem mapBodyM (kept : Sequential R) {f : Stmt → m Stmt} {g : Stmt → n Stmt}
    (step : ∀ s, R Stmt (f s) (g s)) (d : Module) : R Module (d.mapBodyM f) (d.mapBodyM g) := by
  unfold Module.mapBodyM
  split
  · exact kept.bindPure (step _)
  · exact kept.pure d

variable [LawfulMonad m] [LawfulMonad n]

theorem map (kept : Sequential R) {x : m α} {y : n α} (f : α → β) (first : R α x y) :
    R β (f <$> x) (f <$> y) := by
  rw [map_eq_pure_bind, map_eq_pure_bind]
  exact kept.bindPure first

/-- Passes over a list are related where their steps on its members are. -/
theorem mapM (kept : Sequential R) {f : α → m β} {g : α → n β} {as : List α}
    (each : ∀ a ∈ as, R β (f a) (g a)) : R (List β) (as.mapM f) (as.mapM g) := by
  induction as with
  | nil => exact kept.pure []
  | cons a as ih =>
    rw [List.mapM_cons, List.mapM_cons]
    refine kept.bind (each a List.mem_cons_self) fun b => ?_
    exact kept.bindPure (ih fun a found => each a (List.mem_cons_of_mem _ found))

/-- Passes that rebuild an expression from below are related where their steps at a node are. -/
theorem replaceUpM (kept : Sequential R) {f : Expr → m Expr} {g : Expr → n Expr}
    (step : ∀ e, R Expr (f e) (g e)) (e : Expr) :
    R Expr (e.replaceUpM f) (e.replaceUpM g) := by
  induction e with
  | ref | uint | sint => exact step _
  | field parent name ty ih => exact kept.bind ih fun parent => step _
  | index parent position ty ih => exact kept.bind ih fun parent => step _
  | prim op args consts ty each =>
    rw [Expr.replaceUpM, Expr.replaceUpM, Expr.replaceAllUpM_eq_mapM, Expr.replaceAllUpM_eq_mapM]
    exact kept.bind (kept.mapM each) fun args => step _
  | mux cond tval fval ty condIh tvalIh fvalIh =>
    exact kept.bind condIh fun cond => kept.bind tvalIh fun tval =>
      kept.bind fvalIh fun fval => step _

/-- Passes over the ports of a module are related where their steps are. -/
theorem mapPortsM (kept : Sequential R) {f : Port → m Port} {g : Port → n Port}
    (step : ∀ p, R Port (f p) (g p)) (d : Module) : R Module (d.mapPortsM f) (d.mapPortsM g) :=
  kept.bindPure (kept.mapM fun p _ => step p)

/-- Passes over the modules of a circuit are related where their steps are. -/
theorem mapModulesM (kept : Sequential R) {f : Module → m Module} {g : Module → n Module}
    (step : ∀ d, R Module (f d) (g d)) (c : Circuit) :
    R Circuit (c.mapModulesM f) (c.mapModulesM g) :=
  kept.bindPure (kept.mapM fun d _ => step d)

end Sequential

end IntervalHdl
