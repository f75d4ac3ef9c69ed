import IntervalHdl.Proofs.Typing.Bodies

/-!
# What type inference depends on

The skeleton of an expression is what remains when the recorded types are dropped; that of a
statement, a module or a circuit keeps the declared types, too. Inference reads nothing but the
skeleton, on success and on failure, and its result has the skeleton it was given. So what it
returns is a fixpoint (`Circuit.infer_of_skeleton_eq`).
-/

namespace IntervalHdl
set_option autoImplicit false

namespace Expr

mutual

/-- The expression without the recorded types. Literals have none. -/
def skeleton : Expr → Expr
  | .ref name _ => .ref name .unknown
  | .field parent name _ => .field parent.skeleton name .unknown
  | .index parent position _ => .index parent.skeleton position .unknown
  | .uint value width => .uint value width
  | .sint value width => .sint value width
  | .prim op args consts _ => .prim op (skeletons args) consts .unknown
  | .mux cond tval fval _ => .mux cond.skeleton tval.skeleton fval.skeleton .unknown

/-- The operands without the recorded types. -/
def skeletons : List Expr → List Expr
  | [] => []
  | e :: es => e.skeleton :: skeletons es

end

theorem skeletons_eq_of_forall₂ {es es' : List Expr}
    (each : List.Forall₂ (fun e e' => e'.skeleton = e.skeleton) es es') :
    skeletons es' = skeletons es := by
  induction each with
  | nil => rfl
  | cons head _ ih => simp only [skeletons, head, ih]

/-- Recorded types have no influence on inference. -/
theorem infer_skeleton (s : Scope) (e : Expr) : e.skeleton.infer s = e.infer s := by
  unfold infer
  induction e with
  | ref | uint | sint => simp only [skeleton, replaceUpM, inferNode]
  | field parent name ty ih => simp only [skeleton, replaceUpM, inferNode, ih]
  | index parent position ty ih => simp only [skeleton, replaceUpM, inferNode, ih]
  | prim op args consts ty ih =>
    have operands : replaceAllUpM (inferNode s) (skeletons args)
        = replaceAllUpM (inferNode s) args := by
      induction args with
      | nil => rfl
      | cons arg args rest =>
        have tail := rest fun arg found => ih arg (List.mem_cons_of_mem _ found)
        simp only [skeletons, replaceAllUpM, ih arg List.mem_cons_self, tail]
    simp only [skeleton, replaceUpM, inferNode, operands]
  | mux cond tval fval ty condIh tvalIh fvalIh =>
    simp only [skeleton, replaceUpM, inferNode, condIh, tvalIh, fvalIh]

/-- A new type leaves the skeleton of an expression. -/
theorem skeleton_retyped (ty : Ty) (e : Expr) : (e.retyped ty).skeleton = e.skeleton := by
  cases e <;> simp only [retyped, skeleton]

/-- Inference changes recorded types only. -/
theorem skeleton_of_infer {s : Scope} {e e' : Expr} (typed : e.infer s = .ok e') :
    e'.skeleton = e.skeleton := by
  refine replaceUpM_rel (R := fun e e' => e'.skeleton = e.skeleton)
    (fun e node e' rebuilt done => ?_) typed
  obtain ⟨ty, rfl⟩ := retyped_of_inferNode done
  rw [skeleton_retyped]
  cases rebuilt with
  | ref | uint | sint => rfl
  | field _ _ parent | index _ _ parent => simp only [skeleton, parent]
  | prim _ _ _ args => simp only [skeleton, skeletons_eq_of_forall₂ args]
  | mux _ cond tval fval => simp only [skeleton, cond, tval, fval]

end Expr

namespace Stmt

mutual

/-- The statement without the recorded types of its expressions. Declared types stay. -/
def skeleton : Stmt → Stmt
  | .wire name ty => .wire name ty
  | .reg name ty clock none => .reg name ty clock.skeleton none
  | .reg name ty clock (some reset) =>
    .reg name ty clock.skeleton (some ⟨reset.signal.skeleton, reset.init.skeleton⟩)
  | .node name value => .node name value.skeleton
  | .connect loc value => .connect loc.skeleton value.skeleton
  | .partialConnect loc value => .partialConnect loc.skeleton value.skeleton
  | .when cond conseq alt => .when cond.skeleton conseq.skeleton alt.skeleton
  | .block stmts => .block (skeletons stmts)
  | .invalid loc => .invalid loc.skeleton
  | .skip => .skip

/-- Statements without the recorded types of their expressions. -/
def skeletons : List Stmt → List Stmt
  | [] => []
  | stmt :: stmts => stmt.skeleton :: skeletons stmts

end

theorem skeletons_eq_of_forall₂ {stmts stmts' : List Stmt}
    (each : List.Forall₂ (fun stmt stmt' => stmt'.skeleton = stmt.skeleton) stmts stmts') :
    skeletons stmts' = skeletons stmts := by
  induction each with
  | nil => rfl
  | cons head _ ih => simp only [skeletons, head, ih]

/-- Recorded types have no influence on the inference of a statement, nor on the scope behind it. -/
theorem infer_skeleton (s : Scope) (stmt : Stmt) : stmt.skeleton.infer s = stmt.infer s := by
  induction stmt generalizing s with
  | wire | skip => simp only [skeleton]
  | reg name ty clock reset =>
    cases reset <;> simp only [skeleton, infer, Expr.infer_skeleton]
  | node | connect | partialConnect | invalid => simp only [skeleton, infer, Expr.infer_skeleton]
  | when cond conseq alt conseqIh altIh =>
    simp only [skeleton, infer, Expr.infer_skeleton, conseqIh, altIh]
  | block stmts ih =>
    -- the scope runs through the statements, so the list is taken in every scope
    have each : ∀ s, inferAll s (skeletons stmts) = inferAll s stmts := by
      induction stmts with
      | nil => exact fun _ => rfl
      | cons stmt stmts rest =>
        have tail := rest fun stmt found => ih stmt (List.mem_cons_of_mem _ found)
        intro s
        simp only [skeletons, inferAll, ih stmt List.mem_cons_self, tail]
    simp only [skeleton, infer, each]

/-- A translation that keeps declared types and the skeletons of expressions keeps those of
statements. -/
theorem Translated.skeleton_eq {R : Scope → Expr → Expr → Prop}
    (each : ∀ s e e', R s e e' → e'.skeleton = e.skeleton) {s behind : Scope} {stmt stmt' : Stmt}
    (done : Stmt.Translated Eq R s stmt stmt' behind) : stmt'.skeleton = stmt.skeleton := by
  induction stmt generalizing s stmt' behind with
  | wire | skip =>
    cases done
    simp only [skeleton, *]
  | reg =>
    cases done with
    | reg _ same clock => simp only [skeleton, same, each _ _ _ clock]
    | regReset _ same clock signal init =>
      simp only [skeleton, same, each _ _ _ clock, each _ _ _ signal, each _ _ _ init]
  | node =>
    cases done with
    | node _ value => simp only [skeleton, each _ _ _ value]
  | connect =>
    cases done with
    | connect loc value => simp only [skeleton, each _ _ _ loc, each _ _ _ value]
  | partialConnect =>
    cases done with
    | partialConnect loc value => simp only [skeleton, each _ _ _ loc, each _ _ _ value]
  | when cond conseq alt conseqIh altIh =>
    cases done with
    | when cond conseq alt => simp only [skeleton, each _ _ _ cond, conseqIh conseq, altIh alt]
  | block stmts ih =>
    cases done with
    | block chain =>
      have inner := (chain.imp_of_mem
        (Q := fun _ stmt stmt' _ => stmt'.skeleton = stmt.skeleton)
        fun stmt found _ _ _ done => ih stmt found done).forall₂
      simp only [skeleton, skeletons_eq_of_forall₂ inner]
  | invalid =>
    cases done with
    | invalid loc => simp only [skeleton, each _ _ _ loc]

end Stmt

/-- The module without the recorded types of its body. -/
def Module.skeleton (m : Module) : Module := { m with body? := m.body?.map Stmt.skeleton }

/-- The circuit without the recorded types of its expressions: what its declarations, operators,
constants, literals and statements are. -/
def Circuit.skeleton (c : Circuit) : Circuit := { c with modules := c.modules.map Module.skeleton }

/-- Inference on a module does not look at recorded types. -/
theorem Module.infer_skeleton (m : Module) : m.skeleton.infer = m.infer := by
  obtain ⟨name, ports, body?⟩ := m
  cases body? with
  | none => rfl
  | some body =>
    simp only [infer, mapBodyM, skeleton, Option.map_some, Stmt.infer_skeleton]

/-- Inference on a module changes recorded types alone. -/
theorem Module.skeleton_of_infer {m m' : Module} (typed : m.infer = .ok m') :
    m'.skeleton = m.skeleton := by
  obtain ⟨name_eq, ports_eq, body⟩ := Module.mapBodyM_eq_ok_iff.mp typed
  have body_eq : m'.body?.map Stmt.skeleton = m.body?.map Stmt.skeleton := by
    generalize m.body? = before, m'.body? = after at body ⊢
    cases body with
    | none => rfl
    | some done =>
      simp only [bind_eq_ok_iff, pure_eq_ok_iff, Prod.exists] at done
      obtain ⟨_, _, done, rfl⟩ := done
      have same := (Stmt.translated_of_infer done).skeleton_eq fun _ _ _ => Expr.skeleton_of_infer
      simp only [Option.map_some, same]
  simp only [skeleton, name_eq, ports_eq, body_eq]

namespace Circuit

/-- Inference on a circuit does not look at recorded types. -/
theorem infer_skeleton (c : Circuit) : c.skeleton.infer = c.infer := by
  have each : (c.modules.map Module.skeleton).mapM Module.infer = c.modules.mapM Module.infer := by
    rw [List.mapM_map]
    exact mapM_congr fun m _ => Module.infer_skeleton m
  simp only [infer, mapModulesM, skeleton, each]

/-- Inference on a circuit changes recorded types alone. -/
theorem skeleton_of_infer {c d : Circuit} (typed : c.infer = .ok d) : d.skeleton = c.skeleton := by
  obtain ⟨main_eq, modules⟩ := mapModulesM_eq_ok_iff.mp typed
  have each : d.modules.map Module.skeleton = c.modules.map Module.skeleton := by
    generalize c.modules = before, d.modules = after at modules ⊢
    induction modules with
    | nil => rfl
    | cons head _ ih => simp only [List.map_cons, Module.skeleton_of_infer head, ih]
  simp only [skeleton, main_eq, each]

/-- Circuits of one skeleton are typed alike, with one result or one cause of failure. A typed
circuit has the skeleton it came from, and typing it again changes nothing. -/
theorem infer_of_skeleton_eq {c c' : Circuit} (same : c.skeleton = c'.skeleton) :
    c.infer = c'.infer ∧ ∀ d, c.infer = .ok d → d.skeleton = c.skeleton ∧ d.infer = .ok d := by
  have alike {c c' : Circuit} (same : c.skeleton = c'.skeleton) : c.infer = c'.infer := by
    rw [← infer_skeleton c, same, infer_skeleton c']
  refine ⟨alike same, fun d typed => ?_⟩
  have kept := skeleton_of_infer typed
  exact ⟨kept, (alike kept).trans typed⟩

/-- A node and an output that doubles it, every expression recorded at one type. -/
def doubling (ty : Ty) : Circuit :=
  let three : Ty := .uint (.known (.ofNat 3))
  ⟨"Top", [⟨"Top", [⟨"a", .input, three⟩, ⟨"o", .output, three⟩],
    some (.block [
      .node "t" (.prim .add [.ref "a" ty, .uint 1 (.known (.ofNat 1))] [] ty),
      .when (.prim .lt [.ref "t" ty, .ref "a" ty] [] ty)
        (.connect (.ref "o" ty) (.prim .shl [.ref "t" ty] [1] ty)) .skip])⟩]⟩

/-- The same circuit at the inferred types. -/
def doublingTyped : Circuit :=
  let bits (n : Nat) : Ty := .uint (.known (.ofNat n))
  ⟨"Top", [⟨"Top", [⟨"a", .input, bits 3⟩, ⟨"o", .output, bits 3⟩],
    some (.block [
      .node "t" (.prim .add [.ref "a" (bits 3), .uint 1 (.known (.ofNat 1))] [] (bits 4)),
      .when (.prim .lt [.ref "t" (bits 4), .ref "a" (bits 3)] [] (bits 1))
        (.connect (.ref "o" (bits 3)) (.prim .shl [.ref "t" (bits 4)] [1] (bits 5))) .skip])⟩]⟩

/-- The doubling circuit is typed alike from two sets of recorded types. -/
theorem infer_of_skeleton_eq_doubling :
    (doubling .clock).skeleton = (doubling .unknown).skeleton ∧
      (doubling .clock).infer = (doubling .unknown).infer ∧
      (doubling .clock).infer = .ok doublingTyped ∧ doublingTyped.infer = .ok doublingTyped := by
  have same : (doubling .clock).skeleton = (doubling .unknown).skeleton := rfl
  have typed : (doubling .clock).infer = .ok doublingTyped := rfl
  obtain ⟨alike, fixpoint⟩ := infer_of_skeleton_eq same
  exact ⟨same, alike, typed, (fixpoint _ typed).2⟩

/-- A cause of failure speaks of inferred types, not of recorded ones. -/
example (ty : Ty) :
    let ports : List Port := [⟨"a", .input, .clock⟩]
    let body : Stmt := .node "t" (.prim .neg [.ref "a" ty] [] ty)
    Module.infer ⟨"M", ports, some body⟩ = .error (.notInteger .neg .clock) := rfl

end Circuit

end IntervalHdl
