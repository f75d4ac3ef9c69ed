import IntervalHdl.Proofs.Removal.Occurrences

/-!
# A removal from one body

What the stages of a removal make of a statement in a scope (`Stmt.Removed`), and of the statements
of a block one after the other. A removal from a circuit of one module succeeds exactly when its
ports are lowered and its body passes (`Circuit.removeIntervals_ofBody_iff`). So whether a circuit
is accepted with one more node at the end is a question about the value of the node alone
(`Circuit.removeIntervals_lastNode_iff`).
-/

namespace IntervalHdl
set_option autoImplicit false

open Reported

/-- The last of several statements is translated in the scope behind the others. -/
theorem threads_concat_iff {Q : Scope → Stmt → Stmt → Scope → Prop} {s behind : Scope}
    {stmts stmts' : List Stmt} {last : Stmt} :
    Threads Q s (stmts ++ [last]) stmts' behind ↔
      ∃ before between last', Threads Q s stmts before between ∧ Q between last last' behind ∧
        stmts' = before ++ [last'] := by
  constructor
  · intro chain
    induction stmts generalizing s stmts' with
    | nil =>
      obtain ⟨_, ⟨⟩⟩ | ⟨head, ⟨⟩⟩ := chain
      exact ⟨[], s, _, .nil s, head, rfl⟩
    | cons stmt stmts ih =>
      cases chain with
      | cons head chain =>
        obtain ⟨before, between, last', init, done, rfl⟩ := ih chain
        exact ⟨_, between, last', .cons head init, done, rfl⟩
  · rintro ⟨before, between, last', chain, done, rfl⟩
    induction chain with
    | nil s => exact .cons done (.nil behind)
    | cons head _ ih => exact .cons head (ih done)

/-- Statements have one translation if each of them has. -/
theorem Threads.unique {Q : Scope → Stmt → Stmt → Scope → Prop} {s behind behind' : Scope}
    {stmts stmts' stmts'' : List Stmt}
    (step : ∀ {s stmt t t' b b'}, Q s stmt t b → Q s stmt t' b' → t = t' ∧ b = b')
    (chain : Threads Q s stmts stmts' behind) (chain' : Threads Q s stmts stmts'' behind') :
    stmts' = stmts'' ∧ behind = behind' := by
  induction chain generalizing stmts'' with
  | nil =>
    cases chain'
    exact ⟨rfl, rfl⟩
  | cons head _ ih =>
    cases chain' with
    | cons head' rest' =>
      obtain ⟨rfl, rfl⟩ := step head head'
      obtain ⟨rfl, rfl⟩ := ih rest'
      exact ⟨rfl, rfl⟩

namespace Stmt

/-- What the stages of a removal make of a statement in a scope, and the scope behind it. -/
def Removed (s : Scope) (stmt stmt' : Stmt) (behind : Scope) : Prop :=
  ∃ a l, stmt.align.outcome = .ok a ∧ (a.lower true).outcome = .ok l ∧
    l.infer s = .ok (stmt', behind)

theorem Removed.unique {s behind behind' : Scope} {stmt t t' : Stmt}
    (done : Removed s stmt t behind) (done' : Removed s stmt t' behind') :
    t = t' ∧ behind = behind' := by
  obtain ⟨a, l, aligned, lowered, typed⟩ := done
  obtain ⟨a', l', aligned', lowered', typed'⟩ := done'
  cases aligned.symm.trans aligned'
  cases lowered.symm.trans lowered'
  cases typed.symm.trans typed'
  exact ⟨rfl, rfl⟩

theorem inferAll_eq_ok_iff {s behind : Scope} {stmts stmts' : List Stmt} :
    inferAll s stmts = .ok (stmts', behind) ↔
      Threads (fun s stmt stmt' behind => stmt.infer s = .ok (stmt', behind)) s stmts stmts'
        behind := by
  induction stmts generalizing s stmts' with
  | nil =>
    constructor
    · rintro ⟨⟩
      exact .nil _
    · rintro ⟨⟩
      rfl
  | cons stmt stmts ih =>
    simp only [inferAll, bind_eq_ok_iff, pure_eq_ok_iff, Prod.exists, Prod.mk.injEq]
    constructor
    · rintro ⟨stmt', between, head, stmts', _, rest, rfl, rfl⟩
      exact .cons head (ih.mp rest)
    · rintro (_ | ⟨head, rest⟩)
      exact ⟨_, _, head, _, _, ih.mpr rest, rfl, rfl⟩

/-- The stages work on a block statement by statement. -/
theorem removed_block_iff {s behind : Scope} {stmts : List Stmt} {stmt' : Stmt} :
    Removed s (.block stmts) stmt' behind ↔
      ∃ stmts', stmt' = .block stmts' ∧ Threads Removed s stmts stmts' behind := by
  simp only [Removed, align, alignAll_eq_mapM, bind_outcome_eq_ok_iff, mapM_outcome_eq_ok_iff,
    outcome_pure, Except.ok.injEq]
  constructor
  · rintro ⟨_, _, ⟨aligned, aligns, rfl⟩, lowerDone, typed⟩
    simp only [lower, lowerAll_eq_mapM, bind_outcome_eq_ok_iff, mapM_outcome_eq_ok_iff,
      outcome_pure, Except.ok.injEq] at lowerDone
    obtain ⟨lowered, lowers, rfl⟩ := lowerDone
    simp only [infer, bind_eq_ok_iff, pure_eq_ok_iff, Prod.exists, Prod.mk.injEq,
      inferAll_eq_ok_iff] at typed
    obtain ⟨stmts', _, chain, rfl, rfl⟩ := typed
    refine ⟨stmts', rfl, ?_⟩
    induction chain generalizing stmts aligned with
    | nil s =>
      cases lowers
      cases aligns
      exact .nil s
    | cons typed _ ih =>
      obtain ⟨a, aligneds, lowerDone, restLowers, rfl⟩ := List.forall₂_cons_right_iff.mp lowers
      obtain ⟨stmt, stmts, alignDone, restAligns, rfl⟩ := List.forall₂_cons_right_iff.mp aligns
      exact .cons ⟨a, _, alignDone, lowerDone, typed⟩ (ih aligneds restAligns restLowers)
  · rintro ⟨stmts', rfl, chain⟩
    obtain ⟨aligned, lowered, aligns, lowers, typed⟩ : ∃ aligned lowered,
        List.Forall₂ (fun x y => x.align.outcome = .ok y) stmts aligned ∧
        List.Forall₂ (fun x y => (x.lower true).outcome = .ok y) aligned lowered ∧
        inferAll s lowered = .ok (stmts', behind) := by
      simp only [inferAll_eq_ok_iff]
      induction chain with
      | nil s => exact ⟨[], [], .nil, .nil, .nil s⟩
      | cons head _ ih =>
        obtain ⟨a, l, alignDone, lowerDone, typed⟩ := head
        obtain ⟨aligned, lowered, aligns, lowers, chain⟩ := ih
        exact ⟨_, _, .cons alignDone aligns, .cons lowerDone lowers, .cons typed chain⟩
    refine ⟨_, .block lowered, ⟨aligned, aligns, rfl⟩, ?_, ?_⟩
    · simp only [lower, lowerAll_eq_mapM, bind_outcome_eq_ok_iff, mapM_outcome_eq_ok_iff]
      exact ⟨lowered, lowers, rfl⟩
    · simp only [infer, bind_eq_ok_iff]
      exact ⟨_, typed, rfl⟩

theorem removed_node_iff {s behind : Scope} {name : String} {value : Expr} {stmt' : Stmt} :
    Removed s (.node name value) stmt' behind ↔
      ∃ z, Expr.Removed true s value z ∧ stmt' = .node name z ∧ behind = s.declare name z.ty := by
  simp only [Removed, align, bind_outcome_eq_ok_iff, outcome_pure, Except.ok.injEq]
  constructor
  · rintro ⟨_, _, ⟨a, aligned, rfl⟩, lowerDone, typed⟩
    simp only [lower, bind_outcome_eq_ok_iff, outcome_pure, Except.ok.injEq] at lowerDone
    obtain ⟨l, lowered, rfl⟩ := lowerDone
    simp only [infer, bind_eq_ok_iff, pure_eq_ok_iff, Prod.mk.injEq] at typed
    obtain ⟨z, typed, rfl, rfl⟩ := typed
    exact ⟨z, ⟨a, l, aligned, lowered, typed⟩, rfl, rfl⟩
  · rintro ⟨z, ⟨a, l, aligned, lowered, typed⟩, rfl, rfl⟩
    refine ⟨_, .node name l, ⟨a, aligned, rfl⟩, ?_, ?_⟩
    · simp only [lower, bind_outcome_eq_ok_iff]
      exact ⟨l, lowered, rfl⟩
    · simp only [infer, bind_eq_ok_iff]
      exact ⟨z, typed, rfl⟩

end Stmt

namespace Circuit

/-- The circuit of one module with these ports and this body. -/
def ofBody (main name : String) (ports : List Port) (body : Stmt) : Circuit :=
  ⟨main, [⟨name, ports, some body⟩]⟩

/-- A removal from a circuit of one module lowers its ports, and makes of its body what the stages
make of it in the scope of the lowered ports. -/
theorem removeIntervals_ofBody_iff {main name : String} {ports : List Port} {body : Stmt}
    {d : Circuit} :
    (ofBody main name ports body).removeIntervals.outcome = .ok d ↔
      ∃ ports' body' behind, List.Forall₂ (fun p p' => p.lower.outcome = .ok p') ports ports' ∧
        body.Removed (Scope.ofPorts ports') body' behind ∧ d = ofBody main name ports' body' := by
  rw [removeIntervals_eq_ok_iff]
  constructor
  · rintro ⟨⟨_, _⟩, ⟨_, _⟩, alignDone, lowerDone, typed⟩
    obtain ⟨_, _⟩ := d
    obtain ⟨rfl, aligns⟩ := align_eq_ok_iff.mp alignDone
    obtain ⟨rfl, lowers⟩ := lower_eq_ok_iff.mp lowerDone
    obtain ⟨rfl, types⟩ := mapModulesM_eq_ok_iff.mp typed
    obtain ⟨⟨_, _, _⟩, ⟨rfl, rfl, bodyAligned⟩, rfl⟩ := single_of_forall₂ aligns
    obtain ⟨⟨_, _, _⟩, moduleLowered, rfl⟩ := single_of_forall₂ lowers
    obtain ⟨⟨_, _, _⟩, moduleTyped, rfl⟩ := single_of_forall₂ types
    obtain ⟨rfl, portsDone, bodyLowered⟩ := Module.lower_eq_ok_iff.mp moduleLowered
    obtain ⟨rfl, rfl, bodyTyped⟩ := Module.mapBodyM_eq_ok_iff.mp moduleTyped
    cases bodyAligned with
    | some bodyAligned =>
      cases bodyLowered with
      | some bodyLowered =>
        cases bodyTyped with
        | some bodyTyped =>
          simp only [bind_eq_ok_iff, pure_eq_ok_iff, Prod.exists] at bodyTyped
          obtain ⟨body', behind, bodyTyped, rfl⟩ := bodyTyped
          exact ⟨_, body', behind, portsDone, ⟨_, _, bodyAligned, bodyLowered, bodyTyped⟩, rfl⟩
  · rintro ⟨ports', body', behind, portsDone, ⟨a, l, alignDone, lowerDone, typed⟩, rfl⟩
    refine ⟨ofBody main name ports a, ofBody main name ports' l, ?_, ?_, ?_⟩
    · exact align_eq_ok_iff.mpr ⟨rfl, .cons ⟨rfl, rfl, .some alignDone⟩ .nil⟩
    · exact lower_eq_ok_iff.mpr
        ⟨rfl, .cons (Module.lower_eq_ok_iff.mpr ⟨rfl, portsDone, .some lowerDone⟩) .nil⟩
    · refine mapModulesM_eq_ok_iff.mpr
        ⟨rfl, .cons (Module.mapBodyM_eq_ok_iff.mpr ⟨rfl, rfl, .some ?_⟩) .nil⟩
      rw [typed]
      rfl

/-- If all but the last node of a body pass, a removal makes of the last what the stages make of its
value in the scope behind the others. -/
theorem removeIntervals_lastNode_iff {ports ports' : List Port} {stmts stmts' : List Stmt}
    {s : Scope} {d : Circuit} (main name node : String) (value : Expr)
    (portsDone : List.Forall₂ (fun p p' => p.lower.outcome = .ok p') ports ports')
    (before : Threads Stmt.Removed (Scope.ofPorts ports') stmts stmts' s) :
    (ofBody main name ports (.block (stmts ++ [.node node value]))).removeIntervals.outcome
        = .ok d ↔
      ∃ z, Expr.Removed true s value z ∧
        d = ofBody main name ports' (.block (stmts' ++ [.node node z])) := by
  simp only [removeIntervals_ofBody_iff, Stmt.removed_block_iff, threads_concat_iff,
    Stmt.removed_node_iff]
  constructor
  · rintro ⟨ports'', _, _, portsDone', ⟨_, rfl, _, _, _, before', ⟨z, removed, rfl, rfl⟩, rfl⟩, rfl⟩
    obtain rfl : ports' = ports'' :=
      List.right_unique_forall₂' (fun _ _ _ done done' => Except.ok.inj (done.symm.trans done'))
        portsDone portsDone'
    obtain ⟨rfl, rfl⟩ := before.unique (fun done done' => done.unique done') before'
    exact ⟨z, removed, rfl⟩
  · rintro ⟨z, removed, rfl⟩
    exact ⟨ports', _, _, portsDone,
      ⟨_, rfl, _, _, _, before, ⟨z, removed, rfl, rfl⟩, rfl⟩, rfl⟩

end Circuit

end IntervalHdl
