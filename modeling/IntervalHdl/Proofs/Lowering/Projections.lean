import IntervalHdl.Proofs.Lowering.Components
import IntervalHdl.Proofs.Typing.Mentions

/-!
# Projections of lowered declarations

Lowering rewrites the types recorded along a chain of fields and elements in place; inference
projects them from the lowered declaration of the name that the chain starts from. In a module that
declares no name twice both give the same types, for references to ports, wires and registers and
for chains of any length over them (`Circuit.projections_agree`).
-/

namespace IntervalHdl
set_option autoImplicit false

/-! ## Declarations -/

namespace Stmt

/-- The name that the statement itself declares, with the type that a wire or a register is declared
at. -/
def declaration? (s : Stmt) : Option (String × Option Ty) :=
  s.declaredName?.map fun name => (name, s.declaredTy?)

/-- The names that are declared in the statement, with the types of wires and registers. -/
def declarations (s : Stmt) : List (String × Option Ty) := s.all.filterMap declaration?

theorem declarations_eq (s : Stmt) :
    s.declarations = s.stmts.flatMap declarations ++ s.declaration?.toList := by
  rw [declarations, all_eq, List.filterMap_append, List.filterMap_flatMap]
  cases declared : s.declaration? <;> simp [declared] <;> rfl

theorem declarations_skeleton (s : Stmt) : s.skeleton.declarations = s.declarations := by
  have each (s : Stmt) : s.skeleton.declaration? = s.declaration? := by
    cases s with
    | reg _ _ _ reset => cases reset <;> simp [skeleton, declaration?, declaredName?, declaredTy?]
    | _ => simp [skeleton, declaration?, declaredName?, declaredTy?]
  rw [declarations, all_skeleton, List.filterMap_map]
  exact List.filterMap_congr fun s _ => each s

/-- The declarations are of one name, the second one at the lowered type. -/
def Lowers (d d' : String × Option Ty) : Prop :=
  d'.1 = d.1 ∧ Option.Rel (fun t t' => t.lower.outcome = .ok t') d.2 d'.2

/-- Lowering keeps the declared names and lowers the declared types. -/
theorem declarations_of_lower {warn : Bool} {s s' : Stmt} (done : (s.lower warn).outcome = .ok s') :
    List.Forall₂ Lowers s.declarations s'.declarations := by
  induction s using ind_stmts generalizing s' with
  | step s ih =>
    have lowered := loweredTo_of_lower done
    rw [declarations_eq s, declarations_eq s']
    apply List.rel_append
    · exact List.rel_flatMap (forall₂_imp_of_mem (fun inner found _ step => ih inner found step)
        lowered.stmts) fun _ _ each => each
    · rw [declaration?, declaration?, lowered.name_eq]
      cases s.declaredName? with
      | none => exact .nil
      | some name => exact .cons ⟨rfl, lowered.ty⟩ .nil

end Stmt

namespace Module

/-- The names that the module declares, with the types of ports, wires and registers. -/
def declarations (m : Module) : List (String × Option Ty) :=
  m.ports.map (fun p => (p.name, some p.ty)) ++ m.body?.toList.flatMap Stmt.declarations

/-- The module declares a port, a wire or a register of that name, at that type. -/
def Stores (m : Module) (name : String) (ty : Ty) : Prop := (name, some ty) ∈ m.declarations

/-- No name is declared twice. -/
def DeclaresOnce (m : Module) : Prop := (m.declarations.map Prod.fst).Nodup

/-- Every reference to a port, a wire or a register, and every chain that starts from one, is
recorded at what it selects. -/
def RecordsSelections (m : Module) : Prop := ∀ x ∈ m.nodes, x.RecordsSelection m.Stores

/-- Recorded types have no influence on what a module declares. -/
theorem declarations_skeleton (m : Module) : m.skeleton.declarations = m.declarations := by
  obtain ⟨name, ports, body?⟩ := m
  cases body? <;> simp [declarations, skeleton, Stmt.declarations_skeleton]

/-- Lowering turns each declaration into that of the same name, at the lowered type. -/
theorem declarations_of_lower {warn : Bool} {m m' : Module}
    (done : (m.lower warn).outcome = .ok m') :
    List.Forall₂ Stmt.Lowers m.declarations m'.declarations := by
  obtain ⟨-, ports, body⟩ := lower_eq_ok_iff.mp done
  apply List.rel_append
  · rw [List.forall₂_map_left_iff, List.forall₂_map_right_iff]
    refine ports.imp fun p p' done => ?_
    obtain ⟨name, -, tyDone⟩ := Port.lower_eq_ok_iff.mp done
    exact ⟨name, .some tyDone⟩
  · generalize m.body? = before, m'.body? = after at body
    cases body with
    | none => exact .nil
    | some done => simpa using Stmt.declarations_of_lower done

end Module

namespace Stmt

/-- What lowering makes of the expressions of a statement holds of those of the lowered one. -/
theorem everywhere_exprs_of_lower {P Q : Expr → Prop} {warn : Bool}
    (each : ∀ e e', P e → (e.lower warn).outcome = .ok e' → Q e') {s s' : Stmt}
    (all : s.Everywhere fun inner => ∀ e ∈ inner.exprs, P e)
    (done : (s.lower warn).outcome = .ok s') :
    s'.Everywhere fun inner => ∀ e ∈ inner.exprs, Q e := by
  induction s using ind_stmts generalizing s' with
  | step s ih =>
    have lowered := loweredTo_of_lower done
    refine ⟨?_, ?_⟩
    · exact forall_mem_of_forall₂ lowered.exprs fun e among e' => each e e' (all.here e among)
    · exact forall_mem_of_forall₂ lowered.stmts fun inner among inner' =>
        ih inner among (all.inside inner among)

/-- A mentioned declaration is one of a node, or of a wire or a register at its type. -/
theorem mem_declarations_of_mentions {s : Stmt} {name : String} {ty : Ty}
    (present : .declaration name ty ∈ s.mentions) :
    (name, none) ∈ s.declarations ∨ (name, some ty) ∈ s.declarations := by
  induction s using ind_stmts with
  | step s ih =>
    simp only [declarations_eq s, List.mem_append, List.mem_flatMap]
    rcases mem_mentions_iff.mp present with ⟨inner, among, present⟩ | ⟨e, -, present⟩ | here
    · rcases ih inner among present with found | found
      · exact .inl (.inl ⟨inner, among, found⟩)
      · exact .inr (.inl ⟨inner, among, found⟩)
    · cases e.undeclared_references name ty present
    · cases s with
      | wire | reg =>
        cases here
        exact .inr (.inr (by simp [declaration?, declaredName?, declaredTy?]))
      | node =>
        cases here
        exact .inl (.inr (by simp [declaration?, declaredName?, declaredTy?]))
      | _ => cases here

end Stmt

namespace Module

theorem mem_declarations_of_mentions {m : Module} {name : String} {ty : Ty}
    (present : .declaration name ty ∈ m.mentions) :
    (name, none) ∈ m.declarations ∨ m.Stores name ty := by
  simp only [mentions, Stores, declarations, List.mem_append, List.mem_map, List.mem_flatMap] at *
  rcases present with ⟨p, among, same⟩ | ⟨body, found, present⟩
  · cases same
    exact .inr (.inl ⟨p, among, rfl⟩)
  · rcases Stmt.mem_declarations_of_mentions present with here | here
    · exact .inl (.inr ⟨body, found, here⟩)
    · exact .inr (.inr ⟨body, found, here⟩)

/-- What is declared once is declared in one way. -/
theorem DeclaresOnce.eq {m : Module} (once : m.DeclaresOnce) {name : String} {d d' : Option Ty}
    (first : (name, d) ∈ m.declarations) (second : (name, d') ∈ m.declarations) : d = d' := by
  have same := List.inj_on_of_nodup_map once first second rfl
  exact (Prod.mk.inj same).2

/-- Lowering declares no name twice that was declared once. -/
theorem DeclaresOnce.of_lower {warn : Bool} {m m' : Module} (once : m.DeclaresOnce)
    (done : (m.lower warn).outcome = .ok m') : m'.DeclaresOnce := by
  have names : m.declarations.map Prod.fst = m'.declarations.map Prod.fst := by
    rw [← List.forall₂_eq_eq_eq, List.forall₂_map_left_iff, List.forall₂_map_right_iff]
    exact (declarations_of_lower done).imp fun _ _ step => step.1.symm
  rw [DeclaresOnce, ← names]
  exact once

/-- In a typed module without redeclarations a reference to a port, a wire or a register is at the
type of the declaration. -/
theorem reference_eq_of_infer {m t : Module} (typed : m.infer = .ok t) (once : t.DeclaresOnce)
    {name : String} {ty ty' : Ty} (present : .ref name ty ∈ t.nodes) (here : t.Stores name ty') :
    ty' = ty := by
  obtain ⟨before, after, split⟩ := List.append_of_mem (reference_mem_mentions present)
  obtain ⟨earlier, later, rfl, -⟩ := resolved_of_infer typed before name ty after split
  have declared : .declaration name ty ∈ t.mentions := by
    rw [split]
    simp
  rcases mem_declarations_of_mentions declared with node | stored
  · cases once.eq node here
  · exact Option.some.inj (once.eq here stored)

/-- In a typed module without redeclarations every chain from a port, a wire or a register is at the
component that it selects. -/
theorem selects_of_infer {m t : Module} (typed : m.infer = .ok t) (once : t.DeclaresOnce) :
    ∀ y ∈ t.nodes, ∀ name ty, y.root? = some name → t.Stores name ty →
      y.selected? ty = some y.ty := by
  intro y present
  obtain ⟨body, found, within⟩ := mem_nodes_iff.mp present
  have facts : body.Everywhere fun inner => ∀ e ∈ inner.exprs, e.Everywhere fun x =>
      (∃ s, x.NodeTyped s) ∧ ∀ name ty ty', x = .ref name ty → t.Stores name ty' → ty' = ty := by
    refine Stmt.everywhere_exprs_iff.mpr fun x within => ?_
    have present := mem_nodes_iff.mpr ⟨body, found, within⟩
    refine ⟨nodeTyped_of_infer typed x present, ?_⟩
    rintro name ty ty' rfl here
    exact reference_eq_of_infer typed once present here
  have selects := facts.mono fun inner each e among => Expr.everywhere_selects (each e among)
  exact Stmt.everywhere_exprs_iff.mp selects y within

/-- Where every chain of a module is recorded at what it selects, the lowered module has chains that
are, too. -/
theorem atSelection_of_lower {warn : Bool} {m l : Module} (recorded : m.RecordsSelections)
    (done : (m.lower warn).outcome = .ok l) : ∀ x ∈ l.nodes, x.AtSelection l.Stores := by
  have types (name : String) (ty' : Ty) (here : l.Stores name ty') :
      ∃ ty, m.Stores name ty ∧ ty.lower.outcome = .ok ty' := by
    obtain ⟨⟨_, ty?⟩, declared, rfl, tyDone⟩ :=
      mem_exists_of_forall₂ (declarations_of_lower done).flip here
    cases tyDone with
    | some tyDone => exact ⟨_, declared, tyDone⟩
  obtain ⟨-, -, body⟩ := lower_eq_ok_iff.mp done
  intro x present
  obtain ⟨body', found, present⟩ := mem_nodes_iff.mp present
  rw [found] at body
  cases source : m.body? with
  | none =>
    rw [source] at body
    cases body
  | some stmt =>
    rw [source] at body
    cases body with
    | some done =>
      have all : stmt.Everywhere fun inner => ∀ e ∈ inner.exprs,
          e.Everywhere (Expr.RecordsSelection m.Stores) :=
        Stmt.everywhere_exprs_iff.mpr fun x within =>
          recorded x (mem_nodes_iff.mpr ⟨stmt, source, within⟩)
      have lowered := Stmt.everywhere_exprs_of_lower
        (fun e e' recorded exprDone => (Expr.everywhere_atSelection types recorded exprDone).1)
        all done
      exact Stmt.everywhere_exprs_iff.mp lowered x present

/-- The modules have the same nodes up to recorded types. Every reference to a port, a wire or a
register of the first one, and every chain that starts from one, is recorded at one type in both,
which is the component that it selects from the declaration. -/
def ProjectionsAgree (l t : Module) : Prop :=
  List.Forall₂ (fun x y => y.skeleton = x.skeleton ∧
    ∀ name ty, x.root? = some name → l.Stores name ty → x.selected? ty = some x.ty ∧ y.ty = x.ty)
    l.nodes t.nodes

/-- A lowered module without redeclarations is typed at the types that lowering recorded on its
chains. -/
theorem projectionsAgree_of_infer {l t : Module} (once : l.DeclaresOnce)
    (recorded : ∀ x ∈ l.nodes, x.AtSelection l.Stores) (typed : l.infer = .ok t) :
    l.ProjectionsAgree t := by
  have same := skeleton_of_infer typed
  have declarations : t.declarations = l.declarations := by
    rw [← declarations_skeleton t, same, declarations_skeleton l]
  have positions : List.Forall₂ (fun x y => x.skeleton = y.skeleton) l.nodes t.nodes := by
    have nodes : l.nodes.map Expr.skeleton = t.nodes.map Expr.skeleton := by
      rw [← nodes_skeleton, ← nodes_skeleton, same]
    rw [← List.forall₂_eq_eq_eq, List.forall₂_map_left_iff, List.forall₂_map_right_iff] at nodes
    exact nodes
  have selects := selects_of_infer typed (by rw [DeclaresOnce, declarations]; exact once)
  have typedToo : List.Forall₂ (fun y x => x.skeleton = y.skeleton ∧
      ∀ name ty, y.root? = some name → t.Stores name ty → y.selected? ty = some y.ty)
      t.nodes l.nodes :=
    forall₂_imp_of_mem (fun y present x same => ⟨same, selects y present⟩) positions.flip
  refine forall₂_imp_of_mem (fun x present y step => ⟨step.1.symm, ?_⟩) typedToo.flip
  intro name ty root here
  obtain ⟨same, selected⟩ := step
  rw [← Expr.root?_skeleton x, same, Expr.root?_skeleton] at root
  have found := selected name ty root (by rw [Stores, declarations]; exact here)
  rw [← Expr.selected?_skeleton, ← same, Expr.selected?_skeleton] at found
  rw [← Expr.root?_skeleton y, ← same, Expr.root?_skeleton] at root
  have agree := recorded x present name ty y.ty root here found
  exact ⟨agree ▸ found, agree.symm⟩

end Module

/-- Where names are declared once and every chain from a port, a wire or a register is recorded at
what it selects, lowering records on chains the very types that inference finds for them in the
lowered circuit: the components of the lowered declarations. -/
theorem Circuit.projections_agree {c l t : Circuit} {warn : Bool}
    (once : ∀ m ∈ c.modules, m.DeclaresOnce) (recorded : ∀ m ∈ c.modules, m.RecordsSelections)
    (lowered : (c.lower warn).outcome = .ok l) (typed : l.infer = .ok t) :
    List.Forall₂ Module.ProjectionsAgree l.modules t.modules := by
  have each : ∀ m ∈ l.modules, m.DeclaresOnce ∧ ∀ x ∈ m.nodes, x.AtSelection m.Stores := by
    refine forall_mem_of_forall₂ (lower_eq_ok_iff.mp lowered).2 fun m present m' done => ⟨?_, ?_⟩
    · exact (once m present).of_lower done
    · exact Module.atSelection_of_lower (recorded m present) done
  refine forall₂_imp_of_mem (fun m present m' done => ?_) (mapModulesM_eq_ok_iff.mp typed).2
  exact Module.projectionsAgree_of_infer (each m present).1 (each m present).2 done

namespace Circuit

/-- A register between the fields of a bundle, with everything recorded at the given types. -/
def tapped (link value history : Ty) : Circuit :=
  let port : Expr := .ref "link" link
  ⟨"Top", [⟨"Top", [⟨"clk", .input, .clock⟩, ⟨"link", .input, link⟩],
    some (.block [
      .reg "r" value (.ref "clk" .clock) none,
      .connect (.ref "r" value) (.field port "value" value),
      .connect (.index (.field port "history" history) 3 value) (.ref "r" value)])⟩]⟩

/-- A field of a port and an element of a field, lowered to the same signed integer. -/
theorem projections_agree_tapped :
    let value : Ty := .interval (.of (.ofInt (-2)) (.ofInt 5) (.known (.ofNat 1)))
    let carrier : Ty := .sint (.known (.ofNat 5))
    let link (value : Ty) : Ty :=
      .bundle [⟨"value", false, value⟩, ⟨"history", true, .vector value 4⟩]
    let c := tapped (link value) value (.vector value 4)
    let l := tapped (link carrier) carrier (.vector carrier 4)
    (∀ m ∈ c.modules, m.DeclaresOnce) ∧ (∀ m ∈ c.modules, m.RecordsSelections) ∧
      (c.lower true).outcome = .ok l ∧ l.infer = .ok l ∧
      List.Forall₂ Module.ProjectionsAgree l.modules l.modules := by
  intro value carrier link c l
  have once : ∀ m ∈ c.modules, m.DeclaresOnce :=
    List.forall_mem_singleton.mpr (show ["clk", "link", "r"].Nodup by decide)
  have recorded : ∀ m ∈ c.modules, m.RecordsSelections := by
    refine List.forall_mem_singleton.mpr fun x present name ty root here => ?_
    change (name, some ty) ∈ [("clk", some .clock), ("link", some (link value)), ("r", some value)]
      at here
    let port : Expr := .ref "link" (link value)
    let history : Expr := .field port "history" (.vector value 4)
    change x ∈ [.ref "clk" .clock, .ref "r" value, port, .field port "value" value, port, history,
      .index history 3 value, .ref "r" value] at present
    simp only [List.mem_cons, List.not_mem_nil, or_false, Prod.mk.injEq, Option.some.injEq] at here
    simp only [List.mem_cons, List.not_mem_nil, or_false] at present
    rcases present with rfl | rfl | rfl | rfl | rfl | rfl | rfl | rfl <;> cases root <;>
      rcases here with ⟨same, rfl⟩ | ⟨same, rfl⟩ | ⟨same, rfl⟩ <;>
      first | exact ⟨_, rfl, Ty.equal_refl _⟩ | exact absurd same (by decide)
  have lowered : (c.lower true).outcome = .ok l := rfl
  have typed : l.infer = .ok l := rfl
  exact ⟨once, recorded, lowered, typed, projections_agree once recorded lowered typed⟩

end Circuit

end IntervalHdl
