import IntervalHdl.Proofs.Typing.Skeleton
import IntervalHdl.Proofs.Typing.Values
import IntervalHdl.Proofs.Nodes

/-!
# Declarations and references in the order of a traversal

A traversal of a module comes across declarations of names and references to them, in one order: the
ports, then the statements, down into blocks and through both branches of a conditional. A register
is declared before its clock and its reset, a node after its value. Inference leads a scope along
that list, so in a typed module every reference is at the type of the latest declaration of its name
before it (`Module.resolved_of_infer`).
-/

namespace IntervalHdl
set_option autoImplicit false

/-! ## Positions of a skeleton -/

namespace Expr

/-- Skeletons of expressions in order. -/
theorem skeletons_eq_map (es : List Expr) : skeletons es = es.map skeleton := by
  induction es with
  | nil => rfl
  | cons e es ih => rw [skeletons, ih, List.map_cons]

/-- The children of a skeleton are the skeletons of the children. -/
theorem children_skeleton (e : Expr) : e.skeleton.children = e.children.map skeleton := by
  cases e <;> simp [skeleton, children, skeletons_eq_map]

/-- The nodes of a skeleton are the skeletons of the nodes. -/
theorem nodes_skeleton (e : Expr) : e.skeleton.nodes = e.nodes.map skeleton := by
  induction e using ind_children with
  | step e ih =>
    rw [nodes_eq e.skeleton, nodes_eq e, children_skeleton, List.flatMap_map, List.map_append,
      List.map_flatMap, List.flatMap_congr ih]
    rfl

end Expr

namespace Stmt

theorem skeletons_eq_map (stmts : List Stmt) : skeletons stmts = stmts.map skeleton := by
  induction stmts with
  | nil => rfl
  | cons stmt stmts ih => rw [skeletons, ih, List.map_cons]

/-- The statements inside a skeleton are the skeletons of those inside. -/
theorem stmts_skeleton (s : Stmt) : s.skeleton.stmts = s.stmts.map skeleton := by
  cases s with
  | reg name ty clock reset => cases reset <;> simp [skeleton, stmts]
  | _ => simp [skeleton, stmts, skeletons_eq_map]

/-- The expressions of a skeleton are the skeletons of the expressions. -/
theorem exprs_skeleton (s : Stmt) : s.skeleton.exprs = s.exprs.map Expr.skeleton := by
  cases s with
  | reg name ty clock reset => cases reset <;> simp [skeleton, exprs]
  | _ => simp [skeleton, exprs]

/-- The statements in a skeleton are the skeletons of the statements. -/
theorem all_skeleton (s : Stmt) : s.skeleton.all = s.all.map skeleton := by
  induction s using ind_stmts with
  | step s ih =>
    rw [all_eq s.skeleton, all_eq s, stmts_skeleton, List.flatMap_map, List.map_append,
      List.map_flatMap, List.flatMap_congr ih]
    rfl

/-- The nodes of a statement's skeleton are the skeletons of its nodes. -/
theorem nodes_skeleton (s : Stmt) : s.skeleton.nodes = s.nodes.map Expr.skeleton := by
  have each (s : Stmt) : s.skeleton.exprs.flatMap Expr.nodes
      = (s.exprs.flatMap Expr.nodes).map Expr.skeleton := by
    rw [exprs_skeleton, List.flatMap_map, List.map_flatMap]
    exact List.flatMap_congr fun e _ => Expr.nodes_skeleton e
  rw [nodes, nodes, all_skeleton, List.flatMap_map, List.map_flatMap]
  exact List.flatMap_congr fun s _ => each s

end Stmt

/-- The nodes of a module's skeleton are the skeletons of its nodes. -/
theorem Module.nodes_skeleton (m : Module) : m.skeleton.nodes = m.nodes.map Expr.skeleton := by
  obtain ⟨name, ports, body?⟩ := m
  cases body? <;> simp [nodes, skeleton, Stmt.nodes_skeleton]

/-! ## Mentions -/

/-- What a traversal comes across: a name that is declared, or one that is referred to. -/
inductive Mention where
  | declaration (name : String) (ty : Ty)
  | reference (name : String) (ty : Ty)

/-- The reference that a node is. -/
def Expr.reference? : Expr → Option Mention
  | .ref name ty => some (.reference name ty)
  | _ => none

/-- The references in the expression, from left to right. -/
def Expr.references (e : Expr) : List Mention := e.nodes.filterMap reference?

namespace Stmt

mutual

/-- The declarations and references in the statement, in the order of a traversal. A register is
declared before its clock and its reset, and a node after its value, at the type of the value. -/
def mentions : Stmt → List Mention
  | .wire name ty => [.declaration name ty]
  | .reg name ty clock none => [.declaration name ty] ++ clock.references
  | .reg name ty clock (some reset) =>
    [.declaration name ty] ++
      (clock.references ++ (reset.signal.references ++ reset.init.references))
  | .node name value => value.references ++ [.declaration name value.ty]
  | .connect loc value => loc.references ++ value.references
  | .partialConnect loc value => loc.references ++ value.references
  | .when cond conseq alt => cond.references ++ (conseq.mentions ++ alt.mentions)
  | .block stmts => allMentions stmts
  | .invalid loc => loc.references
  | .skip => []

/-- The declarations and references in statements that stand one behind the other. -/
def allMentions : List Stmt → List Mention
  | [] => []
  | stmt :: stmts => stmt.mentions ++ allMentions stmts

end

end Stmt

/-- The declarations and references in the module: those of the ports, then those of the body. -/
def Module.mentions (m : Module) : List Mention :=
  m.ports.map (fun p => .declaration p.name p.ty) ++ m.body?.toList.flatMap Stmt.mentions

namespace Mention

/-- The list declares the name nowhere. -/
def Undeclared (ms : List Mention) (name : String) : Prop := ∀ ty, .declaration name ty ∉ ms

/-- The latest declaration of the name in the list is at the type. -/
def Latest (ms : List Mention) (name : String) (ty : Ty) : Prop :=
  ∃ earlier later, ms = earlier ++ .declaration name ty :: later ∧ Undeclared later name

/-- Every reference in the list is at the type of the latest declaration of its name before it. -/
def Resolved (ms : List Mention) : Prop :=
  ∀ before name ty after, ms = before ++ .reference name ty :: after → Latest before name ty

/-- Some reference to the name in the list has no declaration of the name before it. -/
def Dangling (ms : List Mention) (name : String) : Prop :=
  ∃ before ty after, ms = before ++ .reference name ty :: after ∧ Undeclared before name

/-- The mention without its type. -/
def untyped : Mention → Mention
  | .declaration name _ => .declaration name .unknown
  | .reference name _ => .reference name .unknown

variable {ms ms' : List Mention} {name : String} {ty : Ty}

theorem undeclared_declaration_cons_iff {declared : String} :
    Undeclared (.declaration declared ty :: ms) name ↔ name ≠ declared ∧ Undeclared ms name := by
  simp only [Undeclared, List.mem_cons, not_or, forall_and]
  refine and_congr_left fun _ => ⟨fun none same => ?_, fun apart t same => ?_⟩
  · subst same
    exact none ty rfl
  · cases same
    exact apart rfl

theorem undeclared_reference_cons_iff {referred : String} :
    Undeclared (.reference referred ty :: ms) name ↔ Undeclared ms name := by
  simp [Undeclared]

/-- A name is undeclared in two lists put together if it is in both. -/
theorem undeclared_append_iff :
    Undeclared (ms ++ ms') name ↔ Undeclared ms name ∧ Undeclared ms' name := by
  simp only [Undeclared, List.mem_append, not_or, forall_and]

theorem undeclared_iff_untyped :
    Undeclared ms name ↔ .declaration name .unknown ∉ ms.map untyped := by
  simp only [Undeclared, List.mem_map, not_exists, not_and]
  constructor
  · rintro none (⟨n, t⟩ | ⟨n, t⟩) found same
    · cases same
      exact none t found
    · cases same
  · intro none ty found
    exact none _ found rfl

/-- Types have no influence on what is undeclared. -/
theorem undeclared_congr (same : ms'.map untyped = ms.map untyped) :
    Undeclared ms' name ↔ Undeclared ms name := by
  rw [undeclared_iff_untyped, undeclared_iff_untyped, same]

/-- Types have no influence on which references dangle. -/
theorem Dangling.congr (dangling : Dangling ms name) (same : ms'.map untyped = ms.map untyped) :
    Dangling ms' name := by
  obtain ⟨before, ty, after, rfl, none⟩ := dangling
  rw [List.map_append, List.map_cons] at same
  obtain ⟨before', rest, rfl, same_before, same_rest⟩ := List.map_eq_append_iff.mp same
  obtain ⟨m, after', rfl, same_m, -⟩ := List.map_eq_cons_iff.mp same_rest
  have none' := (undeclared_congr same_before).mpr none
  cases m with
  | declaration => cases same_m
  | reference name' ty' =>
    cases same_m
    exact ⟨before', ty', after', rfl, none'⟩

/-- A mention in front matters only where the rest does not declare the name. -/
theorem latest_cons_iff {m : Mention} :
    Latest (m :: ms) name ty ↔
      Latest ms name ty ∨ m = .declaration name ty ∧ Undeclared ms name := by
  constructor
  · rintro ⟨earlier, later, split, none⟩
    cases earlier with
    | nil =>
      obtain ⟨rfl, rfl⟩ := List.cons.inj split
      exact .inr ⟨rfl, none⟩
    | cons first earlier =>
      obtain ⟨rfl, rfl⟩ := List.cons.inj split
      exact .inl ⟨earlier, later, rfl, none⟩
  · rintro (⟨earlier, later, rfl, none⟩ | ⟨rfl, none⟩)
    · exact ⟨m :: earlier, later, rfl, none⟩
    · exact ⟨[], ms, rfl, none⟩

/-- A reference of two lists put together stands in one of them. -/
theorem append_eq_split_iff {as bs before after : List Mention} {m : Mention} :
    as ++ bs = before ++ m :: after ↔
      (∃ rest, as = before ++ m :: rest ∧ after = rest ++ bs) ∨
        ∃ rest, before = as ++ rest ∧ bs = rest ++ m :: after := by
  rw [List.append_eq_append_iff]
  constructor
  · rintro (⟨rest, rfl, rfl⟩ | ⟨rest, rfl, split⟩)
    · exact .inr ⟨rest, rfl, rfl⟩
    · cases rest with
      | nil => exact .inr ⟨[], by simp, split.symm⟩
      | cons first rest =>
        obtain ⟨rfl, rfl⟩ := List.cons.inj split
        exact .inl ⟨rest, rfl, rfl⟩
  · rintro (⟨rest, rfl, rfl⟩ | ⟨rest, rfl, rfl⟩)
    · exact .inr ⟨m :: rest, rfl, rfl⟩
    · exact .inl ⟨rest, rfl, rfl⟩

end Mention

/-! ## The scope along a traversal -/

namespace Scope

open Mention

/-- The scope with the declarations in the list added, in order. -/
def after (s : Scope) : List Mention → Scope
  | [] => s
  | .declaration name ty :: ms => (s.declare name ty).after ms
  | .reference _ _ :: ms => s.after ms

variable {s : Scope} {ms ms' : List Mention} {name : String} {ty : Ty}

/-- Lists of mentions are entered one after the other. -/
theorem after_append (s : Scope) (ms ms' : List Mention) :
    s.after (ms ++ ms') = (s.after ms).after ms' := by
  induction ms generalizing s with
  | nil => rfl
  | cons m ms ih =>
    cases m with
    | declaration name ty => exact ih (s.declare name ty)
    | reference name ty => exact ih s

/-- The scope of ports is the empty one with their declarations. -/
theorem ofPorts_eq_after (ports : List Port) :
    ofPorts ports = after [] (ports.map fun p => .declaration p.name p.ty) := by
  have each (s : Scope) : ports.foldl (fun s p => s.declare p.name p.ty) s
      = s.after (ports.map fun p => .declaration p.name p.ty) := by
    induction ports generalizing s with
    | nil => rfl
    | cons p ports ih => exact ih (s.declare p.name p.ty)
  exact each []

/-- What the scope knows of a name behind a list is its latest declaration there, or what was known
before. -/
theorem latest_of_lookup_after (found : (s.after ms).lookup name = some ty) :
    Latest ms name ty ∨ Undeclared ms name ∧ s.lookup name = some ty := by
  induction ms generalizing s with
  | nil => exact .inr ⟨nofun, found⟩
  | cons m ms ih =>
    rw [latest_cons_iff]
    cases m with
    | declaration declared declaredTy =>
      rcases ih found with latest | ⟨none, found⟩
      · exact .inl (.inl latest)
      · rcases lookup_declare_eq_some found with ⟨rfl, rfl⟩ | ⟨apart, found⟩
        · exact .inl (.inr ⟨rfl, none⟩)
        · exact .inr ⟨undeclared_declaration_cons_iff.mpr ⟨apart, none⟩, found⟩
    | reference referred referredTy =>
      rcases ih found with latest | ⟨none, found⟩
      · exact .inl (.inl latest)
      · exact .inr ⟨undeclared_reference_cons_iff.mpr none, found⟩

/-- A name that is not known behind a list is not declared in it and was not known before. -/
theorem undeclared_of_lookup_after (unknown : (s.after ms).lookup name = none) :
    Undeclared ms name ∧ s.lookup name = none := by
  induction ms generalizing s with
  | nil => exact ⟨nofun, unknown⟩
  | cons m ms ih =>
    cases m with
    | declaration declared ty =>
      obtain ⟨none, unknown⟩ := ih unknown
      obtain ⟨apart, unknown⟩ := lookup_declare_eq_none_iff.mp unknown
      exact ⟨undeclared_declaration_cons_iff.mpr ⟨apart, none⟩, unknown⟩
    | reference referred ty =>
      obtain ⟨none, unknown⟩ := ih unknown
      exact ⟨undeclared_reference_cons_iff.mpr none, unknown⟩

/-- The list leads from one scope to another, and each reference in it is at the type that the scope
in front of it has for the name. -/
structure Leads (s : Scope) (ms : List Mention) (behind : Scope) : Prop where
  resolved : ∀ before name ty after, ms = before ++ .reference name ty :: after →
    (s.after before).lookup name = some ty
  after_eq : s.after ms = behind

namespace Leads

variable {between behind : Scope}

theorem nil (s : Scope) : Leads s [] s := ⟨by simp, rfl⟩

/-- Statements in sequence lead from the first scope to the last. -/
theorem append (first : Leads s ms between) (next : Leads between ms' behind) :
    Leads s (ms ++ ms') behind := by
  refine ⟨fun before name ty after split => ?_, ?_⟩
  · rcases append_eq_split_iff.mp split with ⟨rest, same, -⟩ | ⟨rest, rfl, same⟩
    · exact first.resolved before name ty rest same
    · rw [after_append, first.after_eq]
      exact next.resolved rest name ty after same
  · rw [after_append, first.after_eq, next.after_eq]

/-- A declaration leads to the scope with its name. -/
theorem declaration (s : Scope) (name : String) (ty : Ty) :
    Leads s [.declaration name ty] (s.declare name ty) := by
  refine ⟨fun before name' ty' after split => ?_, rfl⟩
  have present : Mention.reference name' ty' ∈ [Mention.declaration name ty] := by
    rw [split]
    simp
  simp at present

/-- The declarations of ports lead to the scope with all their names. -/
theorem declarations (s : Scope) (ports : List Port) :
    Leads s (ports.map fun p => .declaration p.name p.ty)
      (s.after (ports.map fun p => .declaration p.name p.ty)) := by
  induction ports generalizing s with
  | nil => exact .nil s
  | cons p ports ih => exact (declaration s p.name p.ty).append (ih (s.declare p.name p.ty))

end Leads

end Scope

namespace Expr

open Mention

variable {s : Scope}

/-- The references of an expression are its reference nodes. -/
theorem mem_references_iff {e : Expr} {m : Mention} :
    m ∈ e.references ↔ ∃ name ty, .ref name ty ∈ e.nodes ∧ m = .reference name ty := by
  simp only [references, List.mem_filterMap]
  constructor
  · rintro ⟨x, present, found⟩
    cases x with
    | ref name ty =>
      cases found
      exact ⟨name, ty, present, rfl⟩
    | _ => cases found
  · rintro ⟨name, ty, present, rfl⟩
    exact ⟨_, present, rfl⟩

/-- An expression declares no name. -/
theorem undeclared_references (e : Expr) (name : String) : Undeclared e.references name := by
  intro ty present
  obtain ⟨_, _, -, same⟩ := mem_references_iff.mp present
  cases same

/-- References leave the scope as it is. -/
theorem after_references {ms : List Mention} {e : Expr} (among : ∀ m ∈ ms, m ∈ e.references) :
    s.after ms = s := by
  induction ms with
  | nil => rfl
  | cons m ms ih =>
    obtain ⟨name, ty, -, rfl⟩ := mem_references_iff.mp (among m List.mem_cons_self)
    exact ih fun m present => among m (List.mem_cons_of_mem _ present)

/-- The references of a typed expression are at the types that the scope has for the names. -/
theorem leads_references {e e' : Expr} (typed : e.infer s = .ok e') :
    s.Leads e'.references s := by
  refine ⟨fun before name ty after split => ?_, after_references fun _ present => present⟩
  have present : .reference name ty ∈ e'.references := by
    rw [split]
    simp
  obtain ⟨_, _, present, same⟩ := mem_references_iff.mp present
  cases same
  have unchanged : s.after before = s := after_references (e := e') fun m found => by
    rw [split]
    exact List.mem_append_left _ found
  have node := everywhere_iff_nodes.mp (everywhere_nodeTyped_of_infer typed) _ present
  simp only [NodeTyped, inferNode, bind_eq_ok_iff, Scope.resolve_eq_ok_iff, pure_eq_ok_iff,
    Expr.ref.injEq, true_and] at node
  obtain ⟨_, found, rfl⟩ := node
  rw [unchanged]
  exact found

end Expr

/-- A typed statement leads from the scope it stands in to the one behind it. -/
theorem Stmt.leads_of_infer {s behind : Scope} {stmt stmt' : Stmt}
    (typed : stmt.infer s = .ok (stmt', behind)) : s.Leads stmt'.mentions behind := by
  have translated := translated_of_infer typed
  clear typed
  induction stmt generalizing s stmt' behind with
  | wire =>
    cases translated
    exact .declaration s _ _
  | reg =>
    cases translated with
    | reg _ _ clock => exact (Scope.Leads.declaration s _ _).append (Expr.leads_references clock)
    | regReset _ _ clock signal init =>
      exact (Scope.Leads.declaration s _ _).append ((Expr.leads_references clock).append
        ((Expr.leads_references signal).append (Expr.leads_references init)))
  | node =>
    cases translated with
    | node _ value => exact (Expr.leads_references value).append (.declaration s _ _)
  | connect =>
    cases translated with
    | connect loc value => exact (Expr.leads_references loc).append (Expr.leads_references value)
  | partialConnect =>
    cases translated with
    | partialConnect loc value =>
      exact (Expr.leads_references loc).append (Expr.leads_references value)
  | when cond conseq alt conseqIh altIh =>
    cases translated with
    | when cond conseq alt =>
      exact (Expr.leads_references cond).append ((conseqIh conseq).append (altIh alt))
  | block stmts ih =>
    cases translated with
    | block chain =>
      rw [mentions]
      induction chain with
      | nil s => exact .nil s
      | cons head _ rest =>
        exact (ih _ List.mem_cons_self head).append
          (rest fun stmt found => ih stmt (List.mem_cons_of_mem _ found))
  | invalid =>
    cases translated with
    | invalid loc => exact Expr.leads_references loc
  | skip =>
    cases translated
    exact .nil s

namespace Stmt

/-- What the statement itself declares, at the type that references to it have. -/
def introduced? : Stmt → Option Mention
  | .wire name ty | .reg name ty _ _ => some (.declaration name ty)
  | .node name value => some (.declaration name value.ty)
  | _ => none

theorem allMentions_eq_flatMap (stmts : List Stmt) :
    allMentions stmts = stmts.flatMap mentions := by
  induction stmts with
  | nil => rfl
  | cons stmt stmts ih => rw [allMentions, ih, List.flatMap_cons]

/-- What a statement mentions is mentioned by a statement inside it or by one of its expressions, or
is what it declares. -/
theorem mem_mentions_iff {s : Stmt} {m : Mention} :
    m ∈ s.mentions ↔ (∃ inner ∈ s.stmts, m ∈ inner.mentions) ∨
      (∃ e ∈ s.exprs, m ∈ e.references) ∨ s.introduced? = some m := by
  cases s with
  | reg name ty clock reset =>
    cases reset <;> simp [mentions, stmts, exprs, introduced?, or_comm, or_assoc, eq_comm]
  | node | when => simp [mentions, stmts, exprs, introduced?, or_comm, eq_comm]
  | _ => simp [mentions, stmts, exprs, introduced?, allMentions_eq_flatMap, eq_comm]

/-- Every reference at a node of the statement is mentioned. -/
theorem reference_mem_mentions {s : Stmt} {name : String} {ty : Ty}
    (present : .ref name ty ∈ s.nodes) : .reference name ty ∈ s.mentions := by
  induction s using ind_stmts with
  | step s ih =>
    rw [nodes_eq, List.mem_append, List.mem_flatMap, List.mem_flatMap] at present
    rw [mem_mentions_iff]
    rcases present with ⟨inner, among, present⟩ | ⟨e, among, present⟩
    · exact .inl ⟨inner, among, ih inner among present⟩
    · exact .inr (.inl ⟨e, among, Expr.mem_references_iff.mpr ⟨name, ty, present, rfl⟩⟩)

end Stmt

namespace Module

open Mention

/-- Every reference node of a module is among its mentions. -/
theorem reference_mem_mentions {m : Module} {name : String} {ty : Ty}
    (present : .ref name ty ∈ m.nodes) : .reference name ty ∈ m.mentions := by
  obtain ⟨body, found, present⟩ := List.mem_flatMap.mp present
  exact List.mem_append_right _
    (List.mem_flatMap.mpr ⟨body, found, Stmt.reference_mem_mentions present⟩)

/-- Every node of a typed module is typed in some scope. -/
theorem nodeTyped_of_infer {m t : Module} (typed : m.infer = .ok t) :
    ∀ y ∈ t.nodes, ∃ s, y.NodeTyped s := by
  intro y present
  obtain ⟨body', found, present⟩ := mem_nodes_iff.mp present
  have body := (translated_of_infer typed).body
  rw [found] at body
  generalize m.body? = before at body
  cases body with
  | some done =>
    obtain ⟨behind, done⟩ := done
    have each (s : Scope) (e e' : Expr) (exprTyped : e.infer s = .ok e') :
        e'.Everywhere fun x => ∃ s, x.NodeTyped s :=
      Expr.everywhere_iff_nodes.mpr fun x within =>
        ⟨s, Expr.everywhere_iff_nodes.mp (Expr.everywhere_nodeTyped_of_infer exprTyped) x within⟩
    exact Stmt.everywhere_exprs_iff.mp (done.everywhere each) y present

/-- In a typed module every reference is at the type of the latest declaration before it. -/
theorem resolved_of_infer {m m' : Module} (typed : m.infer = .ok m') : Resolved m'.mentions := by
  obtain ⟨-, ports_eq, body⟩ := mapBodyM_eq_ok_iff.mp typed
  have leads : ∃ behind, Scope.Leads [] m'.mentions behind := by
    have ports := Scope.Leads.declarations [] m'.ports
    rw [mentions]
    generalize m.body? = before, m'.body? = after at body ⊢
    cases body with
    | none => exact ⟨_, ports.append (.nil _)⟩
    | some done =>
      simp only [bind_eq_ok_iff, pure_eq_ok_iff, Prod.exists] at done
      obtain ⟨_, behind, done, rfl⟩ := done
      rw [← ports_eq, Scope.ofPorts_eq_after] at done
      simpa using ⟨behind, ports.append (Stmt.leads_of_infer done)⟩
  obtain ⟨behind, leads⟩ := leads
  intro before name ty after split
  rcases Scope.latest_of_lookup_after (leads.resolved before name ty after split) with
    latest | ⟨-, found⟩
  · exact latest
  · cases found

end Module

end IntervalHdl
