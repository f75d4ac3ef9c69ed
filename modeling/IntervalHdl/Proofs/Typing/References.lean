import IntervalHdl.Proofs.Typing.Mentions

/-!
# Which declaration a reference means

In a typed module every reference is at the type of the latest declaration of its name before it.
The other direction goes over the ways in which inference can fail: no rule blames a name, and a
scope that does not know one has met no declaration of it, so a name that inference calls undeclared
has a reference without a declaration before it (`Circuit.references_resolve`).
-/

namespace IntervalHdl
set_option autoImplicit false

/-! ## Mentions up to types -/

/-- Recorded types have no influence on what an expression refers to. -/
theorem Expr.untyped_references_skeleton (e : Expr) :
    e.skeleton.references.map Mention.untyped = e.references.map Mention.untyped := by
  have each (x : Expr) :
      x.skeleton.reference?.map Mention.untyped = x.reference?.map Mention.untyped := by
    cases x <;> rfl
  rw [references, references, nodes_skeleton, List.filterMap_map, List.map_filterMap,
    List.map_filterMap]
  exact List.filterMap_congr fun x _ => each x

/-- Recorded types have no influence on what a statement declares and refers to. -/
theorem Stmt.untyped_mentions_skeleton (s : Stmt) :
    s.skeleton.mentions.map Mention.untyped = s.mentions.map Mention.untyped := by
  induction s with
  | reg name ty clock reset =>
    cases reset <;>
      simp only [skeleton, mentions, List.map_append, Expr.untyped_references_skeleton]
  | node name value =>
    simp only [skeleton, mentions, List.map_append, Expr.untyped_references_skeleton]
    rfl
  | when cond conseq alt conseqIh altIh =>
    simp only [skeleton, mentions, List.map_append, Expr.untyped_references_skeleton, conseqIh,
      altIh]
  | block stmts ih =>
    rw [skeleton, mentions, mentions]
    induction stmts with
    | nil => rfl
    | cons stmt stmts rest =>
      have tail := rest fun stmt found => ih stmt (List.mem_cons_of_mem _ found)
      simp only [skeletons, allMentions, List.map_append, ih stmt List.mem_cons_self, tail]
  | _ => simp only [skeleton, mentions, List.map_append, Expr.untyped_references_skeleton]

/-- Statements of one skeleton mention the same names in the same order. -/
theorem Stmt.untyped_mentions_eq {s s' : Stmt} (same : s'.skeleton = s.skeleton) :
    s'.mentions.map Mention.untyped = s.mentions.map Mention.untyped := by
  rw [← untyped_mentions_skeleton s', same, untyped_mentions_skeleton s]

/-- Modules of one skeleton mention the same names in the same order. -/
theorem Module.untyped_mentions_eq {m m' : Module} (same : m'.skeleton = m.skeleton) :
    m'.mentions.map Mention.untyped = m.mentions.map Mention.untyped := by
  have each (m : Module) : m.skeleton.mentions.map Mention.untyped
      = m.mentions.map Mention.untyped := by
    obtain ⟨name, ports, body?⟩ := m
    cases body? with
    | none => rfl
    | some body => simp [mentions, skeleton, Stmt.untyped_mentions_skeleton]
  rw [← each m', same, each m]

/-! ## Names that inference blames -/

/-- The cause is not that a name is undeclared. -/
def TypingError.BlamesNoName (cause : TypingError) : Prop := ∀ name, cause ≠ .undeclared name

namespace Operator

variable {op : Operator} {args : List Expr} {consts : List Int}

theorem failsWithin_integer (t : Ty) :
    FailsWithin TypingError.BlamesNoName (op.integer t) := by
  cases t <;> simp [integer, FailsWithin, TypingError.BlamesNoName]

theorem failsWithin_sameSign (a b : Ty) :
    FailsWithin TypingError.BlamesNoName (op.sameSign a b) := by
  refine failsWithin_bind (failsWithin_integer a) fun _ => ?_
  refine failsWithin_bind (failsWithin_integer b) fun _ => ?_
  dsimp only
  split
  · exact failsWithin_ok _
  · exact failsWithin_error nofun

theorem failsWithin_bitCount (value : Int) :
    FailsWithin TypingError.BlamesNoName (op.bitCount value) := by
  unfold bitCount
  split
  · exact failsWithin_ok _
  · exact failsWithin_error nofun

theorem failsWithin_rawWidth (t : Ty) :
    FailsWithin TypingError.BlamesNoName (op.rawWidth t) := by
  cases t <;> simp [rawWidth, FailsWithin, TypingError.BlamesNoName]

theorem failsWithin_shiftWidth (t : Ty) :
    FailsWithin TypingError.BlamesNoName (op.shiftWidth t) := by
  cases t <;> simp [shiftWidth, FailsWithin, TypingError.BlamesNoName]

/-- A rule of one operand blames no name if its types do not. -/
theorem failsWithin_unary {rule : Ty → Except TypingError Ty}
    (within : ∀ t, FailsWithin TypingError.BlamesNoName (rule t)) :
    FailsWithin TypingError.BlamesNoName (op.unary args consts rule) := by
  unfold unary
  split
  · exact within _
  · exact failsWithin_error nofun

/-- A rule of two operands blames no name if its types do not. -/
theorem failsWithin_binary {rule : Ty → Ty → Except TypingError Ty}
    (within : ∀ t u, FailsWithin TypingError.BlamesNoName (rule t u)) :
    FailsWithin TypingError.BlamesNoName (op.binary args consts rule) := by
  unfold binary
  split
  · exact within _ _
  · exact failsWithin_error nofun

/-- A rule of one operand and an amount blames no name if its types do not. -/
theorem failsWithin_unaryBy {rule : Ty → BitCount → Except TypingError Ty}
    (within : ∀ t n, FailsWithin TypingError.BlamesNoName (rule t n)) :
    FailsWithin TypingError.BlamesNoName (op.unaryBy args consts rule) := by
  unfold unaryBy
  split
  · exact failsWithin_bind (failsWithin_bitCount _) fun _ => within _ _
  · exact failsWithin_error nofun

/-- The rule of bit selection blames no name. -/
theorem failsWithin_bitsTy :
    FailsWithin TypingError.BlamesNoName (bitsTy args consts) := by
  unfold bitsTy
  split
  · refine failsWithin_bind (failsWithin_bitCount _) fun _ => ?_
    refine failsWithin_bind (failsWithin_bitCount _) fun _ => ?_
    refine failsWithin_bind (failsWithin_integer _) fun _ => ?_
    dsimp only
    split
    · exact failsWithin_error nofun
    · exact failsWithin_ok _
  · exact failsWithin_error nofun

/-- The rules of operators blame no name. -/
theorem failsWithin_resultTy :
    FailsWithin TypingError.BlamesNoName (op.resultTy args consts) := by
  unfold resultTy
  cases op with
  | asInterval | incp | decp | setp | wrap | clip => exact failsWithin_error nofun
  | add | sub | mul | div | rem | lt | leq | gt | geq | eq | neq | and | or | xor | cat =>
    exact failsWithin_binary fun _ _ =>
      failsWithin_bind (failsWithin_sameSign _ _) fun _ => failsWithin_ok _
  | dshl | dshr =>
    exact failsWithin_binary fun _ _ => failsWithin_bind (failsWithin_integer _) fun _ =>
      failsWithin_bind (failsWithin_shiftWidth _) fun _ => failsWithin_ok _
  | pad | shl | shr | head | tail =>
    exact failsWithin_unaryBy fun _ _ =>
      failsWithin_bind (failsWithin_integer _) fun _ => failsWithin_ok _
  | asUInt | asSInt =>
    exact failsWithin_unary fun _ =>
      failsWithin_bind (failsWithin_rawWidth _) fun _ => failsWithin_ok _
  | cvt | neg | not | andr | orr | xorr =>
    exact failsWithin_unary fun _ =>
      failsWithin_bind (failsWithin_integer _) fun _ => failsWithin_ok _
  | bits => exact failsWithin_bitsTy

end Operator

/-- The rule of selections blames no name. -/
theorem failsWithin_muxTy (a b : Ty) :
    FailsWithin TypingError.BlamesNoName (muxTy a b) := by
  unfold muxTy
  split
  · exact failsWithin_ok _
  · exact failsWithin_ok _
  · split
    · exact failsWithin_ok _
    · exact failsWithin_error nofun

namespace Scope

open Mention

variable {s between : Scope} {ms ms' : List Mention}

/-- What is not known behind the list is neither declared in it nor known in front of it. -/
def Spans (s : Scope) (ms : List Mention) (behind : Scope) : Prop :=
  ∀ name, behind.lookup name = none → Undeclared ms name ∧ s.lookup name = none

/-- The cause is an undeclared name only if the list refers to the name where neither it nor the
scope in front of it has declared it. -/
def Blames (s : Scope) (ms : List Mention) (cause : TypingError) : Prop :=
  ∀ name, cause = .undeclared name → Dangling ms name ∧ s.lookup name = none

theorem spans_after (s : Scope) (ms : List Mention) : s.Spans ms (s.after ms) :=
  fun _ => undeclared_of_lookup_after

theorem spans_references (s : Scope) (e : Expr) : s.Spans e.references s :=
  fun name unknown => ⟨e.undeclared_references name, unknown⟩

/-- A cause in the first of two lists is one in both together. -/
theorem Blames.ahead {cause : TypingError} (blames : s.Blames ms cause) :
    s.Blames (ms ++ ms') cause := by
  intro name same
  obtain ⟨⟨before, ty, after, rfl, none⟩, unknown⟩ := blames name same
  exact ⟨⟨before, ty, after ++ ms', by simp, none⟩, unknown⟩

/-- A cause in the second of two lists is one in both together, read in the scope behind the first.
-/
theorem Blames.behind {cause : TypingError} (spans : s.Spans ms between)
    (blames : between.Blames ms' cause) : s.Blames (ms ++ ms') cause := by
  intro name same
  obtain ⟨⟨before, ty, after, rfl, none⟩, unknown⟩ := blames name same
  obtain ⟨none', unknown⟩ := spans name unknown
  have split : ms ++ (before ++ .reference name ty :: after)
      = ms ++ before ++ .reference name ty :: after := by
    rw [List.append_assoc]
  exact ⟨⟨ms ++ before, ty, after, split, undeclared_append_iff.mpr ⟨none', none⟩⟩, unknown⟩

/-- A sequence blames a name for its first part, or for the rest in the scope behind that. -/
theorem failsWithin_blames_bind {α β : Type} {x : Except TypingError α}
    {f : α → Except TypingError β} (first : FailsWithin (s.Blames ms) x)
    (next : ∀ a, x = .ok a →
      ∃ between, s.Spans ms between ∧ FailsWithin (between.Blames ms') (f a)) :
    FailsWithin (s.Blames (ms ++ ms')) (x >>= f) := by
  refine failsWithin_bind_of_ok (first.imp fun _ => Blames.ahead) fun a found => ?_
  obtain ⟨between, spans, rest⟩ := next a found
  exact rest.imp fun _ => Blames.behind spans

end Scope

namespace Expr

open Mention

variable {s : Scope}

/-- Within one expression every reference dangles, since nothing is declared there. -/
theorem dangling_references_iff {e : Expr} {name : String} :
    Dangling e.references name ↔ ∃ ty, .ref name ty ∈ e.nodes := by
  constructor
  · rintro ⟨before, ty, after, split, -⟩
    have present : .reference name ty ∈ e.references := by
      rw [split]
      simp
    obtain ⟨_, _, present, same⟩ := mem_references_iff.mp present
    cases same
    exact ⟨ty, present⟩
  · rintro ⟨ty, present⟩
    obtain ⟨before, after, split⟩ :=
      List.append_of_mem (mem_references_iff.mpr ⟨name, ty, present, rfl⟩)
    have none := e.undeclared_references name
    rw [split, undeclared_append_iff] at none
    exact ⟨before, ty, after, split, none.1⟩

/-- A node blames a name only if it is a reference to it. -/
theorem failsWithin_inferNode (s : Scope) (e : Expr) :
    FailsWithin (fun cause => ∀ name, cause = .undeclared name →
      (∃ ty, e = .ref name ty) ∧ s.lookup name = none) (inferNode s e) := by
  have spare (cause : TypingError) (harmless : cause.BlamesNoName) (name : String)
      (same : cause = .undeclared name) : (∃ ty, e = .ref name ty) ∧ s.lookup name = none :=
    (harmless name same).elim
  cases e with
  | ref name ty =>
    refine failsWithin_bind ?_ fun _ => failsWithin_ok _
    unfold Scope.resolve
    split
    · exact failsWithin_ok _
    · rename_i unknown
      refine failsWithin_error fun _ same => ?_
      cases same
      exact ⟨⟨ty, rfl⟩, unknown⟩
  | field =>
    rw [inferNode]
    split
    · exact failsWithin_ok _
    · exact failsWithin_error (spare _ (by simp [TypingError.BlamesNoName]))
  | index =>
    rw [inferNode]
    split
    · split
      · exact failsWithin_ok _
      · exact failsWithin_error (spare _ (by simp [TypingError.BlamesNoName]))
    · exact failsWithin_error (spare _ (by simp [TypingError.BlamesNoName]))
  | uint | sint => exact failsWithin_ok _
  | prim =>
    exact failsWithin_bind (Operator.failsWithin_resultTy.imp spare) fun _ =>
      failsWithin_ok _
  | mux =>
    rw [inferNode]
    split
    · exact failsWithin_bind ((failsWithin_muxTy _ _).imp spare) fun _ => failsWithin_ok _
    · exact failsWithin_error (spare _ (by simp [TypingError.BlamesNoName]))

/-- An expression blames a name that it refers to and the scope does not know. -/
theorem failsWithin_infer (s : Scope) (e : Expr) :
    FailsWithin (s.Blames e.references) (e.infer s) := by
  have inside {e child : Expr} (among : child ∈ e.children) (cause : TypingError)
      (blames : s.Blames child.references cause) : s.Blames e.references cause := by
    intro name same
    obtain ⟨dangling, unknown⟩ := blames name same
    obtain ⟨ty, present⟩ := dangling_references_iff.mp dangling
    exact ⟨dangling_references_iff.mpr ⟨ty, mem_nodes_iff.mpr (.inl ⟨child, among, present⟩)⟩,
      unknown⟩
  have compound {e : Expr} (e' : Expr) (noRef : e'.reference? = none) :
      FailsWithin (s.Blames e.references) (inferNode s e') := by
    refine (failsWithin_inferNode s e').imp fun cause blames name same => ?_
    obtain ⟨⟨ty, rfl⟩, -⟩ := blames name same
    cases noRef
  induction e with
  | ref name ty =>
    refine (failsWithin_inferNode s (.ref name ty)).imp fun cause blames name' same => ?_
    obtain ⟨⟨ty', found⟩, unknown⟩ := blames name' same
    exact ⟨dangling_references_iff.mpr ⟨ty', by simp [nodes, found]⟩, unknown⟩
  | uint value width => exact compound (.uint value width) rfl
  | sint value width => exact compound (.sint value width) rfl
  | field _ _ _ ih | index _ _ _ ih =>
    exact failsWithin_bind (ih.imp (inside List.mem_cons_self)) fun _ => compound _ rfl
  | prim op args consts ty ih =>
    refine failsWithin_bind ?_ fun _ => compound _ rfl
    rw [replaceAllUpM_eq_mapM]
    exact failsWithin_mapM fun arg found => (ih arg found).imp (inside found)
  | mux cond tval fval ty condIh tvalIh fvalIh =>
    refine failsWithin_bind (condIh.imp (inside (by simp [children]))) fun _ => ?_
    refine failsWithin_bind (tvalIh.imp (inside (by simp [children]))) fun _ => ?_
    exact failsWithin_bind (fvalIh.imp (inside (by simp [children]))) fun _ => compound _ rfl

end Expr

namespace Stmt

open Scope

/-- What is not known behind a typed statement is neither declared in it nor known before. -/
theorem spans_of_infer {s behind : Scope} {stmt stmt' : Stmt}
    (typed : stmt.infer s = .ok (stmt', behind)) : s.Spans stmt.mentions behind := by
  intro name unknown
  rw [← (leads_of_infer typed).after_eq] at unknown
  obtain ⟨none, unknown⟩ := undeclared_of_lookup_after unknown
  have same : stmt'.skeleton = stmt.skeleton :=
    (translated_of_infer typed).skeleton_eq fun _ _ _ => Expr.skeleton_of_infer
  exact ⟨(Mention.undeclared_congr (untyped_mentions_eq same)).mp none, unknown⟩

/-- A statement blames a name that it refers to before anything declares it. -/
theorem failsWithin_infer (s : Scope) (stmt : Stmt) :
    FailsWithin (s.Blames stmt.mentions) (stmt.infer s) := by
  induction stmt generalizing s with
  | wire | skip => exact failsWithin_ok _
  | reg name ty clock reset =>
    have declared : s.Spans [.declaration name ty] (s.declare name ty) := s.spans_after _
    cases reset with
    | none =>
      have blames := failsWithin_bind (clock.failsWithin_infer (s.declare name ty)) fun clock' =>
        failsWithin_ok (Stmt.reg name ty clock' none, s.declare name ty)
      exact blames.imp fun _ => Blames.behind declared
    | some reset =>
      refine FailsWithin.imp ?_ fun _ => Blames.behind declared
      refine failsWithin_blames_bind (clock.failsWithin_infer _) fun _ _ =>
        ⟨_, spans_references _ clock, ?_⟩
      refine failsWithin_blames_bind (reset.signal.failsWithin_infer _) fun _ _ =>
        ⟨_, spans_references _ reset.signal, ?_⟩
      exact failsWithin_bind (reset.init.failsWithin_infer _) fun _ => failsWithin_ok _
  | node name value =>
    exact failsWithin_blames_bind (value.failsWithin_infer s) fun _ _ =>
      ⟨_, spans_references s value, failsWithin_ok _⟩
  | connect loc value | partialConnect loc value =>
    exact failsWithin_blames_bind (loc.failsWithin_infer s) fun _ _ =>
      ⟨_, spans_references s loc,
        failsWithin_bind (value.failsWithin_infer s) fun _ => failsWithin_ok _⟩
  | when cond conseq alt conseqIh altIh =>
    refine failsWithin_blames_bind (cond.failsWithin_infer s) fun _ _ =>
      ⟨_, spans_references s cond, ?_⟩
    refine failsWithin_blames_bind (conseqIh s) fun (_, behind) typed =>
      ⟨behind, spans_of_infer typed, ?_⟩
    exact failsWithin_bind (altIh behind) fun _ => failsWithin_ok _
  | block stmts ih =>
    refine failsWithin_bind (?_ : FailsWithin (s.Blames (allMentions stmts)) (inferAll s stmts))
      fun _ => failsWithin_ok _
    induction stmts generalizing s with
    | nil => exact failsWithin_ok _
    | cons stmt stmts rest =>
      refine failsWithin_blames_bind (ih stmt List.mem_cons_self s) fun (_, behind) typed =>
        ⟨behind, spans_of_infer typed, ?_⟩
      have tail := rest (fun stmt found => ih stmt (List.mem_cons_of_mem _ found)) behind
      exact failsWithin_bind tail fun _ => failsWithin_ok _
  | invalid loc => exact failsWithin_bind (loc.failsWithin_infer s) fun _ => failsWithin_ok _

end Stmt

/-! ## Modules and circuits -/

namespace Module

open Mention

/-- A module blames a name that it refers to before anything declares it. -/
theorem failsWithin_infer (m : Module) :
    FailsWithin (fun cause => ∀ name, cause = .undeclared name → Dangling m.mentions name)
      m.infer := by
  obtain ⟨name, ports, body?⟩ := m
  cases body? with
  | none => exact failsWithin_ok _
  | some body =>
    refine failsWithin_bind ?_ fun _ => failsWithin_ok _
    refine failsWithin_bind ?_ fun _ => failsWithin_ok _
    refine (body.failsWithin_infer (Scope.ofPorts ports)).imp fun cause blames name same => ?_
    rw [Scope.ofPorts_eq_after] at blames
    have behind := Scope.Blames.behind (Scope.spans_after [] _) blames
    simpa [mentions] using (behind name same).1

end Module

/-- In a typed circuit every reference is at the type of the latest declaration of its name before
it, in a module that differs from the one inference was given in recorded types only. If a reference
has no declaration before it, inference fails, and a name that inference calls undeclared has such a
reference. -/
theorem Circuit.references_resolve (c : Circuit) :
    (∀ d, c.infer = .ok d →
      d.skeleton = c.skeleton ∧ ∀ m ∈ d.modules, Mention.Resolved m.mentions) ∧
    (∀ m ∈ c.modules, ∀ name, Mention.Dangling m.mentions name →
      ∃ cause, c.infer = .error cause) ∧
    ∀ name, c.infer = .error (.undeclared name) →
      ∃ m ∈ c.modules, Mention.Dangling m.mentions name := by
  refine ⟨fun d typed => ?_, fun m present name dangling => ?_, fun name failed => ?_⟩
  · obtain ⟨-, modules⟩ := mapModulesM_eq_ok_iff.mp typed
    exact ⟨skeleton_of_infer typed,
      forall_mem_of_forall₂ modules fun _ _ _ => Module.resolved_of_infer⟩
  · cases outcome : c.infer with
    | error cause => exact ⟨cause, rfl⟩
    | ok d =>
      -- the reference would be resolved in the typed module, which mentions the same names
      obtain ⟨-, modules⟩ := mapModulesM_eq_ok_iff.mp outcome
      obtain ⟨m', -, typed⟩ := mem_exists_of_forall₂ modules present
      have same := Module.untyped_mentions_eq (Module.skeleton_of_infer typed)
      obtain ⟨before, ty, after, split, none⟩ := dangling.congr same
      obtain ⟨earlier, later, rfl, -⟩ :=
        Module.resolved_of_infer typed before name ty after split
      exact (none ty (by simp)).elim
  · have within : FailsWithin (fun cause => ∀ name, cause = .undeclared name →
        ∃ m ∈ c.modules, Mention.Dangling m.mentions name) c.infer := by
      refine failsWithin_bind ?_ fun _ => failsWithin_ok _
      refine failsWithin_mapM fun m present => ?_
      exact m.failsWithin_infer.imp fun cause blames name same => ⟨m, present, blames name same⟩
    exact within _ failed name rfl

/-- A wire that the one branch declares hides the port from the other. -/
example (ty : Ty) :
    let ports : List Port := [⟨"a", .input, .clock⟩]
    let body (ty : Ty) : Stmt := .when (.uint 1 .unknown) (.wire "a" (.sint .unknown))
      (.invalid (.ref "a" ty))
    Module.infer ⟨"M", ports, some (body ty)⟩ = .ok ⟨"M", ports, some (body (.sint .unknown))⟩ :=
  rfl

end IntervalHdl
