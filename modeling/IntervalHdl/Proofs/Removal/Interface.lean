import IntervalHdl.Proofs.Removal.Occurrences

/-!
# The interface of a circuit without its intervals

What a removal keeps of a circuit besides its meaning: the modules with their names, ports and
directions, and the tree of statements with the names they declare. The types of ports, wires and
registers are the ones before, with every interval in them, at any depth, replaced by the integer
type that carries it. Expressions play no part in these relations
(`Circuit.sameInterface_of_removeIntervals`).
-/

namespace IntervalHdl
set_option autoImplicit false

open Reported

/-- The second type is the first with each interval in it, at any depth, replaced by its carrier.
Everything else stays: names and flips of fields, sizes, integers and clocks. -/
inductive Ty.IntervalsLowered : Ty → Ty → Prop where
  | interval {t : Interval} {carrier : Ty} (lowered : t.lowered = .ok carrier) :
    IntervalsLowered (.interval t) carrier
  | bundle {fields fields' : List (Field Ty)}
    (each : List.Forall₂ (Field.Related IntervalsLowered) fields fields') :
    IntervalsLowered (.bundle fields) (.bundle fields')
  | vector {elem elem' : Ty} (size : UInt64) (inner : IntervalsLowered elem elem') :
    IntervalsLowered (.vector elem size) (.vector elem' size)
  | uint (width : Width) : IntervalsLowered (.uint width) (.uint width)
  | sint (width : Width) : IntervalsLowered (.sint width) (.sint width)
  | clock : IntervalsLowered .clock .clock
  | unknown : IntervalsLowered .unknown .unknown

/-- Lowering replaces the intervals in a type, and nothing else. -/
theorem Ty.intervalsLowered_of_lower {t t' : Ty} (done : t.lower.outcome = .ok t') :
    t.IntervalsLowered t' := by
  induction t generalizing t' with
  | uint width =>
    cases done
    exact .uint width
  | sint width =>
    cases done
    exact .sint width
  | clock =>
    cases done
    exact .clock
  | unknown =>
    cases done
    exact .unknown
  | interval t =>
    rw [lower_interval_outcome] at done
    exact .interval done
  | bundle fields ih =>
    obtain ⟨fields', each, rfl⟩ := lower_bundle_eq_ok_iff.mp done
    refine .bundle (forall₂_imp_of_mem ?_ (lowerFields_outcome_eq_ok_iff.mp each))
    rintro ⟨name, flip, ty⟩ found ⟨_, _, ty'⟩ ⟨rfl, rfl, tyDone⟩
    exact .mk _ _ (ih _ found tyDone)
  | vector elem size ih =>
    obtain ⟨elem', elemDone, rfl⟩ := lower_vector_eq_ok_iff.mp done
    exact .vector size (ih elemDone)

section Forms

variable (T : Ty → Ty → Prop)

/-- The statements are built alike: the same kind of statement at every position, with the same
declared names, declared types related by `T`, and resets at the same registers. -/
inductive Stmt.SameForm : Stmt → Stmt → Prop where
  | wire {ty ty' : Ty} (name : String) (declared : T ty ty') :
    SameForm (.wire name ty) (.wire name ty')
  | reg {ty ty' : Ty} {clock clock' : Expr} {reset reset' : Option Reset} (name : String)
    (declared : T ty ty') (resets : reset'.isSome = reset.isSome) :
    SameForm (.reg name ty clock reset) (.reg name ty' clock' reset')
  | node {value value' : Expr} (name : String) : SameForm (.node name value) (.node name value')
  | connect {loc loc' value value' : Expr} : SameForm (.connect loc value) (.connect loc' value')
  | partialConnect {loc loc' value value' : Expr} :
    SameForm (.partialConnect loc value) (.partialConnect loc' value')
  | when {cond cond' : Expr} {conseq conseq' alt alt' : Stmt} (conseqForm : SameForm conseq conseq')
    (altForm : SameForm alt alt') : SameForm (.when cond conseq alt) (.when cond' conseq' alt')
  | block {stmts stmts' : List Stmt} (each : List.Forall₂ SameForm stmts stmts') :
    SameForm (.block stmts) (.block stmts')
  | invalid {loc loc' : Expr} : SameForm (.invalid loc) (.invalid loc')
  | skip : SameForm .skip .skip

/-- The modules look alike from outside and are built alike: one name, the same ports in order with
types related by `T`, and bodies, if any, of one form. -/
structure Module.SameInterface (m m' : Module) : Prop where
  name_eq : m'.name = m.name
  ports : List.Forall₂ (fun p p' => p'.name = p.name ∧ p'.direction = p.direction ∧ T p.ty p'.ty)
    m.ports m'.ports
  body : Option.Rel (Stmt.SameForm T) m.body? m'.body?

/-- The circuits hold modules that look alike, in the same order, under the same main one. -/
structure Circuit.SameInterface (c c' : Circuit) : Prop where
  main_eq : c'.main = c.main
  modules : List.Forall₂ (Module.SameInterface T) c.modules c'.modules

end Forms

section Translations

variable {T U : Ty → Ty → Prop} {R : Scope → Expr → Expr → Prop}

/-- A translated statement is built as before. -/
theorem Stmt.Translated.sameForm (weaker : ∀ ty ty', T ty ty' → U ty ty') {s behind : Scope}
    {stmt stmt' : Stmt} (done : Stmt.Translated T R s stmt stmt' behind) :
    Stmt.SameForm U stmt stmt' := by
  induction stmt generalizing s stmt' behind with
  | wire name ty =>
    cases done with
    | wire _ declared => exact .wire name (weaker _ _ declared)
  | reg name ty clock reset =>
    cases done with
    | reg _ declared => exact .reg name (weaker _ _ declared) rfl
    | regReset _ declared => exact .reg name (weaker _ _ declared) rfl
  | node name =>
    cases done
    exact .node name
  | connect =>
    cases done
    exact .connect
  | partialConnect =>
    cases done
    exact .partialConnect
  | when cond conseq alt conseqIh altIh =>
    cases done with
    | when _ conseqDone altDone => exact .when (conseqIh conseqDone) (altIh altDone)
  | block stmts ih =>
    cases done with
    | block chain =>
      exact .block (chain.imp_of_mem (Q := fun _ stmt stmt' _ => Stmt.SameForm U stmt stmt')
        fun stmt found _ _ _ done => ih stmt found done).forall₂
  | invalid =>
    cases done
    exact .invalid
  | skip =>
    cases done
    exact .skip

/-- A translation keeps the interface, with declared types related. -/
theorem Circuit.Translated.sameInterface (weaker : ∀ ty ty', T ty ty' → U ty ty') {c c' : Circuit}
    (done : Circuit.Translated T R c c') : Circuit.SameInterface U c c' := by
  refine ⟨done.main_eq, done.modules.imp fun m m' translated => ?_⟩
  refine ⟨translated.name_eq, translated.ports.imp ?_, ?_⟩
  · intro p p' ⟨name, direction, ty⟩
    exact ⟨name, direction, weaker _ _ ty⟩
  · have body := translated.body
    generalize m.body? = before, m'.body? = after at body ⊢
    cases body with
    | none => exact .none
    | some done =>
      obtain ⟨_, done⟩ := done
      exact .some (done.sameForm weaker)

end Translations

namespace Circuit

/-- A removal that succeeds keeps the interface and the structure of the circuit. The declared types
have their intervals replaced by the types that carry them. -/
theorem sameInterface_of_removeIntervals {c d : Circuit}
    (done : c.removeIntervals.outcome = .ok d) : c.SameInterface Ty.IntervalsLowered d := by
  have translated := translated_of_removeIntervals (R := fun _ _ _ => True)
    (fun _ _ _ _ => trivial) done
  exact translated.sameInterface fun _ _ => Ty.intervalsLowered_of_lower

/-- A bundle of an interval and a vector of intervals that flows the other way. -/
def linkTy : Ty :=
  let ty (p : Nat) : Ty := .interval (.of (.ofInt (-2)) (.ofInt 5) (.known (.ofNat p)))
  .bundle [⟨"value", false, ty 1⟩, ⟨"history", true, .vector (ty 0) 4⟩]

/-- A module with a register that is reset, a wire of aggregate type and a conditional, beside one
that is implemented elsewhere. -/
def linked : Circuit :=
  let flag : Ty := .uint (.known (.ofNat 1))
  let ty : Ty := .interval (.of (.ofInt (-2)) (.ofInt 5) (.known (.ofNat 1)))
  let port : Expr := .ref "link" linkTy
  ⟨"Top", [
    ⟨"Top", [⟨"clk", .input, .clock⟩, ⟨"rst", .input, flag⟩, ⟨"link", .input, linkTy⟩],
      some (.block [
        .wire "w" linkTy,
        .reg "r" ty (.ref "clk" .clock) (some ⟨.ref "rst" flag, .field port "value" ty⟩),
        .when (.ref "rst" flag) (.partialConnect (.ref "w" linkTy) port)
          (.block [.node "n" (.prim .add [.ref "r" ty, .ref "r" ty] [] ty), .skip]),
        .invalid (.ref "w" linkTy)])⟩,
    ⟨"Link", [⟨"end", .output, linkTy⟩], none⟩]⟩

/-- The linked modules keep their interface, up to the integers for their intervals. -/
theorem sameInterface_of_removeIntervals_linked :
    ∃ d, linked.removeIntervals.outcome = .ok d ∧ linked.SameInterface Ty.IntervalsLowered d :=
  ⟨_, rfl, sameInterface_of_removeIntervals (c := linked) rfl⟩

end Circuit

end IntervalHdl
