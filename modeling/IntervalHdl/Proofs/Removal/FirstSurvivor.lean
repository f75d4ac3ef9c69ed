import IntervalHdl.Proofs.IntervalFreedom

/-!
# The first interval left in a circuit

The places of a module where an interval can be left: its ports, the wires and registers that are
declared at any nesting, and every expression with everything inside it. They are listed here
constructor by constructor, in the order in which they are to be blamed. The check finds the first
of them that shows an interval, and there is none exactly when it accepts the circuit
(`Circuit.checkIntervalFree_finds_first`).
-/

namespace IntervalHdl
set_option autoImplicit false

/-- A place where an interval can be left. -/
inductive Site where
  | port (p : Port)
  | declaration (name : String) (ty : Ty)
  | expression (e : Expr)

namespace Site

/-- The type at the place contains an interval, or the operator there is reserved for intervals. -/
def Offends : Site → Prop
  | .port p => p.ty.HasInterval
  | .declaration _ ty => ty.HasInterval
  | .expression e => (∃ op ∈ e.operator?, op.isIntervalOnly = true) ∨ e.ty.HasInterval

/-- What an offending place is blamed for: an operator comes before the type of its result. -/
inductive Shows : Site → Survivor → Prop where
  | port {p : Port} (inside : p.ty.HasInterval) : Shows (.port p) (.port p.name p.ty)
  | declaration {name : String} {ty : Ty} (inside : ty.HasInterval) :
    Shows (.declaration name ty) (.declaration name ty)
  | operator {op : Operator} {e : Expr} (applied : op ∈ e.operator?)
    (reserved : op.isIntervalOnly = true) : Shows (.expression e) (.operator op e)
  | expression {e : Expr} (generic : ∀ op ∈ e.operator?, op.isIntervalOnly = false)
    (inside : e.ty.HasInterval) : Shows (.expression e) (.expression e)

end Site

/-! ## Places in order -/

namespace Expr

mutual

/-- The expression, and behind it the places in its subexpressions. -/
def sites : Expr → List Site
  | .ref name ty => [.expression (.ref name ty)]
  | .field parent name ty => .expression (.field parent name ty) :: parent.sites
  | .index parent position ty => .expression (.index parent position ty) :: parent.sites
  | .uint value width => [.expression (.uint value width)]
  | .sint value width => [.expression (.sint value width)]
  | .prim op args consts ty => .expression (.prim op args consts ty) :: allSites args
  | .mux cond tval fval ty =>
    .expression (.mux cond tval fval ty) :: (cond.sites ++ (tval.sites ++ fval.sites))

/-- The places in expressions that stand one behind the other. -/
def allSites : List Expr → List Site
  | [] => []
  | e :: es => e.sites ++ allSites es

end

end Expr

namespace Stmt

mutual

/-- The declared type of the statement, then the places in its expressions, then those in the
statements inside. -/
def sites : Stmt → List Site
  | .wire name ty => [.declaration name ty]
  | .reg name ty clock none => .declaration name ty :: clock.sites
  | .reg name ty clock (some reset) =>
    .declaration name ty :: (clock.sites ++ (reset.signal.sites ++ reset.init.sites))
  | .node _ value => value.sites
  | .connect loc value => loc.sites ++ value.sites
  | .partialConnect loc value => loc.sites ++ value.sites
  | .when cond conseq alt => cond.sites ++ (conseq.sites ++ alt.sites)
  | .block stmts => allSites stmts
  | .invalid loc => loc.sites
  | .skip => []

/-- The places in statements that stand one behind the other. -/
def allSites : List Stmt → List Site
  | [] => []
  | s :: stmts => s.sites ++ allSites stmts

end

end Stmt

/-- The ports of the module, then the places in its body. -/
def Module.sites (m : Module) : List Site :=
  m.ports.map .port ++ m.body?.toList.flatMap Stmt.sites

/-! ## The search -/

/-- A type shows the survivor it is asked for exactly if an interval occurs in it. -/
theorem Ty.survivor?_eq_some_iff {t : Ty} {shown survivor : Survivor} :
    t.survivor? shown = some survivor ↔ t.HasInterval ∧ shown = survivor := by
  simp [survivor?, ← containsInterval_iff]

/-- An operator shows the survivor it is asked for exactly if it is reserved for intervals. -/
theorem Operator.survivor?_eq_some_iff {op : Operator} {shown survivor : Survivor} :
    op.survivor? shown = some survivor ↔ op.isIntervalOnly = true ∧ shown = survivor := by
  simp [survivor?]

namespace Site

/-- What the search finds at the place itself. -/
def survivor? : Site → Option Survivor
  | .port p => p.survivor?
  | .declaration name ty => ty.survivor? (.declaration name ty)
  | .expression e =>
    (e.operator?.bind fun op => op.survivor? (.operator op e)).or (e.ty.survivor? (.expression e))

theorem survivor?_eq_none_iff {site : Site} : site.survivor? = none ↔ ¬ site.Offends := by
  cases site with
  | port p => exact Ty.survivor?_eq_none_iff
  | declaration name ty => exact Ty.survivor?_eq_none_iff
  | expression e =>
    simp only [survivor?, Option.or_eq_none_iff, Option.bind_eq_none_iff,
      Operator.survivor?_eq_none_iff, Ty.survivor?_eq_none_iff, Offends, not_or, not_exists,
      not_and, Bool.not_eq_true, Option.mem_def]

/-- A site gives exactly the survivor that it shows. -/
theorem survivor?_eq_some_iff {site : Site} {survivor : Survivor} :
    site.survivor? = some survivor ↔ site.Shows survivor := by
  constructor
  · intro found
    cases site with
    | port p =>
      obtain ⟨inside, rfl⟩ := Ty.survivor?_eq_some_iff.mp found
      exact .port inside
    | declaration name ty =>
      obtain ⟨inside, rfl⟩ := Ty.survivor?_eq_some_iff.mp found
      exact .declaration inside
    | expression e =>
      rcases Option.or_eq_some_iff.mp found with found | ⟨generic, found⟩
      · obtain ⟨op, applied, found⟩ := Option.bind_eq_some_iff.mp found
        obtain ⟨reserved, rfl⟩ := Operator.survivor?_eq_some_iff.mp found
        exact .operator applied reserved
      · obtain ⟨inside, rfl⟩ := Ty.survivor?_eq_some_iff.mp found
        refine .expression (fun op applied => ?_) inside
        exact Operator.survivor?_eq_none_iff.mp (Option.bind_eq_none_iff.mp generic op applied)
  · intro shows
    cases shows with
    | port inside => exact Ty.survivor?_eq_some_iff.mpr ⟨inside, rfl⟩
    | declaration inside => exact Ty.survivor?_eq_some_iff.mpr ⟨inside, rfl⟩
    | @operator op e applied reserved =>
      have found : (e.operator?.bind fun op => op.survivor? (.operator op e))
          = some (.operator op e) :=
        Option.bind_eq_some_iff.mpr
          ⟨op, applied, Operator.survivor?_eq_some_iff.mpr ⟨reserved, rfl⟩⟩
      rw [survivor?, found]
      rfl
    | @expression e generic inside =>
      have none : (e.operator?.bind fun op => op.survivor? (.operator op e)) = none :=
        Option.bind_eq_none_iff.mpr fun op applied =>
          Operator.survivor?_eq_none_iff.mpr (generic op applied)
      rw [survivor?, none]
      exact Ty.survivor?_eq_some_iff.mpr ⟨inside, rfl⟩

/-- The first of the places to show something. -/
def first? (sites : List Site) : Option Survivor := sites.findSome? survivor?

@[simp] theorem first?_nil : first? [] = none := rfl

@[simp] theorem first?_cons (site : Site) (sites : List Site) :
    first? (site :: sites) = site.survivor?.or (first? sites) := by
  rw [first?, List.findSome?_cons]
  cases site.survivor? <;> rfl

/-- The sites of a first list come before those of a second. -/
@[simp] theorem first?_append (sites sites' : List Site) :
    first? (sites ++ sites') = (first? sites).or (first? sites') := List.findSome?_append

end Site

/-! ## The order of the search -/

/-- The search through an expression visits its places in order. -/
theorem Expr.survivor?_eq_first? (e : Expr) : e.survivor? = Site.first? e.sites := by
  induction e with
  | ref => simp [survivor?, sites, Site.survivor?, operator?, Expr.ty]
  | uint | sint =>
    simp [survivor?, sites, Site.survivor?, operator?, Expr.ty, Ty.survivor?, Ty.containsInterval]
  | field _ _ _ ih | index _ _ _ ih =>
    simp [survivor?, sites, Site.survivor?, operator?, Expr.ty, ih]
  | prim op args consts ty ih =>
    have operands : firstSurvivor? args = Site.first? (allSites args) := by
      induction args with
      | nil => rfl
      | cons arg args rest =>
        rw [firstSurvivor?, allSites, Site.first?_append, ih arg List.mem_cons_self,
          rest fun arg found => ih arg (List.mem_cons_of_mem _ found)]
    simp [survivor?, sites, Site.survivor?, operator?, Expr.ty, operands, Option.or_assoc]
  | mux cond tval fval ty condIh tvalIh fvalIh =>
    simp [survivor?, sites, Site.survivor?, operator?, Expr.ty, condIh, tvalIh, fvalIh]

/-- The search through a statement visits its places in order. -/
theorem Stmt.survivor?_eq_first? (s : Stmt) : s.survivor? = Site.first? s.sites := by
  have own (s : Stmt) : s.ownSurvivor? =
      s.declarationSurvivor?.or (Site.first? (s.exprs.flatMap Expr.sites)) := by
    rw [ownSurvivor?]
    congr 1
    induction s.exprs with
    | nil => rfl
    | cons e es ih =>
      rw [Expr.firstSurvivor?, ih, List.flatMap_cons, Site.first?_append, Expr.survivor?_eq_first?]
  induction s with
  | reg name ty clock reset =>
    cases reset <;> simp [survivor?, own, declarationSurvivor?, declaredName?, declaredTy?, exprs,
      sites, Site.survivor?]
  | wire | node | connect | partialConnect | invalid =>
    simp [survivor?, own, declarationSurvivor?, declaredName?, declaredTy?, exprs, sites,
      Site.survivor?]
  | when cond conseq alt conseqIh altIh =>
    simp [survivor?, own, declarationSurvivor?, declaredName?, exprs, sites, conseqIh, altIh]
  | block stmts ih =>
    rw [survivor?, sites]
    induction stmts with
    | nil => rfl
    | cons s stmts rest =>
      rw [firstSurvivor?, allSites, Site.first?_append, ih s List.mem_cons_self,
        rest fun s found => ih s (List.mem_cons_of_mem _ found)]
  | skip => rfl

/-- The search through a module is the search through its sites. -/
theorem Module.survivor?_eq_first? (m : Module) : m.survivor? = Site.first? m.sites := by
  obtain ⟨name, ports, body?⟩ := m
  have blame : ports.findSome? Port.survivor? = Site.first? (ports.map .port) := by
    rw [Site.first?, List.findSome?_map]
    rfl
  cases body? with
  | none => simp [survivor?, sites, blame]
  | some body => simp [survivor?, sites, blame, Stmt.survivor?_eq_first?]

namespace Site

/-- No place shows anything exactly when none offends. -/
theorem first?_eq_none_iff {sites : List Site} :
    first? sites = none ↔ ∀ site ∈ sites, ¬ site.Offends := by
  simp only [first?, List.findSome?_eq_none_iff, survivor?_eq_none_iff]

/-- What is shown first is shown by a place that has no offender before it. -/
theorem first?_eq_some_iff {sites : List Site} {survivor : Survivor} :
    first? sites = some survivor ↔
      ∃ earlier site later, sites = earlier ++ site :: later ∧
        (∀ x ∈ earlier, ¬ x.Offends) ∧ site.Shows survivor := by
  simp only [first?, List.findSome?_eq_some_iff, survivor?_eq_none_iff, survivor?_eq_some_iff,
    and_comm (a := Shows _ _)]

end Site

/-- The survivor is what the first offending place of the circuit shows, and the module is the one
with that place. -/
def Circuit.FirstSurvivor (c : Circuit) (m : Module) (survivor : Survivor) : Prop :=
  ∃ before after earlier site later,
    c.modules = before ++ m :: after ∧ m.sites = earlier ++ site :: later ∧
      (∀ m ∈ before, ∀ site ∈ m.sites, ¬ site.Offends) ∧ (∀ site ∈ earlier, ¬ site.Offends) ∧
      site.Shows survivor

/-- The check accepts a circuit exactly when no place in it offends. Otherwise it fails with what
the first offending place shows, and names the module of that place. -/
theorem Circuit.checkIntervalFree_finds_first (c : Circuit) :
    (c.checkIntervalFree = .ok () ↔ ∀ m ∈ c.modules, ∀ site ∈ m.sites, ¬ site.Offends) ∧
    ∀ cause, c.checkIntervalFree = .error cause ↔
      ∃ m survivor, c.FirstSurvivor m survivor ∧ cause = .survived m.name survivor := by
  have passes (m : Module) :
      m.checkIntervalFree = .ok () ↔ ∀ site ∈ m.sites, ¬ site.Offends := by
    rw [← Site.first?_eq_none_iff, ← m.survivor?_eq_first?, Module.checkIntervalFree]
    cases m.survivor? <;> simp
  have fails (m : Module) (cause : RemovalError) : m.checkIntervalFree = .error cause ↔
      ∃ survivor, Site.first? m.sites = some survivor ∧ cause = .survived m.name survivor := by
    rw [← m.survivor?_eq_first?, Module.checkIntervalFree]
    cases m.survivor? <;> simp [eq_comm]
  constructor
  · rw [checkIntervalFree, forM_eq_ok_iff]
    exact forall₂_congr fun m _ => passes m
  · intro cause
    simp only [checkIntervalFree, forM_eq_error_iff, passes, fails, Site.first?_eq_some_iff]
    constructor
    · rintro ⟨before, m, after, modules, free, survivor,
        ⟨earlier, site, later, sites, ahead, shows⟩, rfl⟩
      exact ⟨m, survivor,
        ⟨before, after, earlier, site, later, modules, sites, free, ahead, shows⟩, rfl⟩
    · rintro ⟨m, survivor,
        ⟨before, after, earlier, site, later, modules, sites, free, ahead, shows⟩, rfl⟩
      exact ⟨before, m, after, modules, free, survivor,
        ⟨earlier, site, later, sites, ahead, shows⟩, rfl⟩

/-- In the branch of a conditional a reserved operator is blamed before its type and its operand. -/
example (t : Interval) :
    let cast : Expr := .prim .incp [.ref "a" (.interval t)] [1] (.interval t)
    let body : Stmt := .when (.uint 1 .unknown) .skip (.invalid cast)
    Circuit.checkIntervalFree ⟨"M", [⟨"M", [⟨"a", .input, .clock⟩], some body⟩]⟩ =
      .error (.survived "M" (.operator .incp cast)) := rfl

end IntervalHdl
