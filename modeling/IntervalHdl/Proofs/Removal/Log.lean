import IntervalHdl.Removal
import IntervalHdl.Proofs.Sequencing

/-!
# The log against the counts

Events and counts are kept apart, and a step may fail between two that belong together. Here the
events are read off a log by level and message and set against the tally: `LogMatches`. Two runs
that differ in whether remainders are warned of are compared step by step: `Unwarned` says that the
warnings are all that sets their reports apart, and that the log matches the tally. Sequencing keeps
it, through failures too, so it holds of whole runs.
-/

namespace IntervalHdl
set_option autoImplicit false

/-! ## Reading a log -/

namespace Event

/-- The event has that level and one of those messages. -/
def reads (level : Level) (messages : List String) (event : Event) : Bool :=
  event.level == level && messages.contains event.message

/-- The event warns. -/
def warns (event : Event) : Bool := event.level == .warn

end Event

/-- The log tells as often as the tally counts of rescales, saturations and wraps; of remainders it
warns as often as they are counted if `warn` is set, and else never. -/
structure LogMatches (warn : Bool) (log : List Event) (tally : Tally) : Prop where
  rescales : log.countP (Event.reads .trace ["inserting incp", "inserting decp"]) = tally.rescales
  clips : log.countP (Event.reads .trace ["clip"]) = tally.saturates.total
  wraps : log.countP (Event.reads .trace ["wrap"]) = tally.wraps.total + tally.remainderWraps
  warnings : log.countP Event.warns = if warn then tally.remainderWraps else 0

/-- A message told at the trace level is no warning. -/
theorem Event.not_warns_of_reads {messages : List String} {event : Event}
    (told : event.reads .trace messages = true) : event.warns = false := by
  simp only [reads, Bool.and_eq_true, beq_iff_eq] at told
  rw [warns, told.1]
  rfl

/-- Leaving the warnings out of a log changes no count of such messages. -/
theorem countP_reads_unwarned (messages : List String) (log : List Event) :
    (log.filter (!·.warns)).countP (Event.reads .trace messages) =
      log.countP (Event.reads .trace messages) := by
  rw [List.countP_filter]
  refine List.countP_congr fun event _ => ?_
  simp only [Bool.and_eq_true, and_iff_left_iff_imp]
  exact fun told => by rw [Event.not_warns_of_reads told]; rfl

namespace LogMatches

variable {warn : Bool} {log more : List Event} {t u : Tally}

theorem empty : LogMatches warn [] {} := ⟨rfl, rfl, rfl, (ite_self 0).symm⟩

/-- Counts of one log after another are the sums of the counts. -/
theorem append (first : LogMatches warn log t) (next : LogMatches warn more u) :
    LogMatches warn (log ++ more) (t + u) where
  rescales := by
    rw [List.countP_append, first.rescales, next.rescales, Tally.rescales_add]
  clips := by
    rw [List.countP_append, first.clips, next.clips, Tally.saturates_add, ActionCounts.total_add]
  wraps := by
    rw [List.countP_append, first.wraps, next.wraps, Tally.wraps_add, ActionCounts.total_add,
      Tally.remainderWraps_add]
    omega
  warnings := by
    rw [List.countP_append, first.warnings, next.warnings, Tally.remainderWraps_add]
    cases warn <;> rfl

/-- Without its warnings the log is that of a run that does not warn. -/
theorem unwarned (told : LogMatches true log t) : LogMatches false (log.filter (!·.warns)) t where
  rescales := by rw [countP_reads_unwarned, told.rescales]
  clips := by rw [countP_reads_unwarned, told.clips]
  wraps := by rw [countP_reads_unwarned, told.wraps]
  warnings := by
    rw [List.countP_eq_zero.mpr]
    · rfl
    · intro event kept
      simpa using (List.mem_filter.mp kept).2

/-- An inserted rescale is told with the operator that it inserts. -/
theorem rescaled (e : Expr) (source target : BitCount) :
    LogMatches warn [.rescaled e source target] { rescales := 1 } := by
  -- the message names one of two operators
  by_cases raises : source < target <;>
    constructor <;> simp [Event.reads, Event.warns, Event.message, Event.level, Operator.name,
      raises, ActionCounts.total]

/-- The event of a saturation is counted once, on the sides that its action compares. -/
theorem clipped (check : RangeCheck) (action : SaturateAction) :
    LogMatches true [.clipped check action] { saturates := .one action.sides } :=
  ⟨rfl, (ActionCounts.total_one _).symm, rfl, rfl⟩

/-- The event of a wrap by corrections is counted once, on the sides that they are on. -/
theorem corrected (check : RangeCheck) (action : WrapAction) (sides : Sides) :
    LogMatches true [.wrapped check action] { wraps := .one sides } :=
  ⟨rfl, rfl, (ActionCounts.total_one _).symm, rfl⟩

/-- A remainder is told as a wrap, and warned of besides. -/
theorem remainder (check : RangeCheck) (action : WrapAction) (value : Expr) :
    LogMatches true [.wrapped check action, .remainderNeeded value check] { remainderWraps := 1 } :=
  ⟨rfl, rfl, rfl, rfl⟩

/-- An event that is no decision and no warning has no part in the counts. -/
theorem aside {event : Event} (traces : (event.level == .trace) = false)
    (silent : event.warns = false) : LogMatches warn [event] {} := by
  constructor <;> simp [Event.reads, traces, silent, ActionCounts.total]

end LogMatches

theorem Reported.tell_bind {ε α : Type} (event : Event) (f : Unit → Reported ε α) :
    tell event >>= f = ⟨{ events := [event] } ++ (f ()).report, (f ()).outcome⟩ :=
  bind_of_ok (outcome_tell event) f

/-! ## Alignment -/

/-- The computation counts nothing but rescales, tells every one of them, and warns of nothing. -/
def OnlyRescales {α : Type} (x : Reported RemovalError α) : Prop :=
  ∃ n : Nat, x.report.tally = { rescales := n } ∧
    LogMatches false x.report.events { rescales := n }

namespace OnlyRescales

variable {α β : Type} {x : Reported RemovalError α}

theorem pure (a : α) : OnlyRescales (pure a) := ⟨0, rfl, .empty⟩

theorem fail (e : RemovalError) : OnlyRescales (.fail e : Reported RemovalError α) :=
  ⟨0, rfl, .empty⟩

theorem ofExcept (x : Except RemovalError α) : OnlyRescales (.ofExcept x) := ⟨0, rfl, .empty⟩

/-- Steps in sequence report only rescales if each does. -/
theorem bind {f : α → Reported RemovalError β} (first : OnlyRescales x)
    (next : ∀ a, OnlyRescales (f a)) : OnlyRescales (x >>= f) := by
  cases outcome : x.outcome with
  | error e =>
    rw [Reported.bind_of_error outcome]
    exact first
  | ok a =>
    obtain ⟨n, counted, told⟩ := first
    obtain ⟨k, countedNext, toldNext⟩ := next a
    rw [Reported.bind_of_ok outcome]
    refine ⟨n + k, ?_, told.append toldNext⟩
    rw [Report.tally_append, counted, countedNext]
    rfl

/-- Sequencing keeps it, so it is kept by whatever goes through a circuit. -/
theorem sequential : Sequential fun α (x _ : Reported RemovalError α) => OnlyRescales x where
  pure := pure
  bind := bind

theorem map (f : α → β) (first : OnlyRescales x) : OnlyRescales (f <$> x) :=
  sequential.map (y := x) f first

theorem mapM {f : α → Reported RemovalError β} {as : List α}
    (each : ∀ a ∈ as, OnlyRescales (f a)) : OnlyRescales (as.mapM f) :=
  sequential.mapM (g := f) each

end OnlyRescales

namespace Expr

/-- The one step of alignment that counts tells what it counts. -/
theorem onlyRescales_rescale (target : BitCount) (e : Expr) : OnlyRescales (e.rescale target) := by
  unfold rescale
  cases e.ty with
  | interval t =>
    refine (OnlyRescales.ofExcept t.knownPoint).bind fun source => ?_
    split
    · exact .pure e
    · exact ⟨1, rfl, .rescaled e source target⟩
  | _ => exact .fail _

/-- Aligning an operator reports only the rescales of its operands. -/
theorem onlyRescales_alignPrim (op : Operator) (args : List Expr) (consts : List Int) (ty : Ty) :
    OnlyRescales (alignPrim op args consts ty) := by
  unfold alignPrim
  split
  · exact (OnlyRescales.ofExcept _).bind fun operands =>
      onlyRescales_rescale operands.2 operands.1
  · split
    · exact (OnlyRescales.ofExcept _).bind fun points =>
        (OnlyRescales.mapM fun arg _ => onlyRescales_rescale _ arg).map _
    · exact .pure _

theorem onlyRescales_alignMux (cond tval fval : Expr) (t : Interval) :
    OnlyRescales (alignMux cond tval fval t) :=
  (OnlyRescales.ofExcept _).bind fun p => (OnlyRescales.ofExcept _).bind fun q =>
    (onlyRescales_rescale (max p q) tval).bind fun _ => (onlyRescales_rescale (max p q) fval).map _

theorem onlyRescales_alignNode (e : Expr) : OnlyRescales e.alignNode := by
  unfold alignNode
  split
  · exact onlyRescales_alignPrim _ _ _ _
  · exact onlyRescales_alignMux _ _ _ _
  · exact .pure _

/-- Aligning an expression reports only rescales. -/
theorem onlyRescales_align (e : Expr) : OnlyRescales e.align :=
  OnlyRescales.sequential.replaceUpM (g := alignNode) onlyRescales_alignNode e

/-- Fitting a value to its location reports only rescales. -/
theorem onlyRescales_fitTo (loc value : Expr) : OnlyRescales (loc.fitTo value) := by
  unfold fitTo
  split
  · exact (OnlyRescales.ofExcept _).bind fun p => onlyRescales_rescale p value
  · exact .pure value

end Expr

/-- Aligning a statement reports only rescales. -/
theorem Stmt.onlyRescales_align (s : Stmt) : OnlyRescales s.align := by
  induction s with
  | wire name ty => exact .pure _
  | reg name ty clock reset =>
    exact OnlyRescales.sequential.mapExprsM (g := Expr.align) Expr.onlyRescales_align _
  | node name value => exact value.onlyRescales_align.map _
  | connect loc value | partialConnect loc value =>
    exact loc.onlyRescales_align.bind fun loc => value.onlyRescales_align.bind fun value =>
      (loc.onlyRescales_fitTo value).map _
  | when cond conseq alt conseqIh altIh =>
    exact cond.onlyRescales_align.bind fun cond => conseqIh.bind fun conseq => altIh.map _
  | block stmts each =>
    rw [align, alignAll_eq_mapM]
    exact (OnlyRescales.mapM each).map _
  | invalid loc => exact loc.onlyRescales_align.map _
  | skip => exact .pure _

theorem Module.onlyRescales_align (d : Module) : OnlyRescales d.align :=
  OnlyRescales.bind ⟨0, rfl, .aside rfl rfl⟩ fun _ =>
    OnlyRescales.sequential.mapBodyM (g := Stmt.align) Stmt.onlyRescales_align d

/-- Aligning a circuit reports only rescales. -/
theorem Circuit.onlyRescales_align (c : Circuit) : OnlyRescales c.align :=
  OnlyRescales.sequential.mapModulesM (g := Module.align) Module.onlyRescales_align c

/-! ## With and without warnings -/

/-- Two runs come to the same and count the same. The second tells what the first tells except its
warnings, and the log of the first matches its tally. -/
structure Unwarned {α : Type} (loud quiet : Reported RemovalError α) : Prop where
  outcome : quiet.outcome = loud.outcome
  tally : quiet.report.tally = loud.report.tally
  events : quiet.report.events = loud.report.events.filter (!·.warns)
  told : LogMatches true loud.report.events loud.report.tally

namespace Unwarned

variable {α β : Type} {loud quiet : Reported RemovalError α}

/-- The log of either run matches its tally. -/
theorem logMatches (run : Bool → Reported RemovalError α)
    (runs : Unwarned (run true) (run false)) (warn : Bool) :
    LogMatches warn (run warn).report.events (run warn).report.tally := by
  cases warn with
  | true => exact runs.told
  | false =>
    rw [runs.events, runs.tally]
    exact runs.told.unwarned

theorem pure (a : α) : Unwarned (pure a) (pure a) := ⟨rfl, rfl, rfl, .empty⟩

theorem fail (e : RemovalError) : Unwarned (.fail e : Reported RemovalError α) (.fail e) :=
  ⟨rfl, rfl, rfl, .empty⟩

theorem ofExcept (x : Except RemovalError α) : Unwarned (.ofExcept x) (.ofExcept x) :=
  ⟨rfl, rfl, rfl, .empty⟩

/-- Steps in sequence differ only by warnings if each does. -/
theorem bind {f g : α → Reported RemovalError β} (first : Unwarned loud quiet)
    (next : ∀ a, Unwarned (f a) (g a)) : Unwarned (loud >>= f) (quiet >>= g) := by
  cases outcome : loud.outcome with
  | error e =>
    rw [Reported.bind_of_error outcome, Reported.bind_of_error (first.outcome.trans outcome)]
    exact ⟨rfl, first.tally, first.events, first.told⟩
  | ok a =>
    rw [Reported.bind_of_ok outcome, Reported.bind_of_ok (first.outcome.trans outcome)]
    constructor
    · exact (next a).outcome
    · simp [first.tally, (next a).tally]
    · simp [first.events, (next a).events]
    · exact first.told.append (next a).told

/-- Sequencing keeps it, so it is kept by whatever goes through a circuit. -/
theorem sequential : Sequential fun α (loud quiet : Reported RemovalError α) =>
    Unwarned loud quiet where
  pure := pure
  bind := bind

theorem map (f : α → β) (first : Unwarned loud quiet) : Unwarned (f <$> loud) (f <$> quiet) :=
  sequential.map f first

theorem mapM {f g : α → Reported RemovalError β} {as : List α}
    (each : ∀ a ∈ as, Unwarned (f a) (g a)) : Unwarned (as.mapM f) (as.mapM g) :=
  sequential.mapM each

/-- Alignment has no warnings to leave out. -/
theorem of_onlyRescales {x : Reported RemovalError α} (rescales : OnlyRescales x) :
    Unwarned x x := by
  obtain ⟨n, counted, told⟩ := rescales
  have silent : ∀ event ∈ x.report.events, event.warns = false := by
    simpa using List.countP_eq_zero.mp told.warnings
  refine ⟨rfl, rfl, ?_, ?_⟩
  · exact (List.filter_eq_self.mpr fun event found => by simp [silent event found]).symm
  · rw [counted]
    exact ⟨told.rescales, told.clips, told.wraps, told.warnings⟩

/-! ### Steps that tell or count -/

/-- A step that tells an event and counts what the event tells. -/
theorem tellCount {event : Event} {t : Tally} (silent : event.warns = false)
    (told : LogMatches true [event] t) (next : Unwarned loud quiet) :
    Unwarned (do .tell event; .count t; loud) (do .tell event; .count t; quiet) := by
  have step : Unwarned (do .tell event; .count t : Reported RemovalError Unit)
      (do .tell event; .count t) := by
    rw [Reported.tell_bind]
    refine ⟨rfl, rfl, ?_, ?_⟩
    · simp [silent]
    · simpa using told
  simpa only [bind_assoc] using step.bind fun _ => next

/-- A step that tells what no count is about. -/
theorem tellAside {event : Event} (traces : (event.level == .trace) = false)
    (silent : event.warns = false) :
    Unwarned (.tell event : Reported RemovalError Unit) (.tell event) :=
  ⟨rfl, rfl, by simp [silent], .aside traces silent⟩

/-- A step that counts what no event tells. -/
theorem countAside {t : Tally} (aside : LogMatches true [] t) :
    Unwarned (.count t : Reported RemovalError Unit) (.count t) := ⟨rfl, rfl, rfl, aside⟩

end Unwarned

/-! ## Lowering -/

theorem Ty.unwarned_lowerFields {fields : List (Field Ty)}
    (each : ∀ field ∈ fields, Unwarned field.ty.lower field.ty.lower) :
    Unwarned (lowerFields fields) (lowerFields fields) := by
  induction fields with
  | nil => exact .pure _
  | cons field fields ih =>
    refine (each field List.mem_cons_self).bind fun ty => ?_
    exact (ih fun field found => each field (List.mem_cons_of_mem _ found)).map _

/-- Lowering a type warns of nothing. -/
theorem Ty.unwarned_lower (t : Ty) : Unwarned t.lower t.lower := by
  induction t with
  | uint | sint | clock | unknown => exact .pure _
  | interval t =>
    exact (Unwarned.countAside ⟨rfl, rfl, rfl, rfl⟩).bind fun _ => .ofExcept _
  | bundle fields each => exact (unwarned_lowerFields each).map _
  | vector elem size ih => exact ih.map _

namespace Operand

/-- Lowering a cast warns of nothing. -/
theorem unwarned_lowerCast (operands : List Operand) :
    Unwarned (lowerCast operands) (lowerCast operands) := by
  unfold lowerCast
  split
  · refine (Unwarned.countAside ⟨rfl, rfl, rfl, rfl⟩).bind fun _ => ?_
    split
    · exact .pure _
    · exact .fail _
    · exact .pure _
  · exact .fail _

/-- Lowering a move of the point warns of nothing. -/
theorem unwarned_lowerShift (shift : Operator) (consts : List Int) (operands : List Operand) :
    Unwarned (lowerShift shift consts operands) (lowerShift shift consts operands) := by
  unfold lowerShift
  split
  · exact (Unwarned.countAside ⟨rfl, rfl, rfl, rfl⟩).bind fun _ => .pure _
  · exact .fail _

/-- Lowering a saturation warns of nothing. -/
theorem unwarned_lowerClip (result : Ty) (operands : List Operand) :
    Unwarned (lowerClip result operands) (lowerClip result operands) := by
  unfold lowerClip
  split
  · refine (Unwarned.ofExcept _).bind fun target => (Unwarned.ofExcept _).bind fun source => ?_
    exact .tellCount rfl (.clipped _ _) (.pure _)
  · exact .fail _

/-- A wrap is told once and counted once, by what it takes; the warning is all that depends on the
setting. -/
theorem unwarned_countWrap (value : Expr) (check : RangeCheck) (action : WrapAction) :
    Unwarned (do .tell (.wrapped check action); countWrap true value check action)
      (do .tell (.wrapped check action); countWrap false value check action) := by
  unfold countWrap
  simp only [Reported.tell_bind]
  cases action.sides? with
  | some sides => exact ⟨rfl, rfl, rfl, by simpa using LogMatches.corrected check action sides⟩
  | none => exact ⟨rfl, rfl, rfl, by simpa using LogMatches.remainder check action value⟩

/-- Lowering a wrap into a range warns of the remainder alone. -/
theorem unwarned_lowerWrapInto (a : Operand) (lo hi : Int) :
    Unwarned (lowerWrapInto true a lo hi) (lowerWrapInto false a lo hi) := by
  refine (Unwarned.ofExcept _).bind fun source => ?_
  simpa only [bind_assoc] using (unwarned_countWrap a.value _ _).bind fun _ => .pure _

/-- Lowering a wrap to a width warns of nothing. -/
theorem unwarned_lowerWidthWrap (a : Operand) (bound : Ty) (w : Width) :
    Unwarned (lowerWidthWrap a bound w) (lowerWidthWrap a bound w) := by
  unfold lowerWidthWrap
  split
  · split
    · exact .fail _
    · exact (Unwarned.countAside ⟨rfl, rfl, rfl, rfl⟩).bind fun _ => .pure _
  · exact .fail _

/-- Lowering a wrap differs by its warning alone. -/
theorem unwarned_lowerWrap (operands : List Operand) :
    Unwarned (lowerWrap true operands) (lowerWrap false operands) := by
  unfold lowerWrap
  split
  · split
    · exact unwarned_lowerWidthWrap _ _ _
    · exact unwarned_lowerWrapInto _ _ _
    · exact (Unwarned.ofExcept _).bind fun target => unwarned_lowerWrapInto _ _ _
    · exact .fail _
  · exact .fail _

end Operand

/-- Lowering an operator differs by warnings alone. -/
theorem Operator.unwarned_lower (op : Operator) (operands : List Operand) (consts : List Int)
    (ty : Ty) :
    Unwarned (op.lower true operands consts ty) (op.lower false operands consts ty) := by
  cases op with
  | asInterval => exact Operand.unwarned_lowerCast _
  | incp | decp => exact Operand.unwarned_lowerShift _ _ _
  | clip => exact Operand.unwarned_lowerClip _ _
  | wrap => exact Operand.unwarned_lowerWrap _
  | setp => exact .fail _
  | _ => exact ty.unwarned_lower.map _

theorem Expr.unwarned_lowerOperands {args : List Expr}
    (each : ∀ arg ∈ args, Unwarned (arg.lower true) (arg.lower false)) :
    Unwarned (lowerOperands true args) (lowerOperands false args) := by
  induction args with
  | nil => exact .pure _
  | cons arg args ih =>
    refine (each arg List.mem_cons_self).bind fun value => ?_
    exact (ih fun arg found => each arg (List.mem_cons_of_mem _ found)).map _

/-- Lowering an expression differs by warnings alone. -/
theorem Expr.unwarned_lower (e : Expr) : Unwarned (e.lower true) (e.lower false) := by
  induction e with
  | ref name ty => exact ty.unwarned_lower.map _
  | field parent name ty ih | index parent position ty ih =>
    exact ih.bind fun parent => ty.unwarned_lower.map _
  | uint | sint => exact .pure _
  | prim op args consts ty each =>
    exact (unwarned_lowerOperands each).bind fun operands => op.unwarned_lower operands _ _
  | mux cond tval fval ty condIh tvalIh fvalIh =>
    exact condIh.bind fun cond => tvalIh.bind fun tval => fvalIh.bind fun fval =>
      ty.unwarned_lower.map _

/-- Lowering a statement differs by warnings alone. -/
theorem Stmt.unwarned_lower (s : Stmt) : Unwarned (s.lower true) (s.lower false) := by
  induction s with
  | wire name ty => exact ty.unwarned_lower.map _
  | reg name ty clock reset =>
    exact ty.unwarned_lower.bind fun ty => Unwarned.sequential.mapExprsM Expr.unwarned_lower _
  | node name value => exact value.unwarned_lower.map _
  | connect loc value | partialConnect loc value =>
    exact loc.unwarned_lower.bind fun loc => value.unwarned_lower.map _
  | when cond conseq alt conseqIh altIh =>
    exact conseqIh.bind fun conseq => altIh.bind fun alt => cond.unwarned_lower.map _
  | block stmts each =>
    rw [lower, lower, lowerAll_eq_mapM, lowerAll_eq_mapM]
    exact (Unwarned.mapM each).map _
  | invalid loc => exact loc.unwarned_lower.map _
  | skip => exact .pure _

theorem Module.unwarned_lower (d : Module) : Unwarned (d.lower true) (d.lower false) :=
  (Unwarned.tellAside rfl rfl).bind fun _ =>
    (Unwarned.sequential.mapBodyM Stmt.unwarned_lower d).bind fun d =>
      Unwarned.sequential.mapPortsM (fun p => p.ty.unwarned_lower.map _) d

/-- Lowering a circuit differs by warnings alone. -/
theorem Circuit.unwarned_lower (c : Circuit) : Unwarned (c.lower true) (c.lower false) :=
  Unwarned.sequential.mapModulesM Module.unwarned_lower c

/-! ## Runs -/

/-- The options, with remainders reported or not. -/
def RemovalOptions.warning (options : RemovalOptions) (warn : Bool) : RemovalOptions :=
  { options with warnOnRemainder := warn }

/-- The removal, with remainders reported or not. -/
def Remover.warning (r : Remover) (warn : Bool) : Remover :=
  { r with options := r.options.warning warn }

/-- With and without the option the stages differ by warnings alone. -/
theorem Circuit.unwarned_removeStages (options : RemovalOptions) (inference : TypeInference)
    (c : Circuit) :
    Unwarned (c.removeStages (options.warning true) inference)
      (c.removeStages (options.warning false) inference) :=
  (Unwarned.of_onlyRescales c.onlyRescales_align).bind fun aligned =>
    aligned.unwarned_lower.bind fun _ =>
      (Unwarned.ofExcept _).bind fun typed => (Unwarned.ofExcept _).bind fun _ => .pure typed

/-- The closing event tells the tally, which is the same in both runs. -/
theorem Circuit.unwarned_removeIntervalsWith (options : RemovalOptions) (inference : TypeInference)
    (c : Circuit) :
    Unwarned (c.removeIntervalsWith (options.warning true) inference)
      (c.removeIntervalsWith (options.warning false) inference) := by
  have stages := c.unwarned_removeStages options inference
  unfold removeIntervalsWith
  dsimp only
  rw [stages.outcome, stages.tally]
  split
  · refine ⟨rfl, ?_, ?_, ?_⟩
    · simp [stages.tally]
    · simp [stages.events, Event.warns, Event.level]
    · exact stages.told.append (.aside rfl rfl)
  · exact stages

/-- The counts that are kept after a run: its own if it succeeds, and else those from before. -/
def Tally.keptAfter {α : Type} (before : Tally) (run : Reported RemovalError α) : Tally :=
  match run.outcome with
  | .ok _ => run.report.tally
  | .error _ => before

/-- Warnings change nothing in the counters that are kept after a run. -/
theorem Unwarned.keptAfter {α : Type} {loud quiet : Reported RemovalError α}
    (runs : Unwarned loud quiet) (before : Tally) :
    before.keptAfter quiet = before.keptAfter loud := by
  simp only [Tally.keptAfter, runs.outcome, runs.tally]

theorem Remover.run_eq (r : Remover) (c : Circuit) :
    let run := c.removeIntervalsWith r.options r.inference
    r.run c = ({ r with stats := r.stats.keptAfter run }, run) := by
  unfold run Tally.keptAfter
  dsimp only
  split <;> rename_i outcome <;> simp only [outcome]

/-- The log and the counts of a run tell the same story, also of a run that fails midway; and
whether remainders are warned of makes no difference to what a removal returns, counts, or tells
besides. -/
theorem log_matches_counts :
    (∀ c : Circuit,
      let (account, run) := Aligner.run {} c
      LogMatches false run.report.events { rescales := account.rescales }) ∧
    (∀ (warn : Bool) (c : Circuit),
      let (account, run) := Lowerer.run { warn } c
      LogMatches warn run.report.events account.stats) ∧
    (∀ (r : Remover) (c : Circuit),
      let (loudly, loud) := (r.warning true).run c
      let (quietly, quiet) := (r.warning false).run c
      quiet.outcome = loud.outcome ∧ quietly.stats = loudly.stats ∧
        quiet.report.events = loud.report.events.filter (!·.warns)) := by
  refine ⟨fun c => ?_, fun warn c => ?_, fun r c => ?_⟩
  · obtain ⟨n, counted, told⟩ := c.onlyRescales_align
    simpa [Aligner.run, Aligner.after, counted] using told
  · have told := Unwarned.logMatches (fun warn => c.lower warn) c.unwarned_lower warn
    simpa [Lowerer.run] using told
  · have runs := c.unwarned_removeIntervalsWith r.options r.inference
    rw [Remover.run_eq, Remover.run_eq]
    exact ⟨runs.outcome, runs.keptAfter r.stats, runs.events⟩

end IntervalHdl
