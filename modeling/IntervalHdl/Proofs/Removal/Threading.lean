import IntervalHdl.Removal
import IntervalHdl.Proofs.Sequencing

/-!
# Alignment and lowering as instances at work

An instance of a pass keeps an account that every step may read and change, and goes on keeping it
through later modules and later circuits. Here the account is threaded through the two passes step
by step, so that nothing about their form keeps a count from reaching a decision. That none does is
what `Follows` says: from every state the threaded pass has the outcome of the reporting one, and
enters its report in the state. Sequencing keeps it, so each pass is followed node by node.
-/

namespace IntervalHdl
set_option autoImplicit false

-- powers, of a typed exponent, are the core library's, whatever other instances are in scope
attribute [local instance (high)] instPowNat

/-- An instance at work: its account, and the events it told. -/
structure Instance (σ : Type) where
  account : σ
  told : List Event := []

/-- A computation that threads an instance through its steps. One that fails keeps what the steps
before did. -/
abbrev Threaded (σ : Type) := ExceptT RemovalError (StateM (Instance σ))

namespace Threaded

variable {σ α β : Type}

/-- What the computation returns from an instance, and how it leaves the instance. -/
def runOn (x : Threaded σ α) (s : Instance σ) : Except RemovalError α × Instance σ := x.run.run s

/-- Changes the account. -/
def change (f : σ → σ) : Threaded σ Unit := modify fun s => { s with account := f s.account }

/-- The account as it stands. -/
def account : Threaded σ σ := do return (← get).account

/-- Tells an event. -/
def tell (event : Event) : Threaded σ Unit := modify fun s => { s with told := s.told ++ [event] }

/-- An outcome that the instance has no part in. -/
def ofExcept (x : Except RemovalError α) : Threaded σ α := MonadExcept.ofExcept x

/-- Steps in sequence run on an instance one after the other; after a failure the rest is left out.
-/
theorem runOn_bind (x : Threaded σ α) (f : α → Threaded σ β) (s : Instance σ) :
    (x >>= f).runOn s = match x.runOn s with
      | (.ok a, s') => (f a).runOn s'
      | (.error e, s') => (.error e, s') := by
  rw [runOn, runOn, ExceptT.run_bind, StateT.run_bind]
  rcases x.run.run s with ⟨_ | _, _⟩ <;> rfl

end Threaded

/-! ### Following a report -/

/-- How an account takes in counts: for accounts of interest, and so that it makes no difference
whether two counts are taken in one by one or together. -/
structure Ledger (σ : Type) where
  Open : σ → Prop
  enter : σ → Tally → σ
  open_enter : ∀ {a} t, Open a → Open (enter a t)
  enter_empty : ∀ a, enter a {} = a
  enter_add : ∀ a t u, enter a (t + u) = enter (enter a t) u

/-- The instance after a computation of that report. -/
def Ledger.after {σ : Type} (book : Ledger σ) (s : Instance σ) (r : Report) : Instance σ where
  account := book.enter s.account r.tally
  told := s.told ++ r.events

/-- From every instance whose account is open, the threaded computation returns the outcome of the
reporting one and enters its report. -/
def Follows {σ α : Type} (book : Ledger σ) (x : Threaded σ α) (y : Reported RemovalError α) :
    Prop :=
  ∀ s, book.Open s.account → x.runOn s = (y.outcome, book.after s y.report)

namespace Ledger

variable {σ : Type} (book : Ledger σ)

@[simp] theorem after_empty (s : Instance σ) : book.after s {} = s := by
  simp [after, book.enter_empty]

/-- Reports in sequence are entered one after the other. -/
theorem after_append (s : Instance σ) (q r : Report) :
    book.after s (q ++ r) = book.after (book.after s q) r := by
  simp [after, book.enter_add]

end Ledger

namespace Follows

variable {σ α β : Type} {book : Ledger σ}

theorem pure (a : α) : Follows book (pure a) (pure a) := by
  intro s _
  rw [Reported.outcome_pure, Reported.report_pure, book.after_empty]
  rfl

theorem fail (e : RemovalError) : Follows book (throw e) (.fail e : Reported RemovalError α) := by
  intro s _
  rw [Reported.outcome_fail, Reported.report_fail, book.after_empty]
  rfl

theorem ofExcept (x : Except RemovalError α) : Follows book (.ofExcept x) (.ofExcept x) := by
  intro s _
  rw [Reported.outcome_ofExcept, Reported.report_ofExcept, book.after_empty]
  cases x <;> rfl

theorem tell (event : Event) : Follows book (.tell event) (.tell event) := by
  intro s _
  rw [Reported.outcome_tell, Reported.report_tell, Ledger.after, book.enter_empty]
  rfl

/-- Steps in sequence follow their report if each does. -/
theorem bind {x : Threaded σ α} {y : Reported RemovalError α} {f : α → Threaded σ β}
    {g : α → Reported RemovalError β} (first : Follows book x y)
    (next : ∀ a, Follows book (f a) (g a)) : Follows book (x >>= f) (y >>= g) := by
  intro s opened
  rw [Threaded.runOn_bind, first s opened]
  cases outcome : y.outcome with
  | error e => rw [Reported.bind_of_error outcome]
  | ok a =>
    rw [Reported.bind_of_ok outcome, book.after_append]
    exact next a _ (book.open_enter _ opened)

/-- A step may read the account if that makes no difference between open ones. -/
theorem reading {f : σ → Threaded σ α} {y : Reported RemovalError α}
    (each : ∀ a, book.Open a → Follows book (f a) y) : Follows book (Threaded.account >>= f) y := by
  intro s opened
  rw [Threaded.runOn_bind]
  exact each s.account opened s opened

/-- Sequencing keeps it, so it is kept by whatever goes through a circuit. -/
theorem sequential : Sequential fun α (x : Threaded σ α) (y : Reported RemovalError α) =>
    Follows book x y where
  pure := pure
  bind := bind

theorem map {x : Threaded σ α} {y : Reported RemovalError α} (f : α → β)
    (first : Follows book x y) : Follows book (f <$> x) (f <$> y) := sequential.map f first

theorem mapM {f : α → Threaded σ β} {g : α → Reported RemovalError β} {as : List α}
    (each : ∀ a ∈ as, Follows book (f a) (g a)) : Follows book (as.mapM f) (as.mapM g) :=
  sequential.mapM each

end Follows

/-! ### Alignment -/

namespace Aligner

/-- Accounts of alignment count rescales. -/
def book : Ledger Aligner where
  Open _ := True
  enter a t := ⟨a.rescales + t.rescales⟩
  open_enter _ _ := trivial
  enter_empty _ := rfl
  enter_add a t u := by simp [Nat.add_assoc]

/-- Rescales an expression, and counts it. -/
def rescaleTo (target : BitCount) (e : Expr) : Threaded Aligner Expr :=
  match e.ty with
  | .interval t => do
    let source ← .ofExcept t.knownPoint
    if source = target then
      return e
    else
      let (op, amount) := rescaleStep source target
      .tell (.rescaled e source target)
      .change fun a => ⟨a.rescales + 1⟩
      return .prim op [e] [amount.toNat] (.interval (t.atPoint target))
  | other => throw (.notInterval (.rescale e) other)

/-- Aligns an operator whose operands are aligned. -/
def alignPrim (op : Operator) (args : List Expr) (consts : List Int) (ty : Ty) :
    Threaded Aligner Expr :=
  if op = .setp then do
    let (arg, p) ← .ofExcept (setPointOperands args consts)
    rescaleTo p arg
  else if Expr.meets op args then do
    let points ← .ofExcept (args.mapM Expr.recordedPoint)
    let common := points.foldl max (.ofNat 0)
    let args ← args.mapM (rescaleTo common)
    return .prim op args consts (op.repoint common ty)
  else
    return .prim op args consts ty

/-- Aligns an interval-typed selection whose branches are aligned. -/
def alignMux (cond tval fval : Expr) (t : Interval) : Threaded Aligner Expr := do
  let p ← .ofExcept tval.recordedPoint
  let q ← .ofExcept fval.recordedPoint
  let tval ← rescaleTo (max p q) tval
  let fval ← rescaleTo (max p q) fval
  return .mux cond tval fval (.interval (t.atPoint (max p q)))

/-- Aligns a node whose subexpressions are aligned. -/
def alignNode : Expr → Threaded Aligner Expr
  | .prim op args consts ty => alignPrim op args consts ty
  | .mux cond tval fval (.interval t) => alignMux cond tval fval t
  | other => return other

/-- Aligns an expression. -/
def alignExpr (e : Expr) : Threaded Aligner Expr := e.replaceUpM alignNode

/-- Brings a value to the point of a location, if the location is interval-typed. -/
def fitTo (loc value : Expr) : Threaded Aligner Expr :=
  match loc.ty with
  | .interval t => do
    let p ← .ofExcept t.knownPoint
    rescaleTo p value
  | _ => return value

mutual

/-- Aligns a statement. -/
def alignStmt : Stmt → Threaded Aligner Stmt
  | .connect loc value => do
    let loc ← alignExpr loc
    let value ← alignExpr value
    return .connect loc (← fitTo loc value)
  | .partialConnect loc value => do
    let loc ← alignExpr loc
    let value ← alignExpr value
    return .partialConnect loc (← fitTo loc value)
  | .when cond conseq alt => do
    let cond ← alignExpr cond
    let conseq ← alignStmt conseq
    let alt ← alignStmt alt
    return .when cond conseq alt
  | .block stmts => return .block (← alignStmts stmts)
  | other => other.mapExprsM alignExpr

/-- Aligns statements in order. -/
def alignStmts : List Stmt → Threaded Aligner (List Stmt)
  | [] => return []
  | s :: stmts => do
    let s ← alignStmt s
    let stmts ← alignStmts stmts
    return s :: stmts

end

/-- Aligns a module. -/
def alignModule (d : Module) : Threaded Aligner Module := do
  .tell (.aligning d.name)
  d.mapBodyM alignStmt

/-- Aligns a circuit. -/
def alignCircuit (c : Circuit) : Threaded Aligner Circuit := c.mapModulesM alignModule

theorem follows_count :
    Follows book (.change fun a => ⟨a.rescales + 1⟩) (.count { rescales := 1 }) :=
  fun _ _ => by simp [Ledger.after, book]; rfl

/-- A rescale raises the instance's counter by as much as it reports. -/
theorem follows_rescale (target : BitCount) (e : Expr) :
    Follows book (rescaleTo target e) (e.rescale target) := by
  unfold rescaleTo Expr.rescale
  cases e.ty with
  | interval t =>
    refine (Follows.ofExcept t.knownPoint).bind fun source => ?_
    split
    · exact .pure e
    · exact (Follows.tell _).bind fun _ => follows_count.bind fun _ => .pure _
  | _ => exact .fail _

/-- Aligning the operands of an operator changes the instance by what it reports. -/
theorem follows_alignPrim (op : Operator) (args : List Expr) (consts : List Int) (ty : Ty) :
    Follows book (alignPrim op args consts ty) (Expr.alignPrim op args consts ty) := by
  unfold alignPrim Expr.alignPrim
  by_cases isSetp : op = .setp
  · rw [if_pos isSetp, if_pos isSetp]
    exact (Follows.ofExcept (setPointOperands args consts)).bind fun operands =>
      follows_rescale operands.2 operands.1
  · rw [if_neg isSetp, if_neg isSetp]
    by_cases meets : Expr.meets op args = true
    · rw [if_pos meets, if_pos meets]
      exact (Follows.ofExcept (args.mapM Expr.recordedPoint)).bind fun points =>
        (Follows.mapM fun arg _ => follows_rescale _ arg).map _
    · rw [if_neg meets, if_neg meets]
      exact .pure _

theorem follows_alignMux (cond tval fval : Expr) (t : Interval) :
    Follows book (alignMux cond tval fval t) (Expr.alignMux cond tval fval t) :=
  (Follows.ofExcept tval.recordedPoint).bind fun p =>
    (Follows.ofExcept fval.recordedPoint).bind fun q =>
      (follows_rescale (max p q) tval).bind fun _ => (follows_rescale (max p q) fval).map _

/-- Aligning a node changes the instance by what it reports. -/
theorem follows_alignNode (e : Expr) : Follows book (alignNode e) e.alignNode := by
  cases e with
  | prim op args consts ty => exact follows_alignPrim op args consts ty
  | mux cond tval fval ty =>
    cases ty with
    | interval t => exact follows_alignMux cond tval fval t
    | _ => exact .pure _
  | _ => exact .pure _

/-- Aligning an expression changes the instance by what it reports. -/
theorem follows_alignExpr (e : Expr) : Follows book (alignExpr e) e.align :=
  Follows.sequential.replaceUpM follows_alignNode e

theorem follows_fitTo (loc value : Expr) : Follows book (fitTo loc value) (loc.fitTo value) := by
  unfold fitTo Expr.fitTo
  cases loc.ty with
  | interval t => exact (Follows.ofExcept t.knownPoint).bind fun p => follows_rescale p value
  | _ => exact .pure value

/-- Statements in order are aligned as a list. -/
theorem alignStmts_eq_mapM (stmts : List Stmt) : alignStmts stmts = stmts.mapM alignStmt := by
  induction stmts with
  | nil => simp [alignStmts]
  | cons s stmts ih => simp [alignStmts, ih]

/-- Aligning a statement changes the instance by what it reports. -/
theorem follows_alignStmt (s : Stmt) : Follows book (alignStmt s) s.align := by
  induction s with
  | wire name ty => exact .pure _
  | reg name ty clock reset => exact Follows.sequential.mapExprsM follows_alignExpr _
  | node name value => exact (follows_alignExpr value).map _
  | connect loc value =>
    exact (follows_alignExpr loc).bind fun loc => (follows_alignExpr value).bind fun value =>
      (follows_fitTo loc value).map _
  | partialConnect loc value =>
    exact (follows_alignExpr loc).bind fun loc => (follows_alignExpr value).bind fun value =>
      (follows_fitTo loc value).map _
  | when cond conseq alt conseqIh altIh =>
    exact (follows_alignExpr cond).bind fun cond => conseqIh.bind fun conseq => altIh.map _
  | block stmts each =>
    rw [alignStmt, Stmt.align, alignStmts_eq_mapM, Stmt.alignAll_eq_mapM]
    exact (Follows.mapM each).map _
  | invalid loc => exact (follows_alignExpr loc).map _
  | skip => exact .pure _

/-- The threaded alignment follows the reporting one. -/
theorem follows_alignCircuit (c : Circuit) : Follows book (alignCircuit c) c.align :=
  Follows.sequential.mapModulesM (fun d => (Follows.tell _).bind fun _ =>
    Follows.sequential.mapBodyM follows_alignStmt d) c

end Aligner

/-! ### Lowering -/

namespace Lowerer

/-- Accounts of lowering with that setting add the counts up. -/
def book (warn : Bool) : Ledger Lowerer where
  Open l := l.warn = warn
  enter l t := { l with stats := l.stats + t }
  open_enter _ opened := opened
  enter_empty _ := rfl
  enter_add l t u := by simp [Tally.add_assoc]

/-- Adds to the counts. -/
def count (t : Tally) : Threaded Lowerer Unit :=
  .change fun l => { l with stats := l.stats + t }

mutual

/-- Replaces every interval in a type, and counts it. -/
def lowerTy : Ty → Threaded Lowerer Ty
  | .interval t => do
    count { types := 1 }
    .ofExcept t.lowered
  | .bundle fields => return .bundle (← lowerFields fields)
  | .vector elem size => return .vector (← lowerTy elem) size
  | ground => return ground

/-- Lowers the types of fields in order. -/
def lowerFields : List (Field Ty) → Threaded Lowerer (List (Field Ty))
  | [] => return []
  | ⟨name, flip, ty⟩ :: fields => do
    let ty ← lowerTy ty
    let fields ← lowerFields fields
    return ⟨name, flip, ty⟩ :: fields

end

/-- Reads raw bits as a signed integer. -/
def lowerCast : List Operand → Threaded Lowerer Expr
  | [a] => do
    count { casts := 1 }
    match a.recorded with
    | .uint (.known w) =>
      let wide := Expr.untyped .pad [a.value] [(w + .ofNat 1).toNat]
      return .untyped .asSInt [wide] []
    | .uint .unknown => throw (.unexpectedOperand .asInterval a.recorded)
    | _ => return .untyped .asSInt [a.value] []
  | operands => throw (.arity .asInterval 1 operands.length)

/-- Turns a move of the binary point into a shift. -/
def lowerShift (shift : Operator) (consts : List Int) : List Operand → Threaded Lowerer Expr
  | [a] => do
    count { shifts := 1 }
    return .untyped shift [a.value] consts
  | operands => throw (.arity shift 1 operands.length)

/-- Saturates into the range of the result type. -/
def lowerClip (result : Ty) : List Operand → Threaded Lowerer Expr
  | [a, _] => do
    let (lo, hi) ← .ofExcept result.clipRange
    let (inLo, inHi) ← .ofExcept (Operator.clip.operandRange a.recorded)
    let check : RangeCheck := ⟨lo, hi, inLo, inHi⟩
    let action := SaturateAction.decide check
    .tell (.clipped check action)
    count { saturates := .one action.sides }
    return .saturated check a.value action
  | operands => throw (.arity .clip 2 operands.length)

/-- Counts a wrap by what it takes, and tells a remainder if the instance is set to. -/
def countWrap (value : Expr) (check : RangeCheck) (action : WrapAction) : Threaded Lowerer Unit :=
  match action.sides? with
  | some sides => count { wraps := .one sides }
  | none => do
    let l ← Threaded.account
    if l.warn then do
      .tell (.remainderNeeded value check)
      count { remainderWraps := 1 }
    else count { remainderWraps := 1 }

/-- Wraps an interval value into the range from `lo` to `hi`. -/
def lowerWrapInto (a : Operand) (lo hi : Int) : Threaded Lowerer Expr := do
  let (inLo, inHi) ← .ofExcept (Operator.wrap.operandRange a.recorded)
  let check : RangeCheck := ⟨lo, hi, inLo, inHi⟩
  let action := WrapAction.decide check
  .tell (.wrapped check action)
  countWrap a.value check action
  return .wrapped check a.value action

/-- Takes the low bits of a value as a signed integer of width `w`. -/
def lowerWidthWrap (a : Operand) (bound : Ty) (w : Width) : Threaded Lowerer Expr :=
  match w with
  | .known n =>
    if n.toNat = 0 then throw (.unexpectedOperand .wrap bound)
    else do
      count { widthWraps := 1 }
      let low := Expr.untyped .bits [a.value] [(n.toNat - 1 : Nat), 0]
      return .untyped .asSInt [low] []
  | .unknown => throw (.unexpectedOperand .wrap bound)

/-- Wraps into the range of the second operand's type. -/
def lowerWrap : List Operand → Threaded Lowerer Expr
  | [a, b] =>
    match b.recorded with
    | .sint w => lowerWidthWrap a b.recorded w
    | .uint (.known w) => lowerWrapInto a 0 (2 ^ w.toNat - 1)
    | .interval t => do
      let (lo, hi) ← .ofExcept t.resolved
      lowerWrapInto a lo hi
    | other => throw (.unexpectedOperand .wrap other)
  | operands => throw (.arity .wrap 2 operands.length)

/-- Lowers an operator on lowered operands. -/
def lowerOperator (op : Operator) (operands : List Operand) (consts : List Int) (ty : Ty) :
    Threaded Lowerer Expr :=
  match op with
  | .asInterval => lowerCast operands
  | .incp => lowerShift .shl consts operands
  | .decp => lowerShift .shr consts operands
  | .clip => lowerClip ty operands
  | .wrap => lowerWrap operands
  | .setp => throw (.unexpectedOperator .setp)
  | op => return .prim op (operands.map Operand.value) consts (← lowerTy ty)

mutual

/-- Lowers an expression. -/
def lowerExpr : Expr → Threaded Lowerer Expr
  | .ref name ty => return .ref name (← lowerTy ty)
  | .field parent name ty => do
    let parent ← lowerExpr parent
    return .field parent name (← lowerTy ty)
  | .index parent position ty => do
    let parent ← lowerExpr parent
    return .index parent position (← lowerTy ty)
  | .uint value width => return .uint value width
  | .sint value width => return .sint value width
  | .prim op args consts ty => do
    let operands ← lowerOperands args
    lowerOperator op operands consts ty
  | .mux cond tval fval ty => do
    let cond ← lowerExpr cond
    let tval ← lowerExpr tval
    let fval ← lowerExpr fval
    return .mux cond tval fval (← lowerTy ty)

/-- Lowers operands in order and keeps the types they had. -/
def lowerOperands : List Expr → Threaded Lowerer (List Operand)
  | [] => return []
  | e :: es => do
    let value ← lowerExpr e
    let operands ← lowerOperands es
    return ⟨value, e.ty⟩ :: operands

end

mutual

/-- Lowers a statement: its declared type, then the statements inside, then its expressions. -/
def lowerStmt : Stmt → Threaded Lowerer Stmt
  | .wire name ty => return .wire name (← lowerTy ty)
  | .reg name ty clock reset => do
    let ty ← lowerTy ty
    (Stmt.reg name ty clock reset).mapExprsM lowerExpr
  | .when cond conseq alt => do
    let conseq ← lowerStmt conseq
    let alt ← lowerStmt alt
    let cond ← lowerExpr cond
    return .when cond conseq alt
  | .block stmts => return .block (← lowerStmts stmts)
  | other => other.mapExprsM lowerExpr

/-- Lowers statements in order. -/
def lowerStmts : List Stmt → Threaded Lowerer (List Stmt)
  | [] => return []
  | s :: stmts => do
    let s ← lowerStmt s
    let stmts ← lowerStmts stmts
    return s :: stmts

end

/-- Lowers a module: its body, then its ports. -/
def lowerModule (d : Module) : Threaded Lowerer Module := do
  .tell (.lowering d.name)
  let d ← d.mapBodyM lowerStmt
  d.mapPortsM fun p => p.mapTyM lowerTy

/-- Lowers a circuit. -/
def lowerCircuit (c : Circuit) : Threaded Lowerer Circuit := c.mapModulesM lowerModule

section

variable {warn : Bool}

theorem follows_count (t : Tally) : Follows (book warn) (count t) (.count t) :=
  fun _ _ => by simp [Ledger.after, book]; rfl

theorem follows_lowerFields {fields : List (Field Ty)}
    (each : ∀ field ∈ fields, Follows (book warn) (lowerTy field.ty) field.ty.lower) :
    Follows (book warn) (lowerFields fields) (Ty.lowerFields fields) := by
  induction fields with
  | nil => exact .pure _
  | cons field fields ih =>
    refine (each field List.mem_cons_self).bind fun ty => ?_
    exact (ih fun field found => each field (List.mem_cons_of_mem _ found)).map _

/-- Lowering a type changes the instance by what it reports. -/
theorem follows_lowerTy (t : Ty) : Follows (book warn) (lowerTy t) t.lower := by
  induction t with
  | uint | sint | clock | unknown => exact .pure _
  | interval t => exact (follows_count _).bind fun _ => .ofExcept _
  | bundle fields each => exact (follows_lowerFields each).map _
  | vector elem size ih => exact ih.map _

theorem follows_lowerCast (operands : List Operand) :
    Follows (book warn) (lowerCast operands) (Operand.lowerCast operands) := by
  unfold lowerCast Operand.lowerCast
  rcases operands with _ | ⟨a, _ | ⟨b, rest⟩⟩
  · exact .fail _
  · refine (follows_count _).bind fun _ => ?_
    cases a.recorded with
    | uint w =>
      cases w with
      | known w => exact .pure _
      | unknown => exact .fail _
    | _ => exact .pure _
  · exact .fail _

theorem follows_lowerShift (shift : Operator) (consts : List Int) (operands : List Operand) :
    Follows (book warn) (lowerShift shift consts operands)
      (Operand.lowerShift shift consts operands) := by
  rcases operands with _ | ⟨a, _ | ⟨b, rest⟩⟩
  · exact .fail _
  · exact (follows_count _).bind fun _ => .pure _
  · exact .fail _

/-- Lowering a saturation changes the instance by what it reports. -/
theorem follows_lowerClip (result : Ty) (operands : List Operand) :
    Follows (book warn) (lowerClip result operands) (Operand.lowerClip result operands) := by
  rcases operands with _ | ⟨a, _ | ⟨b, _ | ⟨_, rest⟩⟩⟩
  · exact .fail _
  · exact .fail _
  · refine (Follows.ofExcept result.clipRange).bind fun target => ?_
    refine (Follows.ofExcept (Operator.clip.operandRange a.recorded)).bind fun source => ?_
    exact (Follows.tell _).bind fun _ => (follows_count _).bind fun _ => .pure _
  · exact .fail _

/-- The one step that reads the instance reads a setting that no run changes. -/
theorem follows_countWrap (value : Expr) (check : RangeCheck) (action : WrapAction) :
    Follows (book warn) (countWrap value check action)
      (Operand.countWrap warn value check action) := by
  unfold countWrap Operand.countWrap
  cases action.sides? with
  | some sides => exact follows_count _
  | none =>
    refine Follows.reading fun l opened => ?_
    rw [show l.warn = warn from opened]
    cases warn with
    | true => exact (Follows.tell _).bind fun _ => follows_count _
    | false => exact follows_count _

/-- Lowering a wrap into a range changes the instance by what it reports. -/
theorem follows_lowerWrapInto (a : Operand) (lo hi : Int) :
    Follows (book warn) (lowerWrapInto a lo hi) (Operand.lowerWrapInto warn a lo hi) := by
  refine (Follows.ofExcept (Operator.wrap.operandRange a.recorded)).bind fun source => ?_
  exact (Follows.tell _).bind fun _ => (follows_countWrap _ _ _).bind fun _ => .pure _

theorem follows_lowerWidthWrap (a : Operand) (bound : Ty) (w : Width) :
    Follows (book warn) (lowerWidthWrap a bound w) (Operand.lowerWidthWrap a bound w) := by
  cases w with
  | unknown => exact .fail _
  | known n =>
    unfold lowerWidthWrap Operand.lowerWidthWrap
    by_cases zero : n.toNat = 0
    · simp only [if_pos zero]
      exact .fail _
    · simp only [if_neg zero]
      exact (follows_count _).bind fun _ => .pure _

/-- Lowering a wrap changes the instance by what it reports. -/
theorem follows_lowerWrap (operands : List Operand) :
    Follows (book warn) (lowerWrap operands) (Operand.lowerWrap warn operands) := by
  unfold lowerWrap Operand.lowerWrap
  rcases operands with _ | ⟨a, _ | ⟨b, _ | ⟨_, rest⟩⟩⟩
  · exact .fail _
  · exact .fail _
  · dsimp only
    cases b.recorded with
    | sint w => exact follows_lowerWidthWrap _ _ w
    | uint w =>
      cases w with
      | known w => exact follows_lowerWrapInto _ _ _
      | unknown => exact .fail _
    | interval t =>
      exact (Follows.ofExcept t.resolved).bind fun target => follows_lowerWrapInto _ _ _
    | _ => exact .fail _
  · exact .fail _

/-- Lowering an operator changes the instance by what it reports. -/
theorem follows_lowerOperator (op : Operator) (operands : List Operand) (consts : List Int)
    (ty : Ty) :
    Follows (book warn) (lowerOperator op operands consts ty)
      (op.lower warn operands consts ty) := by
  cases op with
  | asInterval => exact follows_lowerCast _
  | incp | decp => exact follows_lowerShift _ _ _
  | clip => exact follows_lowerClip _ _
  | wrap => exact follows_lowerWrap _
  | setp => exact .fail _
  | _ => exact (follows_lowerTy ty).map _

theorem follows_lowerOperands {args : List Expr}
    (each : ∀ arg ∈ args, Follows (book warn) (lowerExpr arg) (arg.lower warn)) :
    Follows (book warn) (lowerOperands args) (Expr.lowerOperands warn args) := by
  induction args with
  | nil => exact .pure _
  | cons arg args ih =>
    refine (each arg List.mem_cons_self).bind fun value => ?_
    exact (ih fun arg found => each arg (List.mem_cons_of_mem _ found)).map _

/-- Lowering an expression changes the instance by what it reports. -/
theorem follows_lowerExpr (e : Expr) : Follows (book warn) (lowerExpr e) (e.lower warn) := by
  induction e with
  | ref name ty => exact (follows_lowerTy ty).map _
  | field parent name ty ih => exact ih.bind fun parent => (follows_lowerTy ty).map _
  | index parent position ty ih => exact ih.bind fun parent => (follows_lowerTy ty).map _
  | uint | sint => exact .pure _
  | prim op args consts ty each =>
    exact (follows_lowerOperands each).bind fun operands => follows_lowerOperator op operands _ _
  | mux cond tval fval ty condIh tvalIh fvalIh =>
    exact condIh.bind fun cond => tvalIh.bind fun tval => fvalIh.bind fun fval =>
      (follows_lowerTy ty).map _

/-- Statements in order are lowered as a list. -/
theorem lowerStmts_eq_mapM (stmts : List Stmt) : lowerStmts stmts = stmts.mapM lowerStmt := by
  induction stmts with
  | nil => simp [lowerStmts]
  | cons s stmts ih => simp [lowerStmts, ih]

/-- Lowering a statement changes the instance by what it reports. -/
theorem follows_lowerStmt (s : Stmt) : Follows (book warn) (lowerStmt s) (s.lower warn) := by
  induction s with
  | wire name ty => exact (follows_lowerTy ty).map _
  | reg name ty clock reset =>
    exact (follows_lowerTy ty).bind fun ty => Follows.sequential.mapExprsM follows_lowerExpr _
  | node name value => exact (follows_lowerExpr value).map _
  | connect loc value =>
    exact (follows_lowerExpr loc).bind fun loc => (follows_lowerExpr value).map _
  | partialConnect loc value =>
    exact (follows_lowerExpr loc).bind fun loc => (follows_lowerExpr value).map _
  | when cond conseq alt conseqIh altIh =>
    exact conseqIh.bind fun conseq => altIh.bind fun alt => (follows_lowerExpr cond).map _
  | block stmts each =>
    rw [lowerStmt, Stmt.lower, lowerStmts_eq_mapM, Stmt.lowerAll_eq_mapM]
    exact (Follows.mapM each).map _
  | invalid loc => exact (follows_lowerExpr loc).map _
  | skip => exact .pure _

/-- Lowering a module changes the instance by what it reports. -/
theorem follows_lowerModule (d : Module) :
    Follows (book warn) (lowerModule d) (d.lower warn) :=
  (Follows.tell _).bind fun _ => (Follows.sequential.mapBodyM follows_lowerStmt d).bind fun d =>
    Follows.sequential.mapPortsM (fun p => (follows_lowerTy p.ty).map _) d

/-- The threaded lowering follows the reporting one. -/
theorem follows_lowerCircuit (c : Circuit) :
    Follows (book warn) (lowerCircuit c) (c.lower warn) :=
  Follows.sequential.mapModulesM follows_lowerModule c

end

end Lowerer

end IntervalHdl
