import IntervalHdl.Proofs.Counting
import IntervalHdl.Proofs.Nodes
import IntervalHdl.Proofs.Alignment.Steps
import IntervalHdl.Proofs.Removal.Verification

/-!
# The ledger of a removal

What a successful run counted is what its aligned circuit holds. Lowering counts each node once, by
its operator, and each interval in the types that it replaces (`Tally.Accounts`), wherever the node
stands and whether or not its lowered form reaches the output; alignment counts the rescales that it
inserts and nothing else (`Tally.Inserts`). Both relations add along the parts of an expression, a
statement and a circuit. A `Remover` takes over the counts of a run only when the run succeeds, so
after any sequence of runs they describe the latest circuit that came through.
-/

namespace IntervalHdl
set_option autoImplicit false

open Reported

/-! ## Lowering -/

/-- The tally of a lowering of the nodes and of the declared types: each operator that is reserved
for intervals is counted where it is used, and each interval that is replaced. -/
structure Tally.Accounts (t : Tally) (nodes : List Expr) (declared : List Ty) : Prop where
  rescales : t.rescales = 0
  casts : t.casts = Expr.uses .asInterval nodes
  shifts : t.shifts = Expr.uses .incp nodes + Expr.uses .decp nodes
  saturates : t.saturates.total = Expr.uses .clip nodes
  wraps : t.allWraps = Expr.uses .wrap nodes
  types : t.types = (declared.flatMap Ty.intervals ++ nodes.flatMap Expr.carried).length

namespace Tally

@[simp] theorem allWraps_add (s t : Tally) : (s + t).allWraps = s.allWraps + t.allWraps := by
  simp only [allWraps, wraps_add, ActionCounts.total_add, widthWraps_add, remainderWraps_add]
  omega

theorem Accounts.empty : Accounts {} [] [] := ⟨rfl, rfl, rfl, rfl, rfl, rfl⟩

/-- Tallies of two lots of nodes and types account for both together. -/
theorem Accounts.add {s t : Tally} {ns ms : List Expr} {ts us : List Ty}
    (left : s.Accounts ns ts) (right : t.Accounts ms us) :
    (s + t).Accounts (ns ++ ms) (ts ++ us) := by
  constructor
  · rw [rescales_add, left.rescales, right.rescales]
  · rw [casts_add, left.casts, right.casts, Expr.uses_append]
  · rw [shifts_add, left.shifts, right.shifts, Expr.uses_append, Expr.uses_append]
    omega
  · rw [saturates_add, ActionCounts.total_add, left.saturates, right.saturates, Expr.uses_append]
  · rw [allWraps_add, left.wraps, right.wraps, Expr.uses_append]
  · rw [types_add, left.types, right.types]
    simp only [List.flatMap_append, List.length_append]
    omega

/-- Where each element of a list is accounted for, the run over the list is. -/
theorem accounts_of_mapM {α β : Type} {f : α → Reported RemovalError β} {ns : α → List Expr}
    {ts : α → List Ty} {as : List α} {bs : List β} {t : Tally}
    (each : ∀ a ∈ as, ∀ b s, (f a).Yields b s → s.Accounts (ns a) (ts a))
    (done : (as.mapM f).Yields bs t) : t.Accounts (as.flatMap ns) (as.flatMap ts) := by
  refine Yields.mapM (R := fun a _ s => s.Accounts (ns a) (ts a))
    (Q := fun as _ t => t.Accounts (as.flatMap ns) (as.flatMap ts)) .empty ?_ each done
  intro _ _ _ _ _ _ head tail
  exact head.add tail

end Tally

namespace Ty

/-- Lowering fields counts the intervals in their types. -/
theorem tally_of_lowerFields {fields fields' : List (Field Ty)} {t : Tally}
    (each : ∀ field ∈ fields, ∀ ty' s, field.ty.lower.Yields ty' s →
      s = { types := field.ty.intervals.length })
    (done : (lowerFields fields).Yields fields' t) :
    t = { types := (fields.flatMap fun field => field.ty.intervals).length } := by
  induction fields generalizing fields' t with
  | nil =>
    rw [lowerFields, yields_pure_iff] at done
    exact done.2.symm
  | cons field fields ih =>
    simp only [lowerFields, yields_bind_iff, yields_pure_iff] at done
    obtain ⟨ty', s, _, head, ⟨rest, u, _, tail, ⟨rfl, rfl⟩, rfl⟩, rfl⟩ := done
    rw [each field List.mem_cons_self ty' s head,
      ih (fun f found => each f (List.mem_cons_of_mem _ found)) tail, Tally.add_empty,
      List.flatMap_cons, List.length_append]
    rfl

/-- Lowering a type counts the intervals in it. -/
theorem tally_of_lower {ty ty' : Ty} {t : Tally} (done : ty.lower.Yields ty' t) :
    t = { types := ty.intervals.length } := by
  induction ty generalizing ty' t with
  | uint | sint | clock | unknown =>
    rw [lower, yields_pure_iff] at done
    exact done.2.symm
  | interval i =>
    rw [lower, yields_count_bind_iff] at done
    obtain ⟨u, next, rfl⟩ := done
    obtain ⟨-, rfl⟩ := yields_ofExcept_iff.mp next
    rfl
  | bundle fields ih =>
    simp only [lower, yields_bind_iff, yields_pure_iff] at done
    obtain ⟨fields', s, _, inner, ⟨rfl, rfl⟩, rfl⟩ := done
    rw [intervals_bundle, Tally.add_empty]
    exact tally_of_lowerFields (fun field found _ _ => ih field found) inner
  | vector elem size ih =>
    simp only [lower, yields_bind_iff, yields_pure_iff] at done
    obtain ⟨elem', s, _, inner, ⟨rfl, rfl⟩, rfl⟩ := done
    rw [intervals_vector, Tally.add_empty]
    exact ih inner

/-- A declared type that is lowered is accounted for. -/
theorem accounts_declared {ty ty' : Ty} {t : Tally} (done : ty.lower.Yields ty' t) :
    t.Accounts [] [ty] := by
  rw [tally_of_lower done]
  exact ⟨rfl, rfl, rfl, rfl, rfl, by simp⟩

/-- A recorded type that is lowered accounts for its node. -/
theorem accounts_node {ty ty' : Ty} {t : Tally} (done : ty.lower.Yields ty' t) {e : Expr}
    (carried : e.carried = ty.intervals)
    (generic : ∀ op, e.operator? = some op → op.isIntervalOnly = false) : t.Accounts [e] [] := by
  have unused (op : Operator) (special : op.isIntervalOnly = true) : Expr.uses op [e] = 0 := by
    rw [Expr.uses, List.countP_eq_zero]
    intro node found
    rw [List.mem_singleton.mp found, beq_iff_eq]
    intro used
    rw [generic op used] at special
    cases special
  rw [tally_of_lower done]
  exact ⟨rfl, (unused .asInterval rfl).symm, by rw [unused .incp rfl, unused .decp rfl],
    (unused .clip rfl).symm, (unused .wrap rfl).symm, by simp [carried]⟩

end Ty

/-- One wrap, and nothing else. -/
structure Tally.OneWrap (t : Tally) : Prop where
  once : t.allWraps = 1
  only : t = { wraps := t.wraps, widthWraps := t.widthWraps, remainderWraps := t.remainderWraps }

namespace Operand

variable {warn : Bool} {operands : List Operand} {e : Expr} {t : Tally}

/-- A cast is counted once. -/
theorem tally_of_lowerCast (done : (lowerCast operands).Yields e t) : t = { casts := 1 } := by
  unfold lowerCast at done
  split at done
  · rw [yields_count_bind_iff] at done
    obtain ⟨u, next, rfl⟩ := done
    split at next
    · exact (yields_pure_iff.mp next).2 ▸ rfl
    · exact (not_yields_fail next).elim
    · exact (yields_pure_iff.mp next).2 ▸ rfl
  · exact (not_yields_fail done).elim

/-- A move of the point is counted once. -/
theorem tally_of_lowerShift {shift : Operator} {consts : List Int}
    (done : (lowerShift shift consts operands).Yields e t) : t = { shifts := 1 } := by
  unfold lowerShift at done
  split at done
  · rw [yields_count_bind_iff] at done
    obtain ⟨u, next, rfl⟩ := done
    exact (yields_pure_iff.mp next).2 ▸ rfl
  · exact (not_yields_fail done).elim

/-- A saturation is counted once, on the sides that it compares. -/
theorem tally_of_lowerClip {result : Ty} (done : (lowerClip result operands).Yields e t) :
    ∃ sides, t = { saturates := .one sides } := by
  unfold lowerClip at done
  split at done
  · rw [yields_bind_iff] at done
    obtain ⟨⟨lo, hi⟩, _, _, target, next, rfl⟩ := done
    rw [yields_bind_iff] at next
    obtain ⟨⟨inLo, inHi⟩, _, _, range, next, rfl⟩ := next
    rw [yields_tell_bind_iff, yields_count_bind_iff] at next
    obtain ⟨_, next, rfl⟩ := next
    rw [← (yields_ofExcept_iff.mp target).2, ← (yields_ofExcept_iff.mp range).2,
      ← (yields_pure_iff.mp next).2, Tally.empty_add, Tally.empty_add, Tally.add_empty]
    exact ⟨_, rfl⟩
  · exact (not_yields_fail done).elim

/-- A wrap into a range is counted once, however it is done. -/
theorem oneWrap_of_countWrap {value : Expr} {check : RangeCheck} {action : WrapAction}
    (done : (countWrap warn value check action).Yields () t) : t.OneWrap := by
  unfold countWrap at done
  split at done
  · obtain ⟨-, rfl⟩ := done
    exact ⟨by simp [Tally.allWraps], rfl⟩
  · cases warn <;> obtain ⟨-, rfl⟩ := done <;> exact ⟨rfl, rfl⟩

/-- A wrap into a range is counted once, as corrections or as a remainder. -/
theorem oneWrap_of_lowerWrapInto {a : Operand} {lo hi : Int}
    (done : (lowerWrapInto warn a lo hi).Yields e t) : t.OneWrap := by
  rw [lowerWrapInto, yields_bind_iff] at done
  obtain ⟨⟨inLo, inHi⟩, _, _, range, next, rfl⟩ := done
  rw [yields_tell_bind_iff, yields_bind_iff] at next
  obtain ⟨_, _, _, counted, next, rfl⟩ := next
  rw [← (yields_ofExcept_iff.mp range).2, ← (yields_pure_iff.mp next).2, Tally.empty_add,
    Tally.add_empty]
  exact oneWrap_of_countWrap counted

/-- A wrap to a width is counted once. -/
theorem oneWrap_of_lowerWidthWrap {a : Operand} {bound : Ty} {w : Width}
    (done : (lowerWidthWrap a bound w).Yields e t) : t.OneWrap := by
  unfold lowerWidthWrap at done
  split at done
  · split at done
    · exact (not_yields_fail done).elim
    · rw [yields_count_bind_iff] at done
      obtain ⟨_, next, rfl⟩ := done
      rw [← (yields_pure_iff.mp next).2, Tally.add_empty]
      exact ⟨rfl, rfl⟩
  · exact (not_yields_fail done).elim

/-- A wrap is counted once, whatever its bound is. -/
theorem oneWrap_of_lowerWrap (done : (lowerWrap warn operands).Yields e t) : t.OneWrap := by
  unfold lowerWrap at done
  split at done
  · split at done
    · exact oneWrap_of_lowerWidthWrap done
    · exact oneWrap_of_lowerWrapInto done
    · rw [yields_bind_iff] at done
      obtain ⟨⟨lo, hi⟩, _, _, ends, next, rfl⟩ := done
      rw [← (yields_ofExcept_iff.mp ends).2, Tally.empty_add]
      exact oneWrap_of_lowerWrapInto next
    · exact (not_yields_fail done).elim
  · exact (not_yields_fail done).elim

end Operand

/-- An operator that is lowered is accounted for, whatever becomes of its operands. -/
theorem Operator.accounts_of_lower {warn : Bool} {op : Operator} {operands : List Operand}
    {consts : List Int} {ty : Ty} {e : Expr} {t : Tally} (args : List Expr)
    (done : (op.lower warn operands consts ty).Yields e t) :
    t.Accounts [.prim op args consts ty] [] := by
  cases special : op.isIntervalOnly with
  | false =>
    rw [lower_of_generic special, yields_bind_iff] at done
    obtain ⟨ty', s, _, tyDone, next, rfl⟩ := done
    rw [← (yields_pure_iff.mp next).2, Tally.add_empty]
    refine Ty.accounts_node tyDone ?_ ?_
    · rw [Expr.carried, special]
      rfl
    · rintro _ ⟨⟩
      exact special
  | true =>
    cases op with
    | asInterval =>
      rw [Operand.tally_of_lowerCast done]
      exact ⟨rfl, rfl, rfl, rfl, rfl, rfl⟩
    | incp | decp =>
      rw [Operand.tally_of_lowerShift done]
      exact ⟨rfl, rfl, rfl, rfl, rfl, rfl⟩
    | clip =>
      obtain ⟨sides, rfl⟩ := Operand.tally_of_lowerClip done
      exact ⟨rfl, rfl, rfl, ActionCounts.total_one sides, rfl, rfl⟩
    | wrap =>
      obtain ⟨once, only⟩ := Operand.oneWrap_of_lowerWrap done
      rw [only]
      rw [only] at once
      exact ⟨rfl, rfl, rfl, rfl, once, rfl⟩
    | setp => exact (not_yields_fail done).elim
    | _ => cases special

namespace Expr

variable {warn : Bool}

/-- Lowered operands are accounted for one by one. -/
theorem accounts_of_lowerOperands {es : List Expr} {operands : List Operand} {t : Tally}
    (each : ∀ e ∈ es, ∀ e' s, (e.lower warn).Yields e' s → s.Accounts e.nodes [])
    (done : (lowerOperands warn es).Yields operands t) : t.Accounts (es.flatMap nodes) [] := by
  induction es generalizing operands t with
  | nil =>
    rw [lowerOperands, yields_pure_iff] at done
    exact done.2 ▸ .empty
  | cons e es ih =>
    simp only [lowerOperands, yields_bind_iff, yields_pure_iff] at done
    obtain ⟨e', s, _, head, ⟨rest, u, _, tail, ⟨rfl, rfl⟩, rfl⟩, rfl⟩ := done
    rw [Tally.add_empty, List.flatMap_cons]
    exact (each e List.mem_cons_self e' s head).add
      (ih (fun e found => each e (List.mem_cons_of_mem _ found)) tail)

/-- A lowered expression is accounted for node by node. -/
theorem accounts_of_lower {e e' : Expr} {t : Tally} (done : (e.lower warn).Yields e' t) :
    t.Accounts e.nodes [] := by
  induction e generalizing e' t with
  | ref name ty =>
    simp only [lower, yields_bind_iff, yields_pure_iff] at done
    obtain ⟨ty', s, _, tyDone, ⟨rfl, rfl⟩, rfl⟩ := done
    exact Ty.accounts_node tyDone rfl (by simp [operator?])
  | uint | sint =>
    rw [lower, yields_pure_iff] at done
    exact done.2 ▸ ⟨rfl, rfl, rfl, rfl, rfl, rfl⟩
  | field parent name ty ih | index parent position ty ih =>
    simp only [lower, yields_bind_iff, yields_pure_iff] at done
    obtain ⟨parent', s, _, inner, ⟨ty', u, _, tyDone, ⟨rfl, rfl⟩, rfl⟩, rfl⟩ := done
    exact (ih inner).add (Ty.accounts_node tyDone rfl (by simp [operator?]))
  | prim op args consts ty ih =>
    rw [lower, yields_bind_iff] at done
    obtain ⟨operands, s, u, inner, next, rfl⟩ := done
    rw [nodes, allNodes_eq_flatMap]
    exact (accounts_of_lowerOperands (fun arg found _ _ => ih arg found) inner).add
      (Operator.accounts_of_lower args next)
  | mux cond tval fval ty condIh tvalIh fvalIh =>
    simp only [lower, yields_bind_iff, yields_pure_iff] at done
    obtain ⟨cond', s, _, condDone, ⟨tval', u, _, tvalDone, ⟨fval', v, _, fvalDone,
      ⟨ty', w, _, tyDone, ⟨rfl, rfl⟩, rfl⟩, rfl⟩, rfl⟩, rfl⟩ := done
    have inside := (condIh condDone).add ((tvalIh tvalDone).add (fvalIh fvalDone))
    rw [Tally.add_empty, ← Tally.add_assoc, ← Tally.add_assoc, Tally.add_assoc s u v]
    exact inside.add (Ty.accounts_node tyDone rfl (by simp [operator?]))

end Expr

namespace Stmt

variable {warn : Bool}

/-- A lowered statement is accounted for: its declared type, the statements inside and its
expressions. -/
theorem accounts_of_lower {s s' : Stmt} {t : Tally} (done : (s.lower warn).Yields s' t) :
    t.Accounts s.nodes s.declaredTys := by
  rw [nodes_eq, declaredTys_eq]
  induction s generalizing s' t with
  | skip =>
    rw [lower, yields_pure_iff] at done
    exact done.2 ▸ .empty
  | wire name ty =>
    simp only [lower, yields_bind_iff, yields_pure_iff] at done
    obtain ⟨ty', u, _, tyDone, ⟨rfl, rfl⟩, rfl⟩ := done
    exact Ty.accounts_declared tyDone
  | reg name ty clock reset =>
    cases reset with
    | none =>
      simp only [lower, mapExprsM, yields_bind_iff, yields_pure_iff] at done
      obtain ⟨ty', u, _, tyDone, ⟨clock', v, _, clockDone, ⟨rfl, rfl⟩, rfl⟩, rfl⟩ := done
      simpa [exprs, stmts, declaredTy?] using
        (Ty.accounts_declared tyDone).add (Expr.accounts_of_lower clockDone)
    | some reset =>
      simp only [lower, mapExprsM, yields_bind_iff, yields_pure_iff] at done
      obtain ⟨ty', u, _, tyDone, ⟨clock', v, _, clockDone, ⟨signal', w, _, signalDone,
        ⟨init', x, _, initDone, ⟨rfl, rfl⟩, rfl⟩, rfl⟩, rfl⟩, rfl⟩ := done
      have reset := (Expr.accounts_of_lower signalDone).add (Expr.accounts_of_lower initDone)
      simpa [exprs, stmts, declaredTy?] using
        (Ty.accounts_declared tyDone).add ((Expr.accounts_of_lower clockDone).add reset)
  | node name value =>
    simp only [lower, yields_bind_iff, yields_pure_iff] at done
    obtain ⟨value', u, _, valueDone, ⟨rfl, rfl⟩, rfl⟩ := done
    simpa [exprs, stmts, declaredTy?] using Expr.accounts_of_lower valueDone
  | connect loc value | partialConnect loc value =>
    simp only [lower, yields_bind_iff, yields_pure_iff] at done
    obtain ⟨loc', u, _, locDone, ⟨value', v, _, valueDone, ⟨rfl, rfl⟩, rfl⟩, rfl⟩ := done
    simpa [exprs, stmts, declaredTy?] using
      (Expr.accounts_of_lower locDone).add (Expr.accounts_of_lower valueDone)
  | when cond conseq alt conseqIh altIh =>
    simp only [lower, yields_bind_iff, yields_pure_iff] at done
    obtain ⟨conseq', u, _, conseqDone, ⟨alt', v, _, altDone, ⟨cond', w, _, condDone, ⟨rfl, rfl⟩,
      rfl⟩, rfl⟩, rfl⟩ := done
    have conseqAll := conseqIh conseqDone
    have altAll := altIh altDone
    rw [← nodes_eq, ← declaredTys_eq] at conseqAll altAll
    simpa [exprs, stmts, declaredTy?] using
      conseqAll.add (altAll.add (Expr.accounts_of_lower condDone))
  | block stmts ih =>
    simp only [lower, lowerAll_eq_mapM, yields_bind_iff, yields_pure_iff] at done
    obtain ⟨stmts', u, _, inner, ⟨rfl, rfl⟩, rfl⟩ := done
    simp only [← nodes_eq, ← declaredTys_eq] at ih
    simpa [exprs, Stmt.stmts, declaredTy?] using
      Tally.accounts_of_mapM (fun s found _ _ => ih s found) inner
  | invalid loc =>
    simp only [lower, yields_bind_iff, yields_pure_iff] at done
    obtain ⟨loc', u, _, locDone, ⟨rfl, rfl⟩, rfl⟩ := done
    simpa [exprs, stmts, declaredTy?] using Expr.accounts_of_lower locDone

end Stmt

/-- A lowered port accounts for its declared type. -/
theorem Port.accounts_of_lower {p p' : Port} {t : Tally} (done : p.lower.Yields p' t) :
    t.Accounts [] [p.ty] := by
  simp only [lower, mapTyM, yields_bind_iff, yields_pure_iff] at done
  obtain ⟨ty', u, _, tyDone, ⟨-, rfl⟩, rfl⟩ := done
  exact Ty.accounts_declared tyDone

/-- A lowered module is accounted for: its body, then its ports. -/
theorem Module.accounts_of_lower {warn : Bool} {m m' : Module} {t : Tally}
    (done : (m.lower warn).Yields m' t) : t.Accounts m.nodes m.declaredTys := by
  rw [lower, yields_tell_bind_iff, yields_bind_iff] at done
  obtain ⟨middle, s, u, bodyDone, portsDone, rfl⟩ := done
  obtain ⟨-, samePorts, -⟩ :=
    mapBodyM_eq_ok_iff.mp ((outcome_mapBodyM _ m).symm.trans bodyDone.outcome)
  simp only [mapPortsM, samePorts, yields_bind_iff, yields_pure_iff] at portsDone
  obtain ⟨ports', v, _, portsDone, ⟨-, rfl⟩, rfl⟩ := portsDone
  have ports : v.Accounts [] (m.ports.map Port.ty) := by
    have each := Tally.accounts_of_mapM (fun _ _ _ _ => Port.accounts_of_lower) portsDone
    rwa [List.flatMap_eq_nil_iff.mpr fun _ _ => rfl, ← List.map_eq_flatMap] at each
  obtain ⟨name, _, body?⟩ := m
  cases body? with
  | none =>
    obtain ⟨-, rfl⟩ := yields_pure_iff.mp bodyDone
    simpa [nodes, declaredTys] using ports
  | some body =>
    simp only [mapBodyM, yields_bind_iff, yields_pure_iff] at bodyDone
    obtain ⟨body', w, _, inner, ⟨-, rfl⟩, rfl⟩ := bodyDone
    simpa [nodes, declaredTys] using (Stmt.accounts_of_lower inner).add ports

/-- A lowered circuit is accounted for. -/
theorem Circuit.accounts_of_lower {warn : Bool} {c c' : Circuit} {t : Tally}
    (done : (c.lower warn).Yields c' t) : t.Accounts c.nodes c.declaredTys := by
  simp only [lower, mapModulesM, yields_bind_iff, yields_pure_iff] at done
  obtain ⟨modules', s, _, inner, ⟨rfl, rfl⟩, rfl⟩ := done
  rw [Tally.add_empty]
  exact Tally.accounts_of_mapM (fun _ _ _ _ => Module.accounts_of_lower) inner

/-! ## Alignment -/

namespace Expr

/-- How many of the nodes move a binary point. -/
def moves (nodes : List Expr) : Nat := uses .incp nodes + uses .decp nodes

@[simp] theorem moves_append (ns ms : List Expr) : moves (ns ++ ms) = moves ns + moves ms := by
  simp only [moves, uses_append]
  omega

/-- A node that keeps its operator is as much of a move as before. -/
theorem moves_singleton {e e' : Expr} (same : e'.operator? = e.operator?) :
    moves [e'] = moves [e] := by
  simp only [moves, uses, List.countP_singleton, same]

/-- A shift of the point over an expression is one move more. -/
theorem moves_shifted {op : Operator} (shifts : op = .incp ∨ op = .decp) (e : Expr)
    (consts : List Int) (ty : Ty) : moves (prim op [e] consts ty).nodes = 1 + moves e.nodes := by
  have here : moves [prim op [e] consts ty] = 1 := by rcases shifts with rfl | rfl <;> rfl
  rw [nodes_eq, moves_append, here, children, List.flatMap_singleton]
  omega

/-- A `setp` is no move itself. -/
theorem moves_setp (e : Expr) (consts : List Int) (ty : Ty) :
    moves (prim .setp [e] consts ty).nodes = moves e.nodes := by
  have here : moves [prim .setp [e] consts ty] = 0 := rfl
  rw [nodes_eq, moves_append, here, children, List.flatMap_singleton, Nat.add_zero]

end Expr

/-- The tally of an alignment that turned the nodes `before` into the nodes `after`: it counts
rescales and nothing else, and the moves of a point are those from before and the rescales. -/
structure Tally.Inserts (t : Tally) (before after : List Expr) : Prop where
  only : t = { rescales := t.rescales }
  moves_eq : Expr.moves after = t.rescales + Expr.moves before

namespace Tally.Inserts

variable {s t : Tally} {ns ns' ms ms' : List Expr}

/-- Nothing is inserted if there are as many moves as before. -/
theorem of_moves_eq (same : Expr.moves ns' = Expr.moves ns) : Inserts {} ns ns' :=
  ⟨rfl, by simpa using same⟩

theorem refl (ns : List Expr) : Inserts {} ns ns := of_moves_eq rfl

theorem node {e e' : Expr} (same : e'.operator? = e.operator?) : Inserts {} [e] [e'] :=
  of_moves_eq (Expr.moves_singleton same)

/-- Insertions into two lots of nodes are insertions into both together. -/
theorem add (left : s.Inserts ns ns') (right : t.Inserts ms ms') :
    (s + t).Inserts (ns ++ ms) (ns' ++ ms') := by
  refine ⟨?_, ?_⟩
  · rw [left.only, right.only]
    rfl
  · rw [Expr.moves_append, Expr.moves_append, left.moves_eq, right.moves_eq, rescales_add]
    omega

/-- Insertions one after the other add up. -/
theorem trans (first : s.Inserts ns ns') (next : t.Inserts ns' ms) : (s + t).Inserts ns ms := by
  refine ⟨?_, ?_⟩
  · rw [first.only, next.only]
    rfl
  · rw [next.moves_eq, first.moves_eq, rescales_add]
    omega

/-- The order of two lots of nodes is of no account. -/
theorem comm (inserts : t.Inserts (ns ++ ms) (ns' ++ ms')) : t.Inserts (ms ++ ns) (ms' ++ ns') := by
  refine ⟨inserts.only, ?_⟩
  have := inserts.moves_eq
  simp only [Expr.moves_append] at this ⊢
  omega

end Tally.Inserts

/-- What the steps over a list insert, the run over the list inserts. -/
theorem Tally.inserts_of_mapM {α β : Type} {f : α → Reported RemovalError β} {ns : α → List Expr}
    {ms : β → List Expr} {as : List α} {bs : List β} {t : Tally}
    (each : ∀ a ∈ as, ∀ b s, (f a).Yields b s → s.Inserts (ns a) (ms b))
    (done : (as.mapM f).Yields bs t) : t.Inserts (as.flatMap ns) (bs.flatMap ms) := by
  refine Yields.mapM (R := fun a b s => s.Inserts (ns a) (ms b))
    (Q := fun as bs t => t.Inserts (as.flatMap ns) (bs.flatMap ms)) (.refl _) ?_ each done
  intro _ _ _ _ _ _ head tail
  exact head.add tail

namespace Expr

/-- A rescale is a move of the point, and is counted as one. -/
theorem inserts_of_rescale {target : BitCount} {e e' : Expr} {t : Tally}
    (done : (e.rescale target).Yields e' t) : t.Inserts e.nodes e'.nodes := by
  unfold rescale at done
  split at done
  · rw [yields_bind_iff] at done
    obtain ⟨source, _, u, known, next, rfl⟩ := done
    rw [← (yields_ofExcept_iff.mp known).2, Tally.empty_add]
    split at next
    · obtain ⟨rfl, rfl⟩ := yields_pure_iff.mp next
      exact .refl _
    · rw [yields_tell_bind_iff, yields_count_bind_iff] at next
      obtain ⟨_, next, rfl⟩ := next
      obtain ⟨rfl, rfl⟩ := yields_pure_iff.mp next
      refine ⟨rfl, ?_⟩
      unfold rescaleStep
      split
      · exact moves_shifted (.inl rfl) _ _ _
      · exact moves_shifted (.inr rfl) _ _ _
  · exact (not_yields_fail done).elim

/-- What is inserted below a node that keeps its operator is what is inserted altogether. -/
theorem inserts_of_children {e node : Expr} {t : Tally}
    (inside : t.Inserts (e.children.flatMap nodes) (node.children.flatMap nodes))
    (same : node.operator? = e.operator?) : t.Inserts e.nodes node.nodes := by
  rw [nodes_eq e, nodes_eq node]
  exact inside.add (.node same)

/-- Aligning the operands of an operator inserts what it counts. -/
theorem inserts_of_alignPrim {op : Operator} {args : List Expr} {consts : List Int} {ty : Ty}
    {e' : Expr} {t : Tally} (done : (alignPrim op args consts ty).Yields e' t) :
    t.Inserts (prim op args consts ty).nodes e'.nodes := by
  unfold alignPrim at done
  split at done
  · -- A `setp` leaves its operand behind, rescaled.
    rename_i setp
    subst setp
    rw [yields_bind_iff] at done
    obtain ⟨⟨arg, p⟩, _, u, known, moved, rfl⟩ := done
    obtain ⟨operands, rfl⟩ := yields_ofExcept_iff.mp known
    obtain ⟨rfl, -⟩ := setPointOperands_eq_ok_iff.mp operands
    exact Tally.Inserts.trans (.of_moves_eq (moves_setp _ _ _).symm) (inserts_of_rescale moved)
  · split at done
    · rw [yields_bind_iff] at done
      obtain ⟨points, _, u, recorded, next, rfl⟩ := done
      simp only [yields_bind_iff, yields_pure_iff] at next
      obtain ⟨args', s, _, moved, ⟨rfl, rfl⟩, rfl⟩ := next
      rw [← (yields_ofExcept_iff.mp recorded).2, Tally.empty_add, Tally.add_empty]
      refine inserts_of_children ?_ rfl
      exact Tally.inserts_of_mapM (fun _ _ _ _ => inserts_of_rescale) moved
    · obtain ⟨rfl, rfl⟩ := yields_pure_iff.mp done
      exact .refl _

/-- Aligning the branches of a selection inserts what it counts. -/
theorem inserts_of_alignMux {cond tval fval e' : Expr} {i : Interval} {t : Tally}
    (done : (alignMux cond tval fval i).Yields e' t) :
    t.Inserts (mux cond tval fval (.interval i)).nodes e'.nodes := by
  simp only [alignMux, yields_bind_iff, yields_pure_iff, yields_ofExcept_iff] at done
  obtain ⟨p, _, _, ⟨-, rfl⟩, ⟨q, _, _, ⟨-, rfl⟩, ⟨tval', u, _, tmoved, ⟨fval', v, _, fmoved,
    ⟨rfl, rfl⟩, rfl⟩, rfl⟩, rfl⟩, rfl⟩ := done
  have branches := (inserts_of_rescale tmoved).add (inserts_of_rescale fmoved)
  refine inserts_of_children ?_ rfl
  simpa [children] using (Tally.Inserts.refl cond.nodes).add branches

/-- Aligning a node inserts what it counts. -/
theorem inserts_of_alignNode {node e' : Expr} {t : Tally} (done : (alignNode node).Yields e' t) :
    t.Inserts node.nodes e'.nodes := by
  unfold alignNode at done
  split at done
  · exact inserts_of_alignPrim done
  · exact inserts_of_alignMux done
  · obtain ⟨rfl, rfl⟩ := yields_pure_iff.mp done
    exact .refl _

/-- Aligning an expression inserts what it counts. -/
theorem inserts_of_align {e e' : Expr} {t : Tally} (done : e.align.Yields e' t) :
    t.Inserts e.nodes e'.nodes := by
  unfold align at done
  induction e generalizing e' t with
  | ref | uint | sint =>
    rw [replaceUpM] at done
    exact inserts_of_alignNode done
  | field parent name ty ih | index parent position ty ih =>
    rw [replaceUpM, yields_bind_iff] at done
    obtain ⟨parent', s, u, inner, next, rfl⟩ := done
    refine .trans ?_ (inserts_of_alignNode next)
    refine inserts_of_children ?_ rfl
    simpa [children] using ih inner
  | prim op args consts ty ih =>
    rw [replaceUpM, replaceAllUpM_eq_mapM, yields_bind_iff] at done
    obtain ⟨args', s, u, inner, next, rfl⟩ := done
    refine .trans ?_ (inserts_of_alignNode next)
    refine inserts_of_children ?_ rfl
    exact Tally.inserts_of_mapM (fun arg found _ _ => ih arg found) inner
  | mux cond tval fval ty condIh tvalIh fvalIh =>
    simp only [replaceUpM, yields_bind_iff] at done
    obtain ⟨cond', s, _, condDone, ⟨tval', u, _, tvalDone, ⟨fval', v, w, fvalDone, next, rfl⟩, rfl⟩,
      rfl⟩ := done
    have inside := (condIh condDone).add ((tvalIh tvalDone).add (fvalIh fvalDone))
    rw [← Tally.add_assoc, ← Tally.add_assoc, Tally.add_assoc s u v]
    refine .trans ?_ (inserts_of_alignNode next)
    refine inserts_of_children ?_ rfl
    simpa [children] using inside

/-- Fitting a value to its location inserts what it counts. -/
theorem inserts_of_fitTo {loc value value' : Expr} {t : Tally}
    (done : (loc.fitTo value).Yields value' t) : t.Inserts value.nodes value'.nodes := by
  unfold fitTo at done
  split at done
  · rw [yields_bind_iff] at done
    obtain ⟨p, _, u, known, moved, rfl⟩ := done
    rw [← (yields_ofExcept_iff.mp known).2, Tally.empty_add]
    exact inserts_of_rescale moved
  · obtain ⟨rfl, rfl⟩ := yields_pure_iff.mp done
    exact .refl _

end Expr

namespace Stmt

/-- Aligning a statement inserts what it counts. -/
theorem inserts_of_align {s s' : Stmt} {t : Tally} (done : s.align.Yields s' t) :
    t.Inserts s.nodes s'.nodes := by
  rw [nodes_eq s, nodes_eq s']
  induction s generalizing s' t with
  | wire | skip =>
    rw [align, yields_pure_iff] at done
    obtain ⟨rfl, rfl⟩ := done
    exact .refl _
  | reg name ty clock reset =>
    cases reset with
    | none =>
      simp only [align, mapExprsM, yields_bind_iff, yields_pure_iff] at done
      obtain ⟨clock', u, _, clockDone, ⟨rfl, rfl⟩, rfl⟩ := done
      simpa [exprs, stmts] using Expr.inserts_of_align clockDone
    | some reset =>
      simp only [align, mapExprsM, yields_bind_iff, yields_pure_iff] at done
      obtain ⟨clock', u, _, clockDone, ⟨signal', v, _, signalDone, ⟨init', w, _, initDone,
        ⟨rfl, rfl⟩, rfl⟩, rfl⟩, rfl⟩ := done
      have reset := (Expr.inserts_of_align signalDone).add (Expr.inserts_of_align initDone)
      simpa [exprs, stmts] using (Expr.inserts_of_align clockDone).add reset
  | node name value =>
    simp only [align, yields_bind_iff, yields_pure_iff] at done
    obtain ⟨value', u, _, valueDone, ⟨rfl, rfl⟩, rfl⟩ := done
    simpa [exprs, stmts] using Expr.inserts_of_align valueDone
  | connect loc value | partialConnect loc value =>
    simp only [align, yields_bind_iff, yields_pure_iff] at done
    obtain ⟨loc', u, _, locDone, ⟨value', v, _, valueDone, ⟨value'', w, _, fitted, ⟨rfl, rfl⟩, rfl⟩,
      rfl⟩, rfl⟩ := done
    have source := (Expr.inserts_of_align valueDone).trans (Expr.inserts_of_fitTo fitted)
    simpa [exprs, stmts] using (Expr.inserts_of_align locDone).add source
  | when cond conseq alt conseqIh altIh =>
    simp only [align, yields_bind_iff, yields_pure_iff] at done
    obtain ⟨cond', u, _, condDone, ⟨conseq', v, _, conseqDone, ⟨alt', w, _, altDone, ⟨rfl, rfl⟩,
      rfl⟩, rfl⟩, rfl⟩ := done
    have branches := (conseqIh conseqDone).add (altIh altDone)
    rw [← nodes_eq, ← nodes_eq, ← nodes_eq, ← nodes_eq] at branches
    -- The condition is aligned before the branches and listed after them.
    simpa [exprs, stmts] using ((Expr.inserts_of_align condDone).add branches).comm
  | block stmts ih =>
    simp only [align, alignAll_eq_mapM, yields_bind_iff, yields_pure_iff] at done
    obtain ⟨stmts', u, _, inner, ⟨rfl, rfl⟩, rfl⟩ := done
    simp only [← nodes_eq] at ih
    simpa [exprs, Stmt.stmts] using Tally.inserts_of_mapM (fun s found _ _ => ih s found) inner
  | invalid loc =>
    simp only [align, yields_bind_iff, yields_pure_iff] at done
    obtain ⟨loc', u, _, locDone, ⟨rfl, rfl⟩, rfl⟩ := done
    simpa [exprs, stmts] using Expr.inserts_of_align locDone

end Stmt

/-- Aligning a module inserts what it counts. -/
theorem Module.inserts_of_align {m m' : Module} {t : Tally} (done : m.align.Yields m' t) :
    t.Inserts m.nodes m'.nodes := by
  rw [align, yields_tell_bind_iff] at done
  obtain ⟨name, ports, body?⟩ := m
  cases body? with
  | none =>
    obtain ⟨rfl, rfl⟩ := yields_pure_iff.mp done
    exact .refl _
  | some body =>
    simp only [mapBodyM, yields_bind_iff, yields_pure_iff] at done
    obtain ⟨body', u, _, inner, ⟨rfl, rfl⟩, rfl⟩ := done
    simpa [nodes] using Stmt.inserts_of_align inner

/-- Aligning a circuit counts the rescales that it inserts, and nothing else. -/
theorem Circuit.inserts_of_align {c c' : Circuit} {t : Tally} (done : c.align.Yields c' t) :
    t.Inserts c.nodes c'.nodes := by
  simp only [align, mapModulesM, yields_bind_iff, yields_pure_iff] at done
  obtain ⟨modules', s, _, inner, ⟨rfl, rfl⟩, rfl⟩ := done
  rw [Tally.add_empty]
  exact Tally.inserts_of_mapM (fun _ _ _ _ => Module.inserts_of_align) inner

/-! ## Runs -/

/-- The tally describes the circuit by what alignment made of it: how often each of the operators
that are reserved for intervals is used, how many rescales account for the moves of a point that the
circuit does not have itself, and how many intervals are recorded. -/
structure Tally.Describes (t : Tally) (c aligned : Circuit) : Prop where
  saturates : t.saturates.total = aligned.uses .clip
  wraps : t.wraps.total + t.widthWraps + t.remainderWraps = aligned.uses .wrap
  casts : t.casts = aligned.uses .asInterval
  shifts : t.shifts = aligned.uses .incp + aligned.uses .decp
  rescales : t.shifts = t.rescales + (c.uses .incp + c.uses .decp)
  types : t.types = aligned.recordedIntervals.length

/-- The counts of an alignment and of the lowering after it, together. -/
theorem Tally.describes_of_accounts {s t : Tally} {c aligned : Circuit}
    (inserts : s.Inserts c.nodes aligned.nodes)
    (accounts : t.Accounts aligned.nodes aligned.declaredTys) : (s + t).Describes c aligned := by
  have moves := inserts.moves_eq
  rw [inserts.only]
  constructor
  · rw [saturates_add, ActionCounts.total_add, accounts.saturates]
    exact Nat.zero_add _
  · have wraps := accounts.wraps
    simpa [allWraps, ActionCounts.total, Circuit.uses] using wraps
  · rw [casts_add, accounts.casts]
    exact Nat.zero_add _
  · rw [shifts_add, accounts.shifts]
    exact Nat.zero_add _
  · rw [shifts_add, rescales_add, accounts.shifts, accounts.rescales]
    simpa [Expr.moves, Circuit.uses] using moves
  · rw [types_add, accounts.types]
    exact Nat.zero_add _

/-- A run that succeeds describes its circuit. -/
theorem Circuit.describes_of_removeIntervalsWith {options : RemovalOptions}
    {inference : TypeInference} {c d : Circuit}
    (done : (c.removeIntervalsWith options inference).outcome = .ok d) :
    ∃ aligned, c.align.outcome = .ok aligned ∧
      (c.removeIntervalsWith options inference).report.tally.Describes c aligned := by
  rw [removeIntervalsWith_outcome] at done
  rw [removeIntervalsWith_tally]
  have stages := Yields.of_outcome done
  generalize (c.removeStages options inference).report.tally = t at stages
  simp only [removeStages, yields_bind_iff, yields_ofExcept_iff, yields_pure_iff] at stages
  obtain ⟨aligned, s, _, alignDone, ⟨lowered, u, _, lowerDone, ⟨_, _, _, ⟨-, rfl⟩,
    ⟨_, _, _, ⟨-, rfl⟩, ⟨-, rfl⟩, rfl⟩, rfl⟩, rfl⟩, rfl⟩ := stages
  exact ⟨aligned, alignDone.outcome,
    Tally.describes_of_accounts (inserts_of_align alignDone) (accounts_of_lower lowerDone)⟩

namespace Remover

/-- A removal that has not run yet. -/
def fresh (options : RemovalOptions) (inference : TypeInference) : Remover :=
  { options, inference }

/-- The removal after runs on the circuits, one after the other. -/
def after (r : Remover) (cs : List Circuit) : Remover := cs.foldl (fun r c => (r.run c).1) r

/-- The run on the circuit succeeds. -/
def Succeeds (r : Remover) (c : Circuit) : Prop := ∃ d, (r.run c).2.outcome = .ok d

/-- A run returns what a removal with its options and inference returns. -/
theorem run_snd (r : Remover) (c : Circuit) :
    (r.run c).2 = c.removeIntervalsWith r.options r.inference := by
  simp only [run]
  split <;> rfl

/-- A run that succeeds leaves the counts of its circuit behind. -/
theorem stats_run_of_succeeds {r : Remover} {c : Circuit} (succeeds : r.Succeeds c) :
    ∃ aligned, c.align.outcome = .ok aligned ∧ (r.run c).1.stats.Describes c aligned := by
  obtain ⟨d, done⟩ := succeeds
  rw [run_snd] at done
  obtain ⟨aligned, alignDone, describes⟩ := Circuit.describes_of_removeIntervalsWith done
  refine ⟨aligned, alignDone, ?_⟩
  simp only [run, done]
  exact describes

/-- A run that fails leaves everything as it was. -/
theorem run_fst_of_fails {r : Remover} {c : Circuit} (fails : ¬ r.Succeeds c) :
    (r.run c).1 = r := by
  simp only [run]
  split
  · rename_i d done
    exact (fails ⟨d, (run_snd r c).symm ▸ done⟩).elim
  · rfl

/-- Runs change nothing but the counts. -/
theorem settings_run (r : Remover) (c : Circuit) :
    (r.run c).1.options = r.options ∧ (r.run c).1.inference = r.inference := by
  simp only [run]
  split <;> exact ⟨rfl, rfl⟩

/-- Of runs in sequence the last comes after all others. -/
theorem after_concat (r : Remover) (cs : List Circuit) (c : Circuit) :
    r.after (cs ++ [c]) = ((r.after cs).run c).1 := by
  simp [after]

theorem settings_after (r : Remover) (cs : List Circuit) :
    (r.after cs).options = r.options ∧ (r.after cs).inference = r.inference := by
  induction cs using List.reverseRecOn with
  | nil => exact ⟨rfl, rfl⟩
  | append_singleton cs c ih =>
    rw [after_concat]
    exact ⟨(settings_run _ c).1.trans ih.1, (settings_run _ c).2.trans ih.2⟩

/-- What came before has no influence on whether a run succeeds. -/
theorem succeeds_after_iff (r : Remover) (cs : List Circuit) (c : Circuit) :
    (r.after cs).Succeeds c ↔ r.Succeeds c := by
  simp only [Succeeds, run_snd, settings_after]

/-- After any sequence of runs, whichever of them failed, the counts are those of the latest circuit
that came through, and zero if none did. -/
theorem stats_after (options : RemovalOptions) (inference : TypeInference) (cs : List Circuit) :
    (∀ c ∈ cs, ¬ (fresh options inference).Succeeds c) ∧
        ((fresh options inference).after cs).stats = {} ∨
      ∃ before c rest aligned, cs = before ++ c :: rest ∧ (fresh options inference).Succeeds c ∧
        (∀ x ∈ rest, ¬ (fresh options inference).Succeeds x) ∧ c.align.outcome = .ok aligned ∧
        ((fresh options inference).after cs).stats.Describes c aligned := by
  induction cs using List.reverseRecOn with
  | nil => exact .inl ⟨nofun, rfl⟩
  | append_singleton cs c ih =>
    rw [after_concat]
    by_cases succeeds : (fresh options inference).Succeeds c
    · obtain ⟨aligned, done, describes⟩ :=
        stats_run_of_succeeds ((succeeds_after_iff _ cs c).mpr succeeds)
      exact .inr ⟨cs, c, [], aligned, rfl, succeeds, nofun, done, describes⟩
    · rw [run_fst_of_fails (mt (succeeds_after_iff _ cs c).mp succeeds)]
      rcases ih with ⟨none, zero⟩ | ⟨before, d, rest, aligned, rfl, came, failed, done, describes⟩
      · exact .inl ⟨List.forall_mem_append.mpr ⟨none, by simpa using succeeds⟩, zero⟩
      · exact .inr ⟨before, d, rest ++ [c], aligned, by simp, came,
          List.forall_mem_append.mpr ⟨failed, by simpa using succeeds⟩, done, describes⟩

/-- A run on a circuit whose port has an open range fails in lowering, and leaves the counts of the
run before it. -/
example :
    let unbounded : Ty := .interval (.of .unbounded (.ofInt 1) (.known (.ofNat 0)))
    let failing : Circuit := ⟨"Top", [⟨"Top", [⟨"a", .input, unbounded⟩], some .skip⟩]⟩
    ((fresh {} Circuit.infer).after [Circuit.saturating, failing]).stats
      = { types := 6, saturates := { both := 1 } } := by
  rfl

end Remover

end IntervalHdl
