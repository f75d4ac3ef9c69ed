import IntervalHdl.Proofs.Counting
import IntervalHdl.Proofs.Removal.Verification
import IntervalHdl.Proofs.Typing.Skeleton

/-!
# Nothing left to remove

Alignment and lowering have nothing to do at a node without intervals, so a circuit without them
passes through both unchanged and uncounted, and a removal is type inference alone. What a removal
returns is such a circuit, at inferred types already: removing intervals from it once more returns
it again (`Circuit.removeIntervals_identity`).
-/

namespace IntervalHdl
set_option autoImplicit false

open Reported

namespace Ty

theorem lowerFields_of_free {fields : List (Field Ty)}
    (each : ∀ field ∈ fields, field.ty.lower = pure field.ty) :
    lowerFields fields = pure fields := by
  induction fields with
  | nil => rfl
  | cons field fields ih =>
    have rest := ih fun field found => each field (List.mem_cons_of_mem _ found)
    simp only [lowerFields, each field List.mem_cons_self, rest, pure_bind]

/-- A type without intervals is lowered to itself, and nothing is counted. -/
theorem lower_of_free {t : Ty} (free : ¬ t.HasInterval) : t.lower = pure t := by
  induction t with
  | uint | sint | clock | unknown => rfl
  | interval t => exact (free (.interval t)).elim
  | bundle fields ih =>
    have each : ∀ field ∈ fields, field.ty.lower = pure field.ty := fun field found =>
      ih field found fun occurs => free (.field found occurs)
    simp only [lower, lowerFields_of_free each, pure_bind]
  | vector elem size ih =>
    simp only [lower, ih fun occurs => free (.elem size occurs), pure_bind]

theorem isInterval_of_free {t : Ty} (free : ¬ t.HasInterval) : t.isInterval = false := by
  cases t with
  | interval t => exact (free (.interval t)).elim
  | _ => rfl

end Ty

namespace Expr

/-- A replacement that keeps every node as it is keeps the expression. -/
theorem replaceUpM_of_everywhere {m : Type → Type} [Monad m] [LawfulMonad m] {f : Expr → m Expr}
    {e : Expr} (same : e.Everywhere fun e => f e = pure e) : e.replaceUpM f = pure e := by
  induction e with
  | ref | uint | sint => simpa only [replaceUpM] using same.here
  | field parent name ty ih | index parent position ty ih =>
    rw [replaceUpM, ih (same.inside _ List.mem_cons_self), pure_bind]
    exact same.here
  | prim op args consts ty ih =>
    have operands : args.mapM (replaceUpM f) = pure args :=
      mapM_eq_self fun arg found => ih arg found (same.inside _ found)
    rw [replaceUpM, replaceAllUpM_eq_mapM, operands, pure_bind]
    exact same.here
  | mux cond tval fval ty condIh tvalIh fvalIh =>
    rw [replaceUpM, condIh (same.inside _ (by simp [children])),
      tvalIh (same.inside _ (by simp [children])), fvalIh (same.inside _ (by simp [children])),
      pure_bind, pure_bind, pure_bind]
    exact same.here

/-- Operands without intervals never meet at a point. An operator without operands has none. -/
theorem meets_of_free {args : List Expr} (op : Operator) (free : ∀ arg ∈ args, arg.Free) :
    meets op args = false := by
  cases args with
  | nil => simp [meets]
  | cons arg args =>
    have plain := Ty.isInterval_of_free (free arg List.mem_cons_self).here.ty
    simp [meets, plain]

/-- There is nothing to align at a node without intervals. -/
theorem alignNode_of_free {e : Expr} (free : e.Free) : alignNode e = pure e := by
  cases e with
  | prim op args consts ty =>
    have generic : op.isIntervalOnly = false := free.here.operator op rfl
    have stays : op ≠ .setp := by
      rintro rfl
      cases generic
    have apart : meets op args = false := meets_of_free op free.inside
    simp only [alignNode, alignPrim, if_neg stays, apart]
    rfl
  | mux cond tval fval ty =>
    cases ty with
    | interval t => exact (free.here.ty (.interval t)).elim
    | _ => rfl
  | ref | field | index | uint | sint => rfl

/-- What holds of every expression without intervals holds throughout one. -/
theorem Free.mono {P : Expr → Prop} {e : Expr} (free : e.Free) (step : ∀ e : Expr, e.Free → P e) :
    e.Everywhere P := by
  induction free with
  | intro here inside ih => exact ⟨step _ ⟨here, inside⟩, ih⟩

/-- An expression without intervals is aligned as it is. -/
theorem align_of_free {e : Expr} (free : e.Free) : e.align = pure e :=
  replaceUpM_of_everywhere (free.mono fun _ => alignNode_of_free)

/-- A value is left as it is for a location without intervals. -/
theorem fitTo_of_free {loc : Expr} (free : loc.Free) (value : Expr) :
    loc.fitTo value = pure value := by
  unfold fitTo
  split
  · rename_i t ty
    exact (free.here.ty (ty ▸ .interval t)).elim
  · rfl

theorem lowerOperands_of_free {warn : Bool} {args : List Expr}
    (each : ∀ arg ∈ args, arg.lower warn = pure arg) :
    lowerOperands warn args = pure (args.map fun arg => ⟨arg, arg.ty⟩) := by
  induction args with
  | nil => rfl
  | cons arg args ih =>
    have rest := ih fun arg found => each arg (List.mem_cons_of_mem _ found)
    simp only [lowerOperands, each arg List.mem_cons_self, rest, pure_bind, List.map_cons]

/-- An expression without intervals is lowered to itself. -/
theorem lower_of_free {warn : Bool} {e : Expr} (free : e.Free) : e.lower warn = pure e := by
  induction e with
  | uint | sint => rfl
  | ref name ty =>
    have tyDone : ty.lower = pure ty := Ty.lower_of_free free.here.ty
    simp only [lower, tyDone, pure_bind]
  | field parent name ty ih | index parent position ty ih =>
    have tyDone : ty.lower = pure ty := Ty.lower_of_free free.here.ty
    simp only [lower, ih (free.inside _ List.mem_cons_self), tyDone, pure_bind]
  | prim op args consts ty ih =>
    have generic : op.isIntervalOnly = false := free.here.operator op rfl
    have tyDone : ty.lower = pure ty := Ty.lower_of_free free.here.ty
    have operands := lowerOperands_of_free fun arg found => ih arg found (free.inside _ found)
    rw [lower, operands, pure_bind, Operator.lower_of_generic generic, tyDone, pure_bind,
      List.map_map, Function.comp_def, List.map_id']
  | mux cond tval fval ty condIh tvalIh fvalIh =>
    have tyDone : ty.lower = pure ty := Ty.lower_of_free free.here.ty
    simp only [lower, condIh (free.inside _ (by simp [children])),
      tvalIh (free.inside _ (by simp [children])), fvalIh (free.inside _ (by simp [children])),
      tyDone, pure_bind]

end Expr

namespace Stmt

/-- A pass that leaves the expressions of a statement leaves the statement. -/
theorem mapExprsM_of_free {f : Expr → Reported RemovalError Expr} {s : Stmt}
    (same : ∀ e ∈ s.exprs, f e = pure e) : s.mapExprsM f = pure s := by
  cases s with
  | reg name ty clock reset =>
    cases reset with
    | none => simp only [mapExprsM, same clock (by simp [exprs]), pure_bind]
    | some reset =>
      simp only [mapExprsM, same clock (by simp [exprs]), same reset.signal (by simp [exprs]),
        same reset.init (by simp [exprs]), pure_bind]
  | node name value => simp only [mapExprsM, same value (by simp [exprs]), pure_bind]
  | connect loc value | partialConnect loc value =>
    simp only [mapExprsM, same loc (by simp [exprs]), same value (by simp [exprs]), pure_bind]
  | when cond conseq alt => simp only [mapExprsM, same cond (by simp [exprs]), pure_bind]
  | invalid loc => simp only [mapExprsM, same loc (by simp [exprs]), pure_bind]
  | wire | block | skip => rfl

theorem align_exprs_of_free {s : Stmt} (free : s.Everywhere NodeFree) :
    ∀ e ∈ s.exprs, e.align = pure e := fun e found => Expr.align_of_free (free.here.exprs e found)

/-- A statement without intervals is aligned as it is. -/
theorem align_of_free {s : Stmt} (free : s.Everywhere NodeFree) : s.align = pure s := by
  have each := align_exprs_of_free free
  induction s with
  | wire | skip => rfl
  | reg name ty clock reset =>
    rw [align]
    exact mapExprsM_of_free each
  | node name value => simp only [align, each value (by simp [exprs]), pure_bind]
  | connect loc value | partialConnect loc value =>
    have fits := Expr.fitTo_of_free (free.here.exprs loc (by simp [exprs])) value
    simp only [align, each loc (by simp [exprs]), each value (by simp [exprs]), fits, pure_bind]
  | when cond conseq alt conseqIh altIh =>
    have conseqFree := free.inside conseq (by simp [stmts])
    have altFree := free.inside alt (by simp [stmts])
    simp only [align, each cond (by simp [exprs]),
      conseqIh conseqFree (align_exprs_of_free conseqFree),
      altIh altFree (align_exprs_of_free altFree), pure_bind]
  | block stmts ih =>
    have inner : stmts.mapM align = pure stmts := mapM_eq_self fun s found =>
      ih s found (free.inside s found) (align_exprs_of_free (free.inside s found))
    simp only [align, alignAll_eq_mapM, inner, pure_bind]
  | invalid loc => simp only [align, each loc (by simp [exprs]), pure_bind]

theorem lower_exprs_of_free (warn : Bool) {s : Stmt} (free : s.Everywhere NodeFree) :
    ∀ e ∈ s.exprs, e.lower warn = pure e := fun e found =>
  Expr.lower_of_free (free.here.exprs e found)

/-- A statement without intervals is lowered to itself. -/
theorem lower_of_free (warn : Bool) {s : Stmt} (free : s.Everywhere NodeFree) :
    s.lower warn = pure s := by
  have each := lower_exprs_of_free warn free
  induction s with
  | wire name ty =>
    have tyDone := Ty.lower_of_free (free.here.declared ty rfl)
    simp only [lower, tyDone, pure_bind]
  | reg name ty clock reset =>
    have tyDone := Ty.lower_of_free (free.here.declared ty rfl)
    simp only [lower, tyDone, pure_bind]
    exact mapExprsM_of_free each
  | node name value => simp only [lower, each value (by simp [exprs]), pure_bind]
  | connect loc value | partialConnect loc value =>
    simp only [lower, each loc (by simp [exprs]), each value (by simp [exprs]), pure_bind]
  | when cond conseq alt conseqIh altIh =>
    have conseqFree := free.inside conseq (by simp [stmts])
    have altFree := free.inside alt (by simp [stmts])
    simp only [lower, each cond (by simp [exprs]),
      conseqIh conseqFree (lower_exprs_of_free warn conseqFree),
      altIh altFree (lower_exprs_of_free warn altFree), pure_bind]
  | block stmts ih =>
    have inner : stmts.mapM (lower warn) = pure stmts := mapM_eq_self fun s found =>
      ih s found (free.inside s found) (lower_exprs_of_free warn (free.inside s found))
    simp only [lower, lowerAll_eq_mapM, inner, pure_bind]
  | invalid loc => simp only [lower, each loc (by simp [exprs]), pure_bind]
  | skip => rfl

end Stmt

namespace Module

theorem mapBodyM_of_free {f : Stmt → Reported RemovalError Stmt} {m : Module}
    (same : ∀ body ∈ m.body?, f body = pure body) : m.mapBodyM f = pure m := by
  obtain ⟨name, ports, body?⟩ := m
  cases body? with
  | none => rfl
  | some body => simp only [mapBodyM, same body rfl, pure_bind]

/-- A module without intervals is aligned as it is, and nothing is counted. -/
theorem yields_align_of_free {m : Module} (free : m.IntervalFree) : m.align.Yields m {} := by
  have body := mapBodyM_of_free fun body found => Stmt.align_of_free (free.body body found)
  rw [align, yields_tell_bind_iff, body, yields_pure_iff]
  exact ⟨rfl, rfl⟩

/-- A module without intervals is lowered to itself, and nothing is counted. -/
theorem yields_lower_of_free (warn : Bool) {m : Module} (free : m.IntervalFree) :
    (m.lower warn).Yields m {} := by
  have body := mapBodyM_of_free fun body found => Stmt.lower_of_free warn (free.body body found)
  have port : ∀ p ∈ m.ports, p.lower = pure p := fun p found => by
    simp only [Port.lower, Port.mapTyM, Ty.lower_of_free (free.ports p found), pure_bind]
  rw [lower, yields_tell_bind_iff, body, pure_bind, mapPortsM, mapM_eq_self port, pure_bind,
    yields_pure_iff]
  exact ⟨rfl, rfl⟩

end Module

namespace Circuit

theorem mapModulesM_of_free {f : Module → Reported RemovalError Module} {c : Circuit}
    (same : ∀ m ∈ c.modules, (f m).Yields m {}) : (c.mapModulesM f).Yields c {} := by
  rw [mapModulesM, yields_bind_iff]
  exact ⟨c.modules, {}, {}, yields_mapM_self same, yields_pure_iff.mpr ⟨rfl, rfl⟩, rfl⟩

/-- Alignment does and counts nothing on a circuit without intervals. -/
theorem yields_align_of_free {c : Circuit} (free : c.IntervalFree) : c.align.Yields c {} :=
  mapModulesM_of_free fun m found => Module.yields_align_of_free (free m found)

/-- Lowering does and counts nothing on a circuit without intervals. -/
theorem yields_lower_of_free (warn : Bool) {c : Circuit} (free : c.IntervalFree) :
    (c.lower warn).Yields c {} :=
  mapModulesM_of_free fun m found => Module.yields_lower_of_free warn (free m found)

/-- All but the last stage of a removal do and count nothing on a circuit without intervals. -/
theorem typedStages_of_free (options : RemovalOptions) {c : Circuit} (free : c.IntervalFree) :
    (c.typedStages options).outcome = c.retype options infer ∧
      (c.typedStages options).report.tally = {} := by
  have aligned := yields_align_of_free free
  have lowered := yields_lower_of_free options.warnOnRemainder free
  unfold typedStages
  rw [bind_of_ok aligned.outcome, bind_of_ok lowered.outcome]
  simp only [Report.tally_append, aligned.tally, lowered.tally]
  exact ⟨rfl, rfl⟩

/-- Removing intervals from a circuit without them is typing it. -/
theorem removeIntervals_of_free {c : Circuit} (free : c.IntervalFree) :
    c.removeIntervals.outcome = c.infer.mapError .inference ∧
      c.removeIntervals.report.tally = {} := by
  obtain ⟨outcome, tally⟩ := typedStages_of_free {} free
  rw [removeIntervals, removeIntervalsWith_outcome, removeIntervalsWith_tally, removeStages_eq]
  exact ⟨outcome, tally⟩

/-- What a removal returns has no intervals and is typed. -/
theorem intervalFree_and_typed_of_removeIntervals {c d : Circuit}
    (done : c.removeIntervals.outcome = .ok d) : d.IntervalFree ∧ d.infer = .ok d := by
  obtain ⟨aligned, lowered, -, lowerDone, typed⟩ := removeIntervals_eq_ok_iff.mp done
  refine ⟨intervalFree_of_infer (intervalFree_of_lower lowerDone) typed, ?_⟩
  rw [← infer_skeleton, skeleton_of_infer typed, infer_skeleton, typed]

/-- A circuit without intervals passes through alignment and lowering as it is, whoever keeps the
account, and a removal is type inference alone. What a removal returns is returned again by
another one, which counts nothing. -/
theorem removeIntervals_identity (c : Circuit) :
    (c.IntervalFree →
      (∀ a : Aligner, (a.run c).1 = a ∧ (a.run c).2.outcome = .ok c) ∧
      (∀ l : Lowerer, (l.run c).1 = l ∧ (l.run c).2.outcome = .ok c) ∧
      c.removeIntervals.outcome = c.infer.mapError .inference) ∧
    ∀ d, c.removeIntervals.outcome = .ok d →
      d.removeIntervals.outcome = .ok d ∧
        ∀ stats : Tally, (Remover.run { stats } d).1.stats = {} := by
  refine ⟨fun free => ⟨fun a => ?_, fun l => ?_, (removeIntervals_of_free free).1⟩,
    fun d done => ?_⟩
  · have aligned := yields_align_of_free free
    refine ⟨?_, aligned.outcome⟩
    simp only [Aligner.run, Aligner.after, aligned.tally]
    rfl
  · have lowered := yields_lower_of_free l.warn free
    refine ⟨?_, lowered.outcome⟩
    simp only [Lowerer.run, lowered.tally]
    rfl
  · obtain ⟨free, typed⟩ := intervalFree_and_typed_of_removeIntervals done
    obtain ⟨outcome, tally⟩ := removeIntervals_of_free free
    rw [typed] at outcome
    refine ⟨outcome, fun stats => ?_⟩
    have run_ok : (d.removeIntervalsWith {} infer).outcome = .ok d := outcome
    simp only [Remover.run, run_ok]
    exact tally

/-- What is left of the saturating circuit passes every stage unchanged. -/
theorem removeIntervals_identity_saturating :
    ∃ d, saturating.removeIntervals.outcome = .ok d ∧ d.IntervalFree ∧
      (Aligner.run {} d).1.rescales = 0 ∧ (Lowerer.run {} d).2.outcome = .ok d ∧
      d.removeIntervals.outcome = .ok d ∧ (Remover.run {} d).1.stats = {} := by
  have done : saturating.removeIntervals.outcome = .ok _ := rfl
  have free := (intervalFree_and_typed_of_removeIntervals done).1
  obtain ⟨aligns, lowers, -⟩ := (removeIntervals_identity _).1 free
  obtain ⟨again, stats⟩ := (removeIntervals_identity saturating).2 _ done
  exact ⟨_, done, free, congrArg Aligner.rescales (aligns {}).1, (lowers {}).2, again, stats {}⟩

end Circuit

end IntervalHdl
