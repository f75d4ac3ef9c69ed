import IntervalHdl.Proofs.Alignment.Steps

/-!
# Where values meet after alignment

The postcondition of alignment, at every position: operands that have to share a point do, and a
saturation or a wrap has its result there; so do the branches and the result of an interval-typed
selection; what is connected to an interval-typed location is recorded at the location's point; and
no `setp` is left. Steps further up only put rescales on top of aligned expressions, so what holds
at a position stays (`Expr.everywhere_rescaled`).
-/

namespace IntervalHdl
set_option autoImplicit false

namespace Expr

/-- What meets at the node itself is recorded at one point. An operator without operands has no
point that its result could share. -/
def PointsMeet : Expr → Prop
  | .prim op args _ ty =>
    op ≠ .setp ∧
      (op.needsCommonPoint = true → (∀ arg ∈ args, arg.ty.isInterval = true) →
        ∃ p, (∀ arg ∈ args, arg.ty.HasPoint p) ∧
          (op = .wrap ∨ op = .clip → ty.isInterval = true → args = [] ∨ ty.HasPoint p))
  | .mux _ tval fval ty =>
    ty.isInterval = true → ∃ p, tval.ty.HasPoint p ∧ fval.ty.HasPoint p ∧ ty.HasPoint p
  | _ => True

theorem meets_eq_false_iff {op : Operator} {args : List Expr} :
    meets op args = false ↔
      (op.needsCommonPoint = true → (∀ arg ∈ args, arg.ty.isInterval = true) → args = []) := by
  cases args with
  | nil => simp [meets]
  | cons arg args =>
    simp only [meets, List.isEmpty_cons, Bool.not_false, Bool.and_true, Bool.and_eq_false_iff,
      List.all_eq_false, Bool.not_eq_true, reduceCtorEq, imp_false, not_forall]
    constructor
    · rintro (free | ⟨a, found, other⟩) common
      · rw [free] at common
        cases common
      · exact ⟨a, found, by simp [other]⟩
    · intro some
      cases common : op.needsCommonPoint with
      | false => exact .inl rfl
      | true =>
        obtain ⟨a, found, other⟩ := some common
        exact .inr ⟨a, found, by simpa using other⟩

/-- A saturation or a wrap moves an interval-typed result to the common point. -/
theorem hasPoint_repoint {op : Operator} {p : BitCount} {ty : Ty} (moves : op = .wrap ∨ op = .clip)
    (interval : (op.repoint p ty).isInterval = true) : (op.repoint p ty).HasPoint p := by
  obtain ⟨t, rfl⟩ : ∃ t, ty = .interval t := by
    rw [← Ty.isInterval_iff]
    cases ty <;> first | rfl | (rcases moves with rfl | rfl <;> cases interval)
  rcases moves with rfl | rfl <;> exact Ty.hasPoint_atPoint t p

/-- Points meet in a moved expression if they do in the expression. -/
theorem everywhere_rescaled {target : BitCount} {e e' : Expr} (all : e.Everywhere PointsMeet)
    (moved : Rescaled target e e') : e'.Everywhere PointsMeet := by
  cases moved with
  | same => exact all
  | moved ty point apart =>
    refine ⟨?_, ?_⟩
    · unfold rescaleStep
      split <;> exact ⟨nofun, nofun⟩
    · simpa [children] using all

/-- Aligning a node makes its values meet, and keeps what holds below it. -/
theorem everywhere_pointsMeet_of_nodeAligned {node e' : Expr}
    (inside : ∀ child ∈ node.children, child.Everywhere PointsMeet)
    (aligned : NodeAligned node e') : e'.Everywhere PointsMeet := by
  cases aligned with
  | setp ty amount moved => exact everywhere_rescaled (inside _ List.mem_cons_self) moved
  | @meet op args args' points consts ty common recorded moved =>
    have at_common : ∀ arg ∈ args', arg.ty.HasPoint (commonPoint points) :=
      forall_mem_of_forall₂ moved fun _ _ _ => Rescaled.hasPoint
    refine ⟨⟨?_, fun _ _ => ⟨_, at_common, fun moves interval => ?_⟩⟩, ?_⟩
    · rintro rfl
      cases (meets_setp args).symm.trans common
    · exact .inr (hasPoint_repoint moves interval)
    · exact forall_mem_of_forall₂ moved fun arg found _ => everywhere_rescaled (inside arg found)
  | keep consts ty stays apart =>
    refine ⟨⟨stays, fun common interval => ?_⟩, inside⟩
    have none_left := meets_eq_false_iff.mp apart common interval
    exact ⟨.ofNat 0, by simp [none_left], fun _ _ => .inl none_left⟩
  | select cond t left right tmoved fmoved =>
    refine ⟨fun _ => ⟨_, tmoved.hasPoint, fmoved.hasPoint, Ty.hasPoint_atPoint t _⟩, ?_⟩
    rintro child (_ | ⟨_, _ | ⟨_, _ | ⟨_, none⟩⟩⟩)
    · exact inside _ (by simp [children])
    · exact everywhere_rescaled (inside _ (by simp [children])) tmoved
    · exact everywhere_rescaled (inside _ (by simp [children])) fmoved
    · cases none
  | other plain unmoved =>
    refine ⟨?_, inside⟩
    cases node with
    | prim => cases plain
    | mux cond tval fval ty =>
      intro interval
      obtain ⟨t, rfl⟩ := Ty.isInterval_iff.mp interval
      exact (unmoved trivial).elim
    | ref | field | index | uint | sint => trivial

/-- In an aligned expression points meet at every node. -/
theorem everywhere_pointsMeet_of_align {e e' : Expr} (done : e.align.outcome = .ok e') :
    e'.Everywhere PointsMeet := by
  refine align_rel (R := fun _ e' => e'.Everywhere PointsMeet)
    (fun e node e' rebuilt aligned => ?_) done
  exact everywhere_pointsMeet_of_nodeAligned
    (forall_mem_of_forall₂ rebuilt.children fun _ _ _ all => all) aligned

end Expr

namespace Stmt

/-- Values meet everywhere in the expressions of the statement itself, and a value that is connected
to an interval-typed location is an interval at the location's point. -/
structure PointsMeet (s : Stmt) : Prop where
  exprs : ∀ e ∈ s.exprs, e.Everywhere Expr.PointsMeet
  fits : ∀ loc value, s = .connect loc value ∨ s = .partialConnect loc value →
    loc.ty.isInterval = true → ∃ p, loc.ty.HasPoint p ∧ value.ty.HasPoint p

/-- A fitted value is at the point of an interval-typed location. -/
theorem hasPoint_of_fitted {loc value value' : Expr} (fitted : loc.Fitted value value')
    (interval : loc.ty.isInterval = true) : ∃ p, loc.ty.HasPoint p ∧ value'.ty.HasPoint p := by
  cases fitted with
  | interval target moved => exact ⟨_, target, moved.hasPoint⟩
  | plain target =>
    rw [target] at interval
    cases interval

theorem everywhere_pointsMeet_of_fitted {loc value value' : Expr}
    (all : value.Everywhere Expr.PointsMeet) (fitted : loc.Fitted value value') :
    value'.Everywhere Expr.PointsMeet := by
  cases fitted with
  | interval target moved => exact Expr.everywhere_rescaled all moved
  | plain => exact all

/-- A statement that is no connection and has no statements inside needs its expressions only. -/
theorem everywhere_pointsMeet_leaf {s : Stmt} (leaf : s.stmts = [])
    (exprs : ∀ e ∈ s.exprs, e.Everywhere Expr.PointsMeet)
    (fits : ∀ loc value, s = .connect loc value ∨ s = .partialConnect loc value →
      loc.ty.isInterval = true → ∃ p, loc.ty.HasPoint p ∧ value.ty.HasPoint p) :
    s.Everywhere PointsMeet :=
  ⟨⟨exprs, fits⟩, by simp [leaf]⟩

/-- Both kinds of connection, of an aligned value as it fits an aligned location. -/
theorem everywhere_pointsMeet_connection {s : Stmt} {loc loc' value value' value'' : Expr}
    (connects : s = .connect loc' value'' ∨ s = .partialConnect loc' value'')
    (locDone : loc.align.outcome = .ok loc') (valueDone : value.align.outcome = .ok value')
    (fitted : loc'.Fitted value' value'') : s.Everywhere PointsMeet := by
  have locMeets := Expr.everywhere_pointsMeet_of_align locDone
  have valueMeets :=
    everywhere_pointsMeet_of_fitted (Expr.everywhere_pointsMeet_of_align valueDone) fitted
  refine everywhere_pointsMeet_leaf ?_ ?_ ?_
  · rcases connects with rfl | rfl <;> rfl
  · rcases connects with rfl | rfl <;> simpa [exprs] using ⟨locMeets, valueMeets⟩
  · intro l v same
    obtain ⟨rfl, rfl⟩ : loc' = l ∧ value'' = v := by
      rcases connects with rfl | rfl <;> simpa using same
    exact hasPoint_of_fitted fitted

/-- In an aligned statement points meet at every position. -/
theorem everywhere_pointsMeet_of_align {s s' : Stmt} (done : s.align.outcome = .ok s') :
    s'.Everywhere PointsMeet := by
  induction s generalizing s' with
  | wire name ty =>
    cases stmtAligned_of_align done
    exact everywhere_pointsMeet_leaf rfl nofun (by simp)
  | reg name ty clock reset =>
    cases stmtAligned_of_align done with
    | reg _ _ clockDone =>
      refine everywhere_pointsMeet_leaf rfl ?_ (by simp)
      simpa [exprs] using Expr.everywhere_pointsMeet_of_align clockDone
    | regReset _ _ clockDone signalDone initDone =>
      refine everywhere_pointsMeet_leaf rfl ?_ (by simp)
      simpa [exprs] using ⟨Expr.everywhere_pointsMeet_of_align clockDone,
        Expr.everywhere_pointsMeet_of_align signalDone,
        Expr.everywhere_pointsMeet_of_align initDone⟩
  | node name value =>
    cases stmtAligned_of_align done with
    | node _ valueDone =>
      refine everywhere_pointsMeet_leaf rfl ?_ (by simp)
      simpa [exprs] using Expr.everywhere_pointsMeet_of_align valueDone
  | connect loc value =>
    cases stmtAligned_of_align done with
    | connect locDone valueDone fitted =>
      exact everywhere_pointsMeet_connection (.inl rfl) locDone valueDone fitted
  | partialConnect loc value =>
    cases stmtAligned_of_align done with
    | partialConnect locDone valueDone fitted =>
      exact everywhere_pointsMeet_connection (.inr rfl) locDone valueDone fitted
  | when cond conseq alt conseqIh altIh =>
    cases stmtAligned_of_align done with
    | when condDone conseqDone altDone =>
      refine ⟨⟨?_, by simp⟩, ?_⟩
      · simpa [exprs] using Expr.everywhere_pointsMeet_of_align condDone
      · simpa [stmts] using ⟨conseqIh conseqDone, altIh altDone⟩
  | block stmts ih =>
    cases stmtAligned_of_align done with
    | block each =>
      exact ⟨⟨nofun, by simp⟩, forall_mem_of_forall₂ each fun s found _ step => ih s found step⟩
  | invalid loc =>
    cases stmtAligned_of_align done with
    | invalid locDone =>
      refine everywhere_pointsMeet_leaf rfl ?_ (by simp)
      simpa [exprs] using Expr.everywhere_pointsMeet_of_align locDone
  | skip =>
    cases stmtAligned_of_align done
    exact everywhere_pointsMeet_leaf rfl nofun (by simp)

end Stmt

namespace Circuit

/-- In an aligned circuit values meet at common points, at every position. -/
theorem points_meet_of_align {c c' : Circuit} (done : c.align.outcome = .ok c') :
    c'.EveryStmt Stmt.PointsMeet := by
  refine forall_mem_of_forall₂ (align_eq_ok_iff.mp done).2 fun m _ m' ⟨_, _, body⟩ => ?_
  intro body' present
  rw [Option.mem_def.mp present] at body
  generalize m.body? = body? at body
  cases body with
  | some done => exact Stmt.everywhere_pointsMeet_of_align done

/-- A circuit that connects a saturated selection, set to another point, to an output. -/
def unaligned : Circuit :=
  let ty (p : Nat) : Ty := .interval (.of (.ofInt 0) (.ofInt 7) (.known (.ofNat p)))
  let chosen : Expr := .mux (.ref "s" (.uint (.known (.ofNat 1)))) (.ref "a" (ty 1))
    (.ref "b" (ty 2)) (ty 1)
  let saturated : Expr := .prim .clip [.prim .setp [chosen] [3] (ty 3), .ref "b" (ty 2)] [] (ty 0)
  ⟨"Top", [⟨"Top",
    [⟨"s", .input, .uint (.known (.ofNat 1))⟩, ⟨"a", .input, ty 1⟩, ⟨"b", .input, ty 2⟩,
      ⟨"c", .output, ty 0⟩],
    some (.block [.connect (.ref "c" (ty 0)) saturated])⟩]⟩

/-- In the unaligned circuit points meet once it is aligned. -/
theorem points_meet_of_align_unaligned :
    ∃ c', unaligned.align.outcome = .ok c' ∧ c'.EveryStmt Stmt.PointsMeet :=
  ⟨_, rfl, points_meet_of_align (c := unaligned) rfl⟩

end Circuit

end IntervalHdl
