import IntervalHdl.Proofs.Alignment.Coherence
import IntervalHdl.Proofs.Alignment.Points

/-!
# Points of stored values after alignment

A register takes its reset value, and a connection stores a value at its location; where both sides
are aggregates of one shape, leaf by leaf. Alignment moves a value to the point of its place only
when a connection stores it at a location that is itself an interval: reset values and the leaves of
aggregates keep their points. So stored values are at the points of their places exactly where
these two kinds are there already (`Circuit.storesAtPoints_align_iff`).
-/

namespace IntervalHdl
set_option autoImplicit false

namespace Ty

mutual

/-- The leaves of two types of one shape, in pairs: where a value goes, and where it comes from. A
flipped field flows against its bundle. -/
def flows? (against : Bool) : Ty → Ty → Option (List (Ty × Ty))
  | .bundle fields, .bundle fields' => fieldFlows? against fields fields'
  | .vector elem size, .vector elem' size' =>
    if size = size' then elem.flows? against elem' else none
  | target, source =>
    if target.isGround && source.isGround then
      some [if against then (source, target) else (target, source)]
    else none

/-- The leaves of two lists of fields of the same names, directions and shapes. -/
def fieldFlows? (against : Bool) : List (Field Ty) → List (Field Ty) → Option (List (Ty × Ty))
  | [], [] => some []
  | ⟨name, flip, ty⟩ :: fields, ⟨name', flip', ty'⟩ :: fields' =>
    if name = name' ∧ flip = flip' then do
      let here ← ty.flows? (against ^^ flip) ty'
      let rest ← fieldFlows? against fields fields'
      return here ++ rest
    else none
  | _, _ => none

end

/-- Wherever an interval value reaches an interval leaf at a known point, it is at that point. -/
def Receives (target source : Ty) : Prop :=
  ∀ flows, target.flows? false source = some flows → ∀ flow ∈ flows, ∀ p, flow.1.HasPoint p →
    flow.2.isInterval = true → flow.2.HasPoint p

/-- At a location that is an interval itself there is one leaf to look at. -/
theorem receives_of_hasPoint {target source : Ty} {p : BitCount} (at_p : target.HasPoint p)
    (source_at_p : source.HasPoint p) : target.Receives source := by
  obtain ⟨t, rfl, point⟩ := at_p
  obtain ⟨u, rfl, point'⟩ := source_at_p
  intro flows found flow present q at_q _
  cases found
  obtain rfl := List.mem_singleton.mp present
  have same : p = q := Ty.HasPoint.unique ⟨t, rfl, point⟩ at_q
  exact same ▸ ⟨u, rfl, point'⟩

end Ty

namespace Stmt

/-- What the statement stores into, and what it stores there: a reset value into a register, a
connected value into a location. -/
def stores? : Stmt → Option (Ty × Ty)
  | .reg _ ty _ (some reset) => some (ty, reset.init.ty)
  | .connect loc value | .partialConnect loc value => some (loc.ty, value.ty)
  | _ => none

/-- What the statement stores is at the point of its place, leaf by leaf. -/
def StoresAtPoint (s : Stmt) : Prop :=
  ∀ target source, s.stores? = some (target, source) → target.Receives source

/-- What the statement stores without a rescale has the point of its place already, by the types
that alignment leaves its expressions at: a reset value, and a value that is connected to a location
that is no interval itself. -/
def StoresUnmoved : Stmt → Prop
  | .reg _ ty _ (some reset) => ty.Receives reset.init.alignedTy
  | .connect loc value | .partialConnect loc value =>
    loc.alignedTy.isInterval = false → loc.alignedTy.Receives value.alignedTy
  | _ => True

theorem storesAtPoint_iff_of_some {s : Stmt} {target source : Ty}
    (stored : s.stores? = some (target, source)) :
    s.StoresAtPoint ↔ target.Receives source := by
  constructor
  · intro all
    exact all target source stored
  · intro receives t u found
    cases stored.symm.trans found
    exact receives

theorem storesAtPoint_of_none {s : Stmt} (nothing : s.stores? = none) : s.StoresAtPoint := by
  intro target source found
  cases nothing.symm.trans found

/-- Both kinds of connection: a value that was fitted to an interval is where it has to be, and any
other value stays at the type that alignment leaves it at. -/
theorem receives_fitted_iff {loc loc' value value' value'' : Expr}
    (locDone : loc.align.outcome = .ok loc') (valueDone : value.align.outcome = .ok value')
    (fitted : loc'.Fitted value' value'') :
    loc'.ty.Receives value''.ty ↔
      (loc.alignedTy.isInterval = false → loc.alignedTy.Receives value.alignedTy) := by
  rw [← Expr.ty_of_align locDone, ← Expr.ty_of_align valueDone]
  cases fitted with
  | interval target moved =>
    have receives := Ty.receives_of_hasPoint target moved.hasPoint
    have interval := target.isInterval
    exact iff_of_true receives fun plain => absurd (interval.symm.trans plain) nofun
  | plain target =>
    exact ⟨fun receives _ => receives, fun receives => receives target⟩

/-- An aligned statement stores at the right points exactly when what it stores unmoved is there. -/
theorem storesAtPoint_iff_of_stmtAligned {s s' : Stmt} (aligned : StmtAligned s s') :
    s'.StoresAtPoint ↔ s.StoresUnmoved := by
  cases aligned with
  | wire | reg | node | when | block | invalid | skip =>
    exact iff_of_true (storesAtPoint_of_none rfl) trivial
  | regReset name ty clockDone signalDone initDone =>
    rw [storesAtPoint_iff_of_some rfl, Expr.ty_of_align initDone]
    exact Iff.rfl
  | connect locDone valueDone fitted | partialConnect locDone valueDone fitted =>
    rw [storesAtPoint_iff_of_some rfl]
    exact receives_fitted_iff locDone valueDone fitted

/-- A property of aligned statements is one of the statements they come from, at any nesting. -/
theorem everywhere_align_iff {P Q : Stmt → Prop}
    (step : ∀ s s', StmtAligned s s' → (P s' ↔ Q s)) {s s' : Stmt}
    (done : s.align.outcome = .ok s') : s'.Everywhere P ↔ s.Everywhere Q := by
  have leaf {s s' : Stmt} (aligned : StmtAligned s s') (inner : s.stmts = [])
      (inner' : s'.stmts = []) : s'.Everywhere P ↔ s.Everywhere Q := by
    rw [everywhere_iff, everywhere_iff (s := s), step _ _ aligned, inner, inner']
    simp
  induction s generalizing s' with
  | wire | reg | node | connect | partialConnect | invalid | skip =>
    have aligned := stmtAligned_of_align done
    refine leaf aligned rfl ?_
    cases aligned <;> rfl
  | when cond conseq alt conseqIh altIh =>
    have aligned := stmtAligned_of_align done
    rw [everywhere_iff, everywhere_iff (s := .when cond conseq alt), step _ _ aligned]
    cases aligned with
    | when condDone conseqDone altDone =>
      simp only [stmts, List.forall_mem_cons, conseqIh conseqDone, altIh altDone,
        List.not_mem_nil, false_imp_iff, implies_true]
  | block stmts ih =>
    have aligned := stmtAligned_of_align done
    rw [everywhere_iff, everywhere_iff (s := .block stmts), step _ _ aligned]
    cases aligned with
    | block each =>
      have each' := forall₂_imp_of_mem (S := fun s s' => s'.Everywhere P ↔ s.Everywhere Q)
        (fun s found s' step => ih s found step) each
      exact and_congr_right fun _ => forall_mem_iff_of_forall₂ each' fun _ _ same => same

end Stmt

namespace Circuit

/-- Every stored value is at the point of its place, leaf by leaf, at any nesting of statements. -/
def StoresAtPoints (c : Circuit) : Prop := c.EveryStmt Stmt.StoresAtPoint

/-- In an aligned circuit stored values are at the points of their places exactly when those are
that alignment does not move: reset values, and values of aggregate type. -/
theorem storesAtPoints_align_iff {c c' : Circuit} (done : c.align.outcome = .ok c') :
    c'.StoresAtPoints ↔ c.EveryStmt Stmt.StoresUnmoved := by
  refine forall_mem_iff_of_forall₂ (align_eq_ok_iff.mp done).2 fun m m' ⟨_, _, body⟩ => ?_
  generalize m.body? = before, m'.body? = after at body ⊢
  cases body with
  | none => simp
  | some done =>
    have same := Stmt.everywhere_align_iff
      (fun _ _ => Stmt.storesAtPoint_iff_of_stmtAligned) done
    simpa using same

/-- A register at the point 3 that is reset to a value at the point 1, and an output at the point 3
that is connected to the same value. -/
def preset : Circuit :=
  let ty (p : Nat) : Ty := .interval (.of (.ofInt 0) (.ofInt 3) (.known (.ofNat p)))
  let a : Expr := .ref "a" (ty 1)
  ⟨"Top", [⟨"Top",
    [⟨"clk", .input, .clock⟩, ⟨"rst", .input, .uint (.known (.ofNat 1))⟩, ⟨"a", .input, ty 1⟩,
      ⟨"o", .output, ty 3⟩],
    some (.block [
      .reg "r" (ty 3) (.ref "clk" .clock) (some ⟨.ref "rst" (.uint (.known (.ofNat 1))), a⟩),
      .connect (.ref "o" (ty 3)) a])⟩]⟩

/-- The same circuit aligned: the connected value is moved to the point 3, the reset value stays at
the point 1. -/
def presetAligned : Circuit :=
  let ty (p : Nat) : Ty := .interval (.of (.ofInt 0) (.ofInt 3) (.known (.ofNat p)))
  let a : Expr := .ref "a" (ty 1)
  ⟨"Top", [⟨"Top",
    [⟨"clk", .input, .clock⟩, ⟨"rst", .input, .uint (.known (.ofNat 1))⟩, ⟨"a", .input, ty 1⟩,
      ⟨"o", .output, ty 3⟩],
    some (.block [
      .reg "r" (ty 3) (.ref "clk" .clock) (some ⟨.ref "rst" (.uint (.known (.ofNat 1))), a⟩),
      .connect (.ref "o" (ty 3)) (.prim .incp [a] [2] (ty 3))])⟩]⟩

/-- The criterion for a register whose reset value is not moved. -/
theorem storesAtPoints_align_iff_preset :
    preset.align.outcome = .ok presetAligned ∧
      (presetAligned.StoresAtPoints ↔ preset.EveryStmt Stmt.StoresUnmoved) :=
  ⟨rfl, storesAtPoints_align_iff rfl⟩

/-- Alignment does not bring every stored value to the point of its place. -/
theorem reset_value_not_moved :
    preset.align.outcome = .ok presetAligned ∧ ¬ presetAligned.StoresAtPoints := by
  refine ⟨rfl, fun stores => ?_⟩
  have body := stores _ List.mem_cons_self _ rfl
  have reset := (body.inside _ List.mem_cons_self).here
  obtain ⟨t, same, point⟩ := reset _ _ rfl _ rfl _ List.mem_cons_self (.ofNat 3) ⟨_, rfl, rfl⟩ rfl
  cases same
  exact absurd point (by decide)

/-- A bundle is connected as it is, whatever the points of its fields. -/
example :
    let ty (p : Nat) : Ty := .interval (.of (.ofInt 0) (.ofInt 3) (.known (.ofNat p)))
    let bundle (p : Nat) : Ty := .bundle [⟨"v", false, ty p⟩]
    let copies : Stmt := .connect (.ref "y" (bundle 3)) (.ref "x" (bundle 1))
    copies.align.outcome = .ok copies ∧ (bundle 3).flows? false (bundle 1) = some [(ty 3, ty 1)] :=
  ⟨rfl, rfl⟩

end Circuit

end IntervalHdl
