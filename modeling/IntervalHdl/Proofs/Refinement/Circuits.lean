import IntervalHdl.Proofs.Refinement.Bodies
import IntervalHdl.Proofs.Removal.Verification

/-!
# Removal keeps the numeric meaning of circuits

A removal succeeds on every circuit of well-recorded modules, and each resulting module implements
the module it comes from: whatever numbers the ports have, its run over integers carries the run
over numbers, effect by effect, and so does hardware where no width was cut off.
-/

namespace IntervalHdl
set_option autoImplicit false

open Reported

/-! ## Ports -/

namespace Scope

variable {ports ports' : List Port}

/-- The second scope declares every name of the first at the lowered type. -/
def TypesLowered (scope scope' : Scope) : Prop :=
  ∀ name ty, scope.lookup name = some ty →
    ∃ ty', scope'.lookup name = some ty' ∧ ty.lower.outcome = .ok ty'

/-- A port declared at its type and at its lowered one keeps the types of a scope lowered. -/
theorem TypesLowered.declare {scope scope' : Scope} (types : scope.TypesLowered scope')
    {p p' : Port} (done : p.lower.outcome = .ok p') :
    (scope.declare p.name p.ty).TypesLowered (scope'.declare p'.name p'.ty) := by
  intro name ty found
  obtain ⟨sameName, -, lowered⟩ := Port.lower_eq_ok_iff.mp done
  rw [sameName]
  rcases lookup_declare_eq_some found with ⟨rfl, rfl⟩ | ⟨apart, found⟩
  · exact ⟨p'.ty, lookup_declare_self, lowered⟩
  · rw [lookup_declare_of_ne apart]
    exact types name ty found

/-- Lowered ports declare lowered types. -/
theorem typesLowered_ofPorts
    (each : List.Forall₂ (fun p p' => p.lower.outcome = .ok p') ports ports') :
    (ofPorts ports).TypesLowered (ofPorts ports') := by
  have extend : ∀ scope scope' : Scope, scope.TypesLowered scope' →
      TypesLowered (ports.foldl (fun s p => s.declare p.name p.ty) scope)
        (ports'.foldl (fun s p => s.declare p.name p.ty) scope') := by
    induction each with
    | nil => exact fun _ _ types => types
    | cons head _ ih => exact fun _ _ types => ih _ _ (types.declare head)
  exact extend [] [] nofun

/-- Every name of a port carries its values at the lowered type. -/
theorem loweredTo_ofPorts
    (each : List.Forall₂ (fun p p' => p.lower.outcome = .ok p') ports ports') :
    (ofPorts ports).LoweredTo (ofPorts ports') := by
  intro name ty s found shape
  obtain ⟨ty', found', lowered⟩ := typesLowered_ofPorts each name _ found
  refine ⟨ty', found', ?_⟩
  cases shape with
  | number spans =>
    rw [spans.lower_outcome] at lowered
    cases lowered
    exact .number _ _ _ _
  | flag =>
    cases lowered
    exact .flag

theorem portsLoweredTo_ofPorts
    (each : List.Forall₂ (fun p p' => p.lower.outcome = .ok p') ports ports') :
    (ofPorts ports).PortsLoweredTo (ofPorts ports') := by
  intro name t lo hi p found spans
  obtain ⟨ty', found', lowered⟩ := typesLowered_ofPorts each name _ found
  rw [spans.lower_outcome] at lowered
  cases lowered
  exact found'

end Scope

/-- Lowered ports hold what carries the numbers of the ports. -/
theorem Situation.fits_ofPorts {ports ports' : List Port}
    (each : List.Forall₂ (fun p p' => p.lower.outcome = .ok p') ports ports')
    (S : Situation (Scope.ofPorts ports)) : S.Fits (Scope.ofPorts ports') := by
  intro name ty s ty' found shape found' unsaturated
  obtain ⟨carrier, found'', lowered⟩ := Scope.typesLowered_ofPorts each name ty found
  cases Option.some.inj (found'.symm.trans found'')
  have covers := S.covered found shape
  have encodes := S.encoded found shape
  cases shape with
  | number spans =>
    rw [spans.lower_outcome] at lowered
    cases lowered
    exact Interval.Spans.holds unsaturated covers encodes
  | flag =>
    cases lowered
    have carried : (S.held name : ℚ) = S.meant name := encodes
    have bit : S.held name = 0 ∨ S.held name = 1 := by
      rcases covers with zero | one
      · exact .inl (by exact_mod_cast carried.trans zero)
      · exact .inr (by exact_mod_cast carried.trans one)
    rcases bit with zero | one
    · rw [zero]
      exact fitsUnsigned_flagValue false
    · rw [one]
      exact fitsUnsigned_flagValue true

/-! ## Modules -/

/-- The second module does with signed integers what the first means. Its ports are the lowered
ones; in every situation of the ports, the first module has a meaning, and the run of the second
over integers carries it effect by effect; and if no width was cut off, hardware keeps the
effects. -/
structure Module.Implemented (m m' : Module) : Prop where
  name : m'.name = m.name
  ports : List.Forall₂ (fun p p' => p.lower.outcome = .ok p') m.ports m'.ports
  run : ∀ S : Situation (Scope.ofPorts m.ports), ∃ es is, m.runMeaning S.meant = some es ∧
    m'.runExact S.held = some is ∧ List.Forall₂ Effect.CarriedBy es is ∧
    (m'.Unsaturated →
      ∃ hs, m'.runHardware S.held = some hs ∧ List.Forall₂ Effect.KeptBy es hs)

/-- A well-recorded module passes the stages of a removal and is implemented by what comes out. -/
theorem Module.Recorded.implemented {m : Module} (recorded : m.Recorded) :
    ∃ aligned bare typed, m.align.outcome = .ok aligned ∧
      (∀ warn, (aligned.lower warn).outcome = .ok bare) ∧ bare.infer = .ok typed ∧
      m.Implemented typed := by
  obtain ⟨stmts, body, recordedBody⟩ := recorded.body
  obtain ⟨ports, portsDone⟩ : ∃ ports,
      List.Forall₂ (fun p p' => p.lower.outcome = .ok p') m.ports ports :=
    exists_forall₂ fun p found => by
      obtain ⟨ty', done⟩ := (recorded.whole p found).lower_ok
      exact ⟨⟨p.name, p.direction, ty'⟩, Port.lower_eq_ok_iff.mpr ⟨rfl, rfl, done⟩⟩
  obtain ⟨typed, ⟨aligned, bare, behind, alignDone, lowerDone, inferDone⟩, runs⟩ :=
    recordedBody.implemented (Scope.loweredTo_ofPorts portsDone)
      (Scope.portsLoweredTo_ofPorts portsDone)
  refine ⟨⟨m.name, m.ports, some (.block aligned)⟩, ⟨m.name, ports, some (.block bare)⟩,
    ⟨m.name, ports, some (.block typed)⟩, ?_, fun warn => ?_, ?_, rfl, portsDone, fun S => ?_⟩
  · rw [Module.align, tell_bind_outcome, Module.outcome_mapBodyM, Module.mapBodyM_eq_ok_iff, body]
    refine ⟨rfl, rfl, .some ?_⟩
    simp only [Stmt.align, Stmt.alignAll_eq_mapM, bind_outcome_eq_ok_iff, mapM_outcome_eq_ok_iff]
    exact ⟨aligned, alignDone, rfl⟩
  · refine Module.lower_eq_ok_iff.mpr ⟨rfl, portsDone, .some ?_⟩
    simp only [Stmt.lower, Stmt.lowerAll_eq_mapM, bind_outcome_eq_ok_iff, mapM_outcome_eq_ok_iff]
    exact ⟨bare, lowerDone warn, rfl⟩
  · refine Module.mapBodyM_eq_ok_iff.mpr ⟨rfl, rfl, .some ?_⟩
    simp only [Stmt.infer, bind_eq_ok_iff]
    exact ⟨_, ⟨_, inferDone, rfl⟩, rfl⟩
  · obtain ⟨es, is, run⟩ := runs S
    refine ⟨es, is, ?_, run.exact, run.carried, fun unsaturated => ?_⟩
    · rw [Module.runMeaning, Module.runWith, body]
      exact run.means
    · have inside := (unsaturated _ rfl).inside
      exact run.hardware (S.fits_ofPorts portsDone) fun s found => (inside s found).here

namespace Circuit

/-- A removal succeeds on every circuit of well-recorded modules, and implements each of them. -/
theorem removeIntervals_implements (c : Circuit) (recorded : ∀ m ∈ c.modules, m.Recorded) :
    ∃ d, c.removeIntervals.outcome = .ok d ∧ d.main = c.main ∧
      List.Forall₂ Module.Implemented c.modules d.modules := by
  -- the modules pass the stages one by one, the circuit stage by stage
  obtain ⟨stages, each⟩ : ∃ stages : List (Module × Module × Module),
      List.Forall₂ (fun m t => m.align.outcome = .ok t.1 ∧
        (∀ warn, (t.1.lower warn).outcome = .ok t.2.1) ∧ t.2.1.infer = .ok t.2.2 ∧
        m.Implemented t.2.2) c.modules stages :=
    exists_forall₂ fun m found => by
      obtain ⟨aligned, bare, typed, stages⟩ := (recorded m found).implemented
      exact ⟨(aligned, bare, typed), stages⟩
  have alignDone : c.align.outcome = .ok ⟨c.main, stages.map (·.1)⟩ := by
    rw [align, outcome_mapModulesM, mapModulesM_eq_ok_iff]
    exact ⟨rfl, List.forall₂_map_right_iff.mpr (each.imp fun _ _ stage => stage.1)⟩
  have lowerDone (warn : Bool) : (Circuit.lower warn ⟨c.main, stages.map (·.1)⟩).outcome
      = .ok ⟨c.main, stages.map (·.2.1)⟩ := by
    refine lower_eq_ok_iff.mpr ⟨rfl, ?_⟩
    rw [List.forall₂_map_left_iff, List.forall₂_map_right_iff, List.forall₂_same]
    exact forall_mem_of_forall₂ each fun _ _ _ stage => stage.2.1 warn
  have inferDone : Circuit.infer ⟨c.main, stages.map (·.2.1)⟩
      = .ok ⟨c.main, stages.map (·.2.2)⟩ := by
    refine mapModulesM_eq_ok_iff.mpr ⟨rfl, ?_⟩
    rw [List.forall₂_map_left_iff, List.forall₂_map_right_iff, List.forall₂_same]
    exact forall_mem_of_forall₂ each fun _ _ _ stage => stage.2.2.1
  refine ⟨⟨c.main, stages.map (·.2.2)⟩, ?_, rfl,
    List.forall₂_map_right_iff.mpr (each.imp fun _ _ stage => stage.2.2.2)⟩
  rw [removeIntervals, removeIntervalsWith_outcome, removeStages_eq]
  simp only [typedStages, bind_outcome_eq_ok_iff, outcome_ofExcept]
  refine ⟨_, alignDone, _, lowerDone _, ?_⟩
  rw [retype, if_pos rfl, inferDone]
  rfl

/-- A circuit that adds two values at different points, wraps the sum or one of them into a range,
and connects the result, saturated, to an output with a point of its own. -/
def mixing : Circuit :=
  let ty (lo hi : Int) (p : Nat) : Ty := .interval (.of (.ofInt lo) (.ofInt hi) (.known (.ofNat p)))
  let a : Expr := .ref "a" (ty (-2) 3 2)
  let b : Expr := .ref "b" (ty 0 5 0)
  let flag : Expr := .ref "flag" (.uint (.known (.ofNat 1)))
  let sum : Expr := .prim .add [a, b] [] (ty (-2) 8 2)
  let kept : Expr := .mux flag (.ref "sum" (ty (-2) 8 2)) b (ty (-2) 8 2)
  let wrapped : Expr := .prim .wrap [kept, a] [] (ty (-2) 3 2)
  let clipped : Expr := .prim .clip [.ref "wrapped" (ty (-2) 3 2), b] [] (ty 0 3 2)
  ⟨"Top", [⟨"Top", [⟨"a", .input, ty (-2) 3 2⟩, ⟨"b", .input, ty 0 5 0⟩,
      ⟨"flag", .input, .uint (.known (.ofNat 1))⟩, ⟨"c", .output, ty 0 3 1⟩],
    some (.block [.node "sum" sum, .node "wrapped" wrapped,
      .connect (.ref "c" (ty 0 3 1)) clipped])⟩]⟩

/-- Its module is well recorded. -/
theorem recorded_mixing : ∀ m ∈ mixing.modules, m.Recorded := by
  intro m found
  obtain rfl := List.mem_singleton.mp found
  have a := Interval.Spans.of_ofInt (show -2 ≤ 3 by decide) (.ofNat 2)
  have b := Interval.Spans.of_ofInt (show 0 ≤ 5 by decide) (.ofNat 0)
  have sum := Interval.Spans.of_ofInt (show -2 ≤ 8 by decide) (.ofNat 2)
  have clipped := Interval.Spans.of_ofInt (show 0 ≤ 3 by decide)
  refine ⟨?_, _, rfl, .node rfl (.add (.ref rfl (.number a)) (.ref rfl (.number b)) sum (by decide)
    (by decide)) ?_⟩
  · simp only [List.forall_mem_cons]
    exact ⟨.interval a, .interval b, .uint _, .interval (clipped _), nofun⟩
  refine .node rfl (.wrap (.mux (.ref rfl .flag) (.ref rfl (.number sum)) (.ref rfl (.number b)) sum
    (by decide) (by decide)) (.ref rfl (.number a)) a (by decide) (by decide)) ?_
  exact .connect rfl (clipped _)
    (.clip (.ref rfl (.number a)) (.ref rfl (.number b)) (clipped _)) .nil

/-- Its removal implements it, and there are inputs to run it on. -/
theorem removeIntervals_implements_mixing :
    (∀ m ∈ mixing.modules, m.Recorded) ∧
      (∀ m ∈ mixing.modules, Nonempty (Situation (Scope.ofPorts m.ports))) ∧
      ∃ d, mixing.removeIntervals.outcome = .ok d ∧ d.main = "Top" ∧
        List.Forall₂ Module.Implemented mixing.modules d.modules :=
  ⟨recorded_mixing, fun _ _ => Situation.nonempty _,
    mixing.removeIntervals_implements recorded_mixing⟩

/-- The sum of 9/4 and 5 is wrapped around to 2, which arrives at the output as four halves. -/
example :
    let held (name : String) : Int :=
      if name = "a" then 9 else if name = "b" then 5 else if name = "flag" then 1 else 0
    mixing.removeIntervals.outcome.toOption.bind (fun d => d.modules.head?.bind fun m =>
      (m.runHardware held).map fun es => es.map Effect.value) = some [29, 8, 4] := by
  decide

end Circuit

end IntervalHdl
