import IntervalHdl.Proofs.Refinement.Expressions

/-!
# Lowered bodies keep their meaning

A well-recorded body passes alignment, lowering and inference, and a run of the result carries a run
of the body, effect by effect (`RecordedBody.implemented`). The induction goes over the statements;
what it carries along is that the lowered scope declares the names at types of their shapes, and the
ports at the very types that lowering gave them.
-/

namespace IntervalHdl
set_option autoImplicit false

open Reported

/-! ## Effects -/

namespace Shape

/-- The numbers of the one shape are numbers of the other, grids aside. -/
def Within : Shape → Shape → Prop
  | .number lo hi _, .number lo' hi' _ => lo' ≤ lo ∧ hi ≤ hi'
  | .flag, .flag => True
  | _, _ => False

/-- A shape covers what a narrower one covers. -/
theorem Covers.within {s s' : Shape} {x : ℚ} (covers : s.Covers x) (within : s.Within s') :
    s'.Covers x := by
  cases s with
  | number lo hi p =>
    cases s' with
    | number lo' hi' p' =>
      exact ⟨(Int.cast_le.mpr within.1).trans covers.1, covers.2.trans (Int.cast_le.mpr within.2)⟩
    | flag => exact within.elim
  | flag =>
    cases s' with
    | number => exact within.elim
    | flag => exact covers

end Shape

/-- The integer is the encoding of the number, and the number is one of its location if the range of
the expression lies in that of the location. -/
structure Effect.CarriedBy (E : Effect ℚ) (I : Effect Int) : Prop where
  name : I.name = E.name
  encodes : ∃ s, E.ty.HasShape s ∧ s.Encodes E.value I.value ∧
    ∃ s', E.source.HasShape s' ∧ (s'.Within s → s.Covers E.value)

/-- The integer is the encoding of the number if that is one of its location. -/
structure Effect.KeptBy (E : Effect ℚ) (I : Effect Int) : Prop where
  name : I.name = E.name
  encodes : ∃ s, E.ty.HasShape s ∧ (s.Covers E.value → s.Encodes E.value I.value)

/-! ## Scopes and situations -/

namespace Scope

variable {source lowered ports : Scope} {name : String} {ty : Ty}

/-- The lowered scope declares every interval-typed port at the type that lowering gives it. -/
def PortsLoweredTo (ports lowered : Scope) : Prop :=
  ∀ name (t : Interval) lo hi p, ports.lookup name = some (.interval t) → t.Spans lo hi p →
    lowered.lookup name = some (Interval.carrier lo hi p)

/-- A declared value of a shape is carried where its lowered type carries the shape. -/
theorem LoweredTo.declare {s : Shape} {ty' : Ty} (scopes : source.LoweredTo lowered)
    (shape : ty.HasShape s) (carries : s.LoweredTo ty') :
    (source.declare name ty).LoweredTo (lowered.declare name ty') := by
  intro other declared s' found shape'
  rcases lookup_declare_eq_some found with ⟨rfl, rfl⟩ | ⟨apart, found⟩
  · cases shape.unique shape'
    exact ⟨ty', lookup_declare_self, carries⟩
  · rw [lookup_declare_of_ne apart]
    exact scopes other declared s' found shape'

/-- A name that is no port's may be declared without touching the ports. -/
theorem PortsLoweredTo.declare (locations : ports.PortsLoweredTo lowered)
    (fresh : ports.lookup name = none) : ports.PortsLoweredTo (lowered.declare name ty) := by
  intro other t lo hi p found spans
  have apart : other ≠ name := by
    rintro rfl
    rw [fresh] at found
    cases found
  rw [lookup_declare_of_ne apart]
  exact locations other t lo hi p found spans

end Scope

namespace Situation

variable {source lowered : Scope} {name : String} {ty ty' : Ty} {s : Shape} {x : ℚ} {v : Int}

/-- The situation in which a name is declared with a value. -/
def declare (S : Situation source) (name : String) (shape : ty.HasShape s) (covers : s.Covers x)
    (encodes : s.Encodes x v) : Situation (source.declare name ty) where
  meant := Function.update S.meant name x
  held := Function.update S.held name v
  covered := by
    intro other ty' s' found shape'
    rcases Scope.lookup_declare_eq_some found with ⟨rfl, rfl⟩ | ⟨apart, found⟩
    · cases shape.unique shape'
      rwa [Function.update_self]
    · rw [Function.update_of_ne apart]
      exact S.covered found shape'
  encoded := by
    intro other ty' s' found shape'
    rcases Scope.lookup_declare_eq_some found with ⟨rfl, rfl⟩ | ⟨apart, found⟩
    · cases shape.unique shape'
      rwa [Function.update_self, Function.update_self]
    · rw [Function.update_of_ne apart, Function.update_of_ne apart]
      exact S.encoded found shape'

/-- A situation fits its lowered scope still when a value and its encoding are declared in both. -/
theorem Fits.declare {S : Situation source} (fits : S.Fits lowered) (shape : ty.HasShape s)
    (covers : s.Covers x) (encodes : s.Encodes x v) (holds : ty'.Holds v) :
    (S.declare name shape covers encodes).Fits (lowered.declare name ty') := by
  intro other declared s' carrier found shape' carrierFound unsaturated
  show carrier.Holds (Function.update S.held name v other)
  rcases Scope.lookup_declare_eq_some carrierFound with ⟨rfl, rfl⟩ | ⟨apart, carrierFound⟩
  · rwa [Function.update_self]
  · rw [Scope.lookup_declare_of_ne apart] at found
    rw [Function.update_of_ne apart]
    exact fits other declared s' carrier found shape' carrierFound unsaturated

end Situation

/-- The lowered type of an interval holds what carries the numbers of the interval. -/
theorem Interval.Spans.holds {lo hi : Int} {p : BitCount} {x : ℚ} {v : Int}
    (unsaturated : (carrier lo hi p).Unsaturated) (covers : (Shape.number lo hi p).Covers x)
    (encodes : (Shape.number lo hi p).Encodes x v) : (carrier lo hi p).Holds v := by
  have below := Ty.unsaturated_sint_iff.mp unsaturated
  simp only [BitCount.toNat_max, max_lt_iff] at below
  obtain ⟨⟨lowBelow, highBelow⟩, -⟩ := below
  have lowWidth : (signedWidth (lo * 2 ^ p.toNat)).toNat = signedBits (lo * 2 ^ p.toNat) :=
    BitCount.toNat_ofNat_of_lt lowBelow
  have highWidth : (signedWidth (hi * 2 ^ p.toNat)).toNat = signedBits (hi * 2 ^ p.toNat) :=
    BitCount.toNat_ofNat_of_lt highBelow
  obtain ⟨above, below⟩ := encoding_between covers encodes
  simp only [carrier, Ty.Holds, BitCount.toNat_max, lowWidth, highWidth]
  exact ((fitsSigned_signedBits _).mono (by omega)).between
    ((fitsSigned_signedBits _).mono (by omega)) above below

/-! ## Statements -/

section Statements

variable {source lowered : Scope} {stmts typed : List Stmt} {es : List (Effect ℚ)}
  {is : List (Effect Int)}

/-- In the situation, the lowered statements have effects that carry those of the body. Hardware
keeps them where no width was cut off. -/
structure RunsAs (lowered : Scope) (S : Situation source) (stmts typed : List Stmt)
    (es : List (Effect ℚ)) (is : List (Effect Int)) : Prop where
  means : runBody Expr.meaning? Ty.storedMeaning S.meant stmts = some es
  exact : runBody Expr.exact (fun _ v => v) S.held typed = some is
  carried : List.Forall₂ Effect.CarriedBy es is
  hardware : S.Fits lowered → (∀ s ∈ typed, ∀ e ∈ s.exprs, e.Unsaturated) →
    ∃ hs, runBody Expr.hardware Ty.fit S.held typed = some hs ∧ List.Forall₂ Effect.KeptBy es hs

theorem runsAs_nil (S : Situation source) : RunsAs lowered S [] [] [] [] :=
  ⟨rfl, rfl, .nil, fun _ _ => ⟨[], rfl, .nil⟩⟩

/-- A node carries its value, and what comes after it runs with that value. -/
theorem RunsAs.node {S : Situation source} {name : String} {value value' : Expr} {s : Shape}
    {ty : Ty} {x : ℚ} {v : Situation source → Int} (shape : value.ty.HasShape s)
    (means : value.meaning? S.meant = some x) (evaluates : Evaluates lowered value' ty v)
    (covers : s.Covers x) (encodes : s.Encodes x (v S))
    (rest : RunsAs (lowered.declare name value'.ty) (S.declare name shape covers encodes) stmts
      typed es is) :
    RunsAs lowered S (.node name value :: stmts) (.node name value' :: typed)
      (⟨name, value.ty, value.ty, x⟩ :: es) (⟨name, value'.ty, value'.ty, v S⟩ :: is) := by
  have restMeans : runBody Expr.meaning? Ty.storedMeaning (Function.update S.meant name x) stmts
      = some es := rest.means
  have restExact : runBody Expr.exact (fun _ v => v) (Function.update S.held name (v S)) typed
      = some is := rest.exact
  refine ⟨?_, ?_, .cons ⟨rfl, s, shape, encodes, s, shape, fun _ => covers⟩ rest.carried,
    fun fits unsaturated => ?_⟩
  · simp [runBody, means, restMeans]
  · simp [runBody, evaluates.exact S, restExact]
  · obtain ⟨result, holds⟩ := evaluates.hardware S fits
      (unsaturated _ List.mem_cons_self _ List.mem_cons_self)
    rw [← evaluates.ty_eq] at holds
    obtain ⟨hs, restHardware, kept⟩ := rest.hardware (fits.declare shape covers encodes holds)
      fun s found => unsaturated s (List.mem_cons_of_mem _ found)
    have restHardware' :
        runBody Expr.hardware Ty.fit (Function.update S.held name (v S)) typed = some hs :=
      restHardware
    refine ⟨_, ?_, .cons (b := ⟨name, value'.ty, value'.ty, v S⟩)
      ⟨rfl, s, shape, fun _ => encodes⟩ kept⟩
    simp [runBody, result, restHardware']

/-- A connection carries the value rounded to the point of the location. -/
theorem RunsAs.connect {S : Situation source} {name : String} {t : Interval}
    {lo hi la ha : Int} {p q : BitCount} {value value' : Expr} {ty : Ty} {x : ℚ}
    {v : Situation source → Int} (spans : t.Spans lo hi p)
    (shape : value.ty.HasShape (.number la ha q)) (means : value.meaning? S.meant = some x)
    (evaluates : Evaluates lowered value' ty v)
    (covers : (Shape.number la ha p).Covers (floorAt p.toNat x))
    (encodes : (Shape.number la ha p).Encodes (floorAt p.toNat x) (v S))
    (rest : RunsAs lowered S stmts typed es is) :
    RunsAs lowered S (.connect (.ref name (.interval t)) value :: stmts)
      (.connect (.ref name (Interval.carrier lo hi p)) value' :: typed)
      (⟨name, .interval t, value.ty, floorAt p.toNat x⟩ :: es)
      (⟨name, Interval.carrier lo hi p, value'.ty, v S⟩ :: is) := by
  have stored : (Ty.interval t).storedMeaning x = floorAt p.toNat x := by
    simp [Ty.storedMeaning, spans.point]
  refine ⟨?_, ?_, .cons ⟨rfl, _, .number spans, encodes, _, shape,
    fun within => covers.within ⟨within.1, within.2⟩⟩ rest.carried, fun fits unsaturated => ?_⟩
  · simp [runBody, means, rest.means, stored]
  · simp [runBody, evaluates.exact S, rest.exact]
  · have inside := unsaturated _ List.mem_cons_self
    obtain ⟨result, -⟩ := evaluates.hardware S fits (inside value' (by simp [Stmt.exprs]))
    obtain ⟨hs, restHardware, kept⟩ := rest.hardware fits
      fun s found => unsaturated s (List.mem_cons_of_mem _ found)
    have location := (inside _ List.mem_cons_self).here
    refine ⟨_, ?_, .cons (b := ⟨name, Interval.carrier lo hi p, value'.ty,
      Ty.fit (Interval.carrier lo hi p) (v S)⟩) ⟨rfl, _, .number spans, fun within => ?_⟩ kept⟩
    · simp [runBody, result, restHardware]
    · rw [Ty.fit_of_holds (Interval.Spans.holds location within encodes)]
      exact encodes

/-! ## Bodies -/

/-- The typed statements are what alignment, lowering and inference in a scope make of a body. -/
def Removed (lowered : Scope) (stmts typed : List Stmt) : Prop :=
  ∃ aligned bare behind, List.Forall₂ (fun s s' => s.align.outcome = .ok s') stmts aligned ∧
    (∀ warn, List.Forall₂ (fun s s' => (s.lower warn).outcome = .ok s') aligned bare) ∧
    Stmt.inferAll lowered bare = .ok (typed, behind)

theorem removed_nil (lowered : Scope) : Removed lowered [] [] :=
  ⟨[], [], lowered, .nil, fun _ => .nil, rfl⟩

/-- A node is removed to a node, and its name is declared at the type of the typed value. -/
theorem Removed.node {name : String} {value a e e' : Expr} (aligned : value.align.outcome = .ok a)
    (lowers : ∀ warn, (a.lower warn).outcome = .ok e) (inferred : e.infer lowered = .ok e')
    (rest : Removed (lowered.declare name e'.ty) stmts typed) :
    Removed lowered (.node name value :: stmts) (.node name e' :: typed) := by
  obtain ⟨restAligned, bare, behind, alignedDone, lowerDone, restInferred⟩ := rest
  refine ⟨.node name a :: restAligned, .node name e :: bare, behind, .cons ?_ alignedDone,
    fun warn => .cons ?_ (lowerDone warn), ?_⟩
  · simp only [Stmt.align, bind_outcome_eq_ok_iff]
    exact ⟨a, aligned, rfl⟩
  · simp only [Stmt.lower, bind_outcome_eq_ok_iff]
    exact ⟨e, lowers warn, rfl⟩
  · simp only [Stmt.inferAll, Stmt.infer, bind_eq_ok_iff]
    exact ⟨_, ⟨e', inferred, rfl⟩, _, restInferred, rfl⟩

/-- A connection is removed to one whose value was moved to the point of the port. -/
theorem Removed.connect {name : String} {t : Interval} {lo hi : Int} {p : BitCount}
    {value a moved e e' : Expr} (spans : t.Spans lo hi p)
    (declared : lowered.lookup name = some (Interval.carrier lo hi p))
    (aligned : value.align.outcome = .ok a) (fitted : a.Rescaled p moved)
    (lowers : ∀ warn, (moved.lower warn).outcome = .ok e) (inferred : e.infer lowered = .ok e')
    (rest : Removed lowered stmts typed) :
    Removed lowered (.connect (.ref name (.interval t)) value :: stmts)
      (.connect (.ref name (Interval.carrier lo hi p)) e' :: typed) := by
  obtain ⟨restAligned, bare, behind, alignedDone, lowerDone, restInferred⟩ := rest
  refine ⟨.connect (.ref name (.interval t)) moved :: restAligned,
    .connect (.ref name (Interval.carrier lo hi p)) e :: bare, behind,
    .cons ?_ alignedDone, fun warn => .cons ?_ (lowerDone warn), ?_⟩
  · have location : (Expr.ref name (.interval t)).align.outcome = .ok (.ref name (.interval t)) :=
      Expr.align_eq_ok_iff.mpr ⟨_, .ref name (.interval t), .other rfl id⟩
    simp only [Stmt.align, bind_outcome_eq_ok_iff, Expr.fitTo_eq_ok_iff]
    exact ⟨_, location, a, aligned, moved, .interval spans.hasPoint fitted, rfl⟩
  · simp only [Stmt.lower, Expr.lower, bind_outcome_eq_ok_iff]
    exact ⟨_, ⟨_, spans.lower_outcome, rfl⟩, e, lowers warn, rfl⟩
  · have location := Expr.infer_eq_ok_iff.mpr
      ⟨_, .ref name (Interval.carrier lo hi p),
        bind_eq_ok_iff.mpr ⟨_, Scope.resolve_eq_ok_iff.mpr declared, rfl⟩⟩
    simp only [Stmt.inferAll, Stmt.infer, bind_eq_ok_iff]
    exact ⟨_, ⟨_, location, e', inferred, rfl⟩, _, restInferred, rfl⟩

/-- An expression that computes the integers of a shape has a type that carries the shape. -/
theorem Shape.ComputedBy.computes {s : Shape} {e : Expr} {v : Situation source → Int}
    (computed : s.ComputedBy lowered e v) : ∃ ty, s.LoweredTo ty ∧ Computes lowered e ty v := by
  cases s with
  | number lo hi p =>
    obtain ⟨w, computes⟩ := computed
    exact ⟨_, .number lo hi p w, computes⟩
  | flag => exact ⟨_, .flag, computed⟩

/-- A well-recorded body passes the stages of a removal, and what comes out runs as it does,
whatever values the names in its scope have. -/
theorem RecordedBody.implemented {ports : Scope} (recorded : RecordedBody ports source stmts)
    (scopes : source.LoweredTo lowered) (locations : ports.PortsLoweredTo lowered) :
    ∃ typed, Removed lowered stmts typed ∧
      ∀ S : Situation source, ∃ es is, RunsAs lowered S stmts typed es is := by
  -- a node extends both scopes, so the rest runs in every situation that gives its name a value
  induction recorded generalizing lowered with
  | nil => exact ⟨[], removed_nil lowered, fun S => ⟨[], [], runsAs_nil S⟩⟩
  | @node declared name value s stmts fresh recorded _ ih =>
    obtain ⟨a, x, carried⟩ := recorded.carried scopes
    obtain ⟨e, v, lowers, computed, values⟩ := carried.carries.computed
    obtain ⟨ty, carries, e', inferred, evaluates⟩ := computed.computes
    rw [← evaluates.ty_eq] at carries
    obtain ⟨typed, removed, runs⟩ := ih (scopes.declare recorded.hasShape carries)
      (locations.declare fresh)
    refine ⟨_, .node carried.aligned lowers inferred removed, fun S => ?_⟩
    obtain ⟨es, is, rest⟩ := runs (S.declare name recorded.hasShape (values S).1 (values S).2)
    exact ⟨_, _, rest.node recorded.hasShape (carried.means S) evaluates (values S).1 (values S).2⟩
  | @connect declared name t lo hi la ha p q value stmts found spans recorded _ ih =>
    obtain ⟨a, x, carried⟩ := recorded.carried scopes
    obtain ⟨moved, fitted, carries⟩ := carried.carries.rescaled p
    obtain ⟨e, v, lowers, computed, values⟩ := carries.computed
    obtain ⟨ty, -, e', inferred, evaluates⟩ := computed.computes
    obtain ⟨typed, removed, runs⟩ := ih scopes locations
    have declared := locations name t lo hi p found spans
    refine ⟨_, .connect spans declared carried.aligned fitted lowers inferred removed, fun S => ?_⟩
    obtain ⟨es, is, rest⟩ := runs S
    exact ⟨_, _, rest.connect spans recorded.hasShape (carried.means S) evaluates (values S).1
      (values S).2⟩

end Statements

end IntervalHdl
