import IntervalHdl.Interval

/-!
# Types of hardware values

Ground types are integers of a width, intervals, clocks and the type not yet known; bundles and
vectors aggregate them to any depth. `Ty.ind` is the induction principle that reaches the types of
fields.
-/

namespace IntervalHdl
set_option autoImplicit false

/-- A named component of a bundle; a flipped one flows against the bundle. -/
structure Field (α : Type) where
  name : String
  flip : Bool
  ty : α
deriving DecidableEq

/-- Types of ports, storage and expressions. -/
inductive Ty where
  | uint (width : Width)
  | sint (width : Width)
  | interval (type : Interval)
  | clock
  | bundle (fields : List (Field Ty))
  | vector (elem : Ty) (size : UInt64)
  | unknown
deriving Inhabited

namespace Ty

/-- Induction over types, with a hypothesis for every field of a bundle. -/
@[elab_as_elim, induction_eliminator]
theorem ind {motive : Ty → Prop}
    (uint : ∀ width, motive (.uint width))
    (sint : ∀ width, motive (.sint width))
    (interval : ∀ type, motive (.interval type))
    (clock : motive .clock)
    (bundle : ∀ fields, (∀ field ∈ fields, motive field.ty) → motive (.bundle fields))
    (vector : ∀ elem size, motive elem → motive (.vector elem size))
    (unknown : motive .unknown) (t : Ty) : motive t :=
  @Ty.rec motive (fun fields => ∀ field ∈ fields, motive field.ty) (fun field => motive field.ty)
    uint sint interval clock bundle vector unknown
    (fun _ absent => nomatch absent)
    (fun _ _ head tail _ found => by
      rcases List.mem_cons.mp found with rfl | found
      · exact head
      · exact tail _ found)
    (fun _ _ _ ty => ty) t

/-- The width of a ground type; aggregates report none. -/
def width : Ty → Width
  | .uint w | .sint w => w
  | .interval t => t.width
  | .clock => .known (.ofNat 1)
  | .bundle _ | .vector _ _ | .unknown => .unknown

/-- The interval that the type is. -/
def interval? : Ty → Option Interval
  | .interval t => some t
  | _ => none

/-- Holds of an interval type. -/
def isInterval : Ty → Bool
  | .interval _ => true
  | _ => false

/-- Holds of every type but the aggregates. -/
def isGround : Ty → Bool
  | .bundle _ | .vector _ _ => false
  | _ => true

/-- The first field of that name in a bundle. -/
def field? (t : Ty) (name : String) : Option (Field Ty) :=
  match t with
  | .bundle fields => fields.find? (·.name == name)
  | _ => none

mutual

/-- Some interval occurs in the type, at any depth. -/
def containsInterval : Ty → Bool
  | .interval _ => true
  | .bundle fields => fieldsContainInterval fields
  | .vector elem _ => elem.containsInterval
  | .uint _ | .sint _ | .clock | .unknown => false

/-- Some interval occurs in the type of a field. -/
def fieldsContainInterval : List (Field Ty) → Bool
  | [] => false
  | ⟨_, _, ty⟩ :: fields => ty.containsInterval || fieldsContainInterval fields

end

mutual

/-- Both are one type, whatever the spelling of interval bounds. -/
def equal : Ty → Ty → Bool
  | .uint a, .uint b | .sint a, .sint b => a == b
  | .interval a, .interval b => a.equal b
  | .clock, .clock | .unknown, .unknown => true
  | .bundle as, .bundle bs => fieldsEqual as bs
  | .vector a n, .vector b m => a.equal b && n == m
  | _, _ => false

/-- Both lists hold the same fields in the same order. -/
def fieldsEqual : List (Field Ty) → List (Field Ty) → Bool
  | [], [] => true
  | ⟨n, f, a⟩ :: as, ⟨m, g, b⟩ :: bs => n == m && f == g && a.equal b && fieldsEqual as bs
  | _, _ => false

end

/-- Replaces the component types of an aggregate; a ground type stays. -/
def mapChildrenM {m : Type → Type} [Monad m] (f : Ty → m Ty) : Ty → m Ty
  | .bundle fields => do
    let fields ← fields.mapM fun field => do return { field with ty := ← f field.ty }
    return .bundle fields
  | .vector elem size => do return .vector (← f elem) size
  | ground => pure ground

theorem isInterval_iff {t : Ty} : t.isInterval = true ↔ ∃ i, t = .interval i := by
  cases t <;> simp [isInterval]

theorem interval?_eq_some_iff {t : Ty} {i : Interval} : t.interval? = some i ↔ t = .interval i := by
  cases t <;> simp [interval?]

theorem fieldsContainInterval_eq_any (fields : List (Field Ty)) :
    fieldsContainInterval fields = fields.any (·.ty.containsInterval) := by
  induction fields with
  | nil => rfl
  | cons field fields ih => simp [fieldsContainInterval, ih]

@[simp] theorem containsInterval_bundle (fields : List (Field Ty)) :
    (Ty.bundle fields).containsInterval = fields.any (·.ty.containsInterval) := by
  rw [containsInterval, fieldsContainInterval_eq_any]

@[simp] theorem containsInterval_vector (elem : Ty) (size : UInt64) :
    (Ty.vector elem size).containsInterval = elem.containsInterval := by
  rw [containsInterval]

theorem fieldsEqual_refl {fields : List (Field Ty)}
    (each : ∀ field ∈ fields, field.ty.equal field.ty = true) :
    fieldsEqual fields fields = true := by
  induction fields with
  | nil => rfl
  | cons field fields ih => simp_all [fieldsEqual]

@[simp] theorem equal_refl (t : Ty) : t.equal t = true := by
  induction t with
  | uint | sint | clock | unknown | interval => simp [equal]
  | bundle fields each => rw [equal]; exact fieldsEqual_refl each
  | vector elem size ih => simp [equal, ih]

end Ty

end IntervalHdl
