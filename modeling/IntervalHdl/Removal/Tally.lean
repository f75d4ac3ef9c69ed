import IntervalHdl.Removal.RangeCheck

/-!
# What a run did, in numbers

A tally counts the steps of a run. Tallies add, and the empty one changes nothing, so the tally of
a run is the sum of the tallies of its steps.
-/

namespace IntervalHdl
set_option autoImplicit false

/-- How often each choice of sides was taken. -/
structure ActionCounts where
  unchanged : Nat := 0
  low : Nat := 0
  high : Nat := 0
  both : Nat := 0
deriving DecidableEq

namespace ActionCounts

instance : Add ActionCounts :=
  ⟨fun a b => ⟨a.unchanged + b.unchanged, a.low + b.low, a.high + b.high, a.both + b.both⟩⟩

/-- One choice. -/
def one : Sides → ActionCounts
  | ⟨false, false⟩ => { unchanged := 1 }
  | ⟨true, false⟩ => { low := 1 }
  | ⟨false, true⟩ => { high := 1 }
  | ⟨true, true⟩ => { both := 1 }

/-- One more choice. -/
def record (c : ActionCounts) (sides : Sides) : ActionCounts := c + one sides

/-- The number of choices. -/
def total (c : ActionCounts) : Nat := c.unchanged + c.low + c.high + c.both

@[simp] theorem total_add (a b : ActionCounts) : (a + b).total = a.total + b.total := by
  show a.unchanged + b.unchanged + (a.low + b.low) + (a.high + b.high) + (a.both + b.both) = _
  unfold total; omega

/-- An action counts once, whichever sides it compares. -/
@[simp] theorem total_one (s : Sides) : (one s).total = 1 := by
  obtain ⟨low, high⟩ := s
  cases low <;> cases high <;> rfl

@[simp] theorem add_empty (a : ActionCounts) : a + {} = a := rfl

@[simp] theorem empty_add (a : ActionCounts) : ({} : ActionCounts) + a = a := by
  show ActionCounts.mk (0 + a.unchanged) (0 + a.low) (0 + a.high) (0 + a.both) = a
  simp only [Nat.zero_add]

/-- Sums of counts may be grouped either way. -/
theorem add_assoc (a b c : ActionCounts) : a + b + c = a + (b + c) := by
  show ActionCounts.mk (a.unchanged + b.unchanged + c.unchanged) (a.low + b.low + c.low)
      (a.high + b.high + c.high) (a.both + b.both + c.both) =
    ActionCounts.mk (a.unchanged + (b.unchanged + c.unchanged)) (a.low + (b.low + c.low))
      (a.high + (b.high + c.high)) (a.both + (b.both + c.both))
  simp only [Nat.add_assoc]

end ActionCounts

/-- The steps of a run, counted by sort. -/
structure Tally where
  /-- Rescales inserted by alignment. -/
  rescales : Nat := 0
  /-- Casts of raw bits to intervals. -/
  casts : Nat := 0
  /-- Moves of the binary point turned into shifts. -/
  shifts : Nat := 0
  /-- Saturations. -/
  saturates : ActionCounts := {}
  /-- Wraps done with at most one correction a side. -/
  wraps : ActionCounts := {}
  /-- Wraps to a signed width. -/
  widthWraps : Nat := 0
  /-- Wraps done by a remainder. -/
  remainderWraps : Nat := 0
  /-- Interval types replaced by integers. -/
  types : Nat := 0
deriving DecidableEq

namespace Tally

instance : Add Tally :=
  ⟨fun a b => {
    rescales := a.rescales + b.rescales
    casts := a.casts + b.casts
    shifts := a.shifts + b.shifts
    saturates := a.saturates + b.saturates
    wraps := a.wraps + b.wraps
    widthWraps := a.widthWraps + b.widthWraps
    remainderWraps := a.remainderWraps + b.remainderWraps
    types := a.types + b.types }⟩

/-- All wraps, however they were done. -/
def allWraps (t : Tally) : Nat := t.wraps.total + t.widthWraps + t.remainderWraps

section Projections

variable (a b : Tally)

@[simp] theorem rescales_add : (a + b).rescales = a.rescales + b.rescales := rfl
@[simp] theorem casts_add : (a + b).casts = a.casts + b.casts := rfl
@[simp] theorem shifts_add : (a + b).shifts = a.shifts + b.shifts := rfl
@[simp] theorem saturates_add : (a + b).saturates = a.saturates + b.saturates := rfl
@[simp] theorem wraps_add : (a + b).wraps = a.wraps + b.wraps := rfl
@[simp] theorem widthWraps_add : (a + b).widthWraps = a.widthWraps + b.widthWraps := rfl
@[simp] theorem remainderWraps_add :
    (a + b).remainderWraps = a.remainderWraps + b.remainderWraps := rfl
@[simp] theorem types_add : (a + b).types = a.types + b.types := rfl

end Projections

@[ext] theorem ext {a b : Tally} (rescales : a.rescales = b.rescales) (casts : a.casts = b.casts)
    (shifts : a.shifts = b.shifts) (saturates : a.saturates = b.saturates)
    (wraps : a.wraps = b.wraps) (widthWraps : a.widthWraps = b.widthWraps)
    (remainderWraps : a.remainderWraps = b.remainderWraps) (types : a.types = b.types) :
    a = b := by
  cases a; cases b; simp_all

@[simp] theorem add_empty (a : Tally) : a + {} = a := rfl

@[simp] theorem empty_add (a : Tally) : ({} : Tally) + a = a := by
  apply ext <;> simp

/-- Sums of tallies may be grouped either way. -/
theorem add_assoc (a b c : Tally) : a + b + c = a + (b + c) := by
  apply ext <;> simp [Nat.add_assoc, ActionCounts.add_assoc]

end Tally

end IntervalHdl
