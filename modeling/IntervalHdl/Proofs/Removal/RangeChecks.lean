import Mathlib
import IntervalHdl.Removal.RangeCheck

/-!
# What the range decisions compute

The value that each action of a saturation or a wrap gives, and that the decided one is right for
every value in the incoming range: a saturation clamps into the target range, a wrap gives the
number of the target range that differs by a multiple of its size.
-/

namespace IntervalHdl
set_option autoImplicit false

/-- The number of values in the target range, if it is not empty. -/
def RangeCheck.size (c : RangeCheck) : Int := c.range + 1

/-- The values that can come in. -/
def RangeCheck.Incoming (c : RangeCheck) (v : Int) : Prop := c.inLo ≤ v ∧ v ≤ c.inHi

/-- The value that a saturation gives. -/
def SaturateAction.apply (c : RangeCheck) (v : Int) : SaturateAction → Int
  | .passThrough => v
  | .clampLow => if v < c.lo then c.lo else v
  | .clampHigh => if c.hi < v then c.hi else v
  | .clampBoth => if c.hi < v then c.hi else if v < c.lo then c.lo else v

/-- The value that a wrap gives. -/
def WrapAction.apply (c : RangeCheck) (v : Int) : WrapAction → Int
  | .passThrough => v
  | .correctLow => if v < c.lo then v + c.size else v
  | .correctHigh => if c.hi < v then v - c.size else v
  | .correctBoth => if c.hi < v then v - c.size else if v < c.lo then v + c.size else v
  | .remainder =>
    let residue := (v - c.lo).tmod c.size
    (if residue < 0 then residue + c.size else residue) + c.lo

variable {c : RangeCheck} {v : Int}

namespace RangeCheck

@[simp] theorem fitsHigh_iff : c.fitsHigh = true ↔ c.inHi ≤ c.hi := decide_eq_true_iff

@[simp] theorem fitsLow_iff : c.fitsLow = true ↔ c.lo ≤ c.inLo := decide_eq_true_iff

@[simp] theorem nearHigh_iff : c.nearHigh = true ↔ c.inHi < c.hi + c.size := by
  unfold nearHigh size
  rw [decide_eq_true_iff]
  omega

@[simp] theorem nearLow_iff : c.nearLow = true ↔ c.lo < c.inLo + c.size := by
  unfold nearLow size
  rw [decide_eq_true_iff]
  omega

end RangeCheck

/-- The decided saturation clamps every incoming value into the target range. -/
theorem SaturateAction.apply_decide (ordered : c.lo ≤ c.hi) (low : c.inLo ≤ v) (high : v ≤ c.inHi) :
    (decide c).apply c v = max c.lo (min c.hi v) := by
  unfold decide
  split <;> rename_i fitsHigh fitsLow <;>
    simp only [RangeCheck.fitsHigh_iff, RangeCheck.fitsLow_iff, Bool.eq_false_iff, ne_eq]
      at fitsHigh fitsLow <;>
    simp only [apply] <;>
    omega

/-- The number below `m` that is not negative and differs from `a` by a multiple of `m`. -/
theorem eq_emod_of_differs {a m r : Int} (k : Int) (differs : r = a + k * m) (nonneg : 0 ≤ r)
    (below : r < m) : r = a % m := by
  rw [← Int.emod_eq_of_lt nonneg below, differs, Int.add_mul_emod_self_right]

/-- A truncated remainder, with a negative one corrected, is the remainder that is not negative. -/
theorem corrected_tmod {a m : Int} (positive : 0 < m) :
    (if a.tmod m < 0 then a.tmod m + m else a.tmod m) = a % m := by
  have quotient := Int.tmod_def a m
  have small : (a.tmod m).natAbs < m.natAbs := by
    rw [Int.natAbs_tmod]
    exact Nat.mod_lt _ (by omega)
  split
  · refine eq_emod_of_differs (1 - a.tdiv m) ?_ (by omega) (by omega)
    rw [quotient]
    ring
  · refine eq_emod_of_differs (-a.tdiv m) ?_ (by omega) (by omega)
    rw [quotient]
    ring

/-- A number of the target range is the reduction of every number that differs from it by a multiple
of the size. -/
theorem RangeCheck.eq_reduced {r : Int} (k : Int) (differs : r = v + k * c.size) (above : c.lo ≤ r)
    (below : r ≤ c.hi) : r = c.lo + (v - c.lo) % c.size := by
  have size_eq : c.size = c.hi - c.lo + 1 := rfl
  have residue : r - c.lo = (v - c.lo) % c.size :=
    eq_emod_of_differs k (by rw [differs]; ring) (by omega) (by omega)
  omega

/-- The decided wrap reduces every incoming value into the target range. -/
theorem WrapAction.apply_decide (ordered : c.lo ≤ c.hi) (low : c.inLo ≤ v) (high : v ≤ c.inHi) :
    (decide c).apply c v = c.lo + (v - c.lo) % c.size := by
  have size_eq : c.size = c.hi - c.lo + 1 := rfl
  have stays (above : c.lo ≤ v) (below : v ≤ c.hi) : v = c.lo + (v - c.lo) % c.size :=
    RangeCheck.eq_reduced 0 (by ring) above below
  have raised (above : c.lo ≤ v + c.size) (below : v + c.size ≤ c.hi) :
      v + c.size = c.lo + (v - c.lo) % c.size :=
    RangeCheck.eq_reduced 1 (by ring) above below
  have lowered (above : c.lo ≤ v - c.size) (below : v - c.size ≤ c.hi) :
      v - c.size = c.lo + (v - c.lo) % c.size :=
    RangeCheck.eq_reduced (-1) (by ring) above below
  unfold decide
  split
  · rename_i fitsHigh fitsLow
    simp only [RangeCheck.fitsHigh_iff, RangeCheck.fitsLow_iff] at fitsHigh fitsLow
    exact stays (by omega) (by omega)
  · rename_i fitsHigh _ nearLow
    simp only [RangeCheck.fitsHigh_iff, RangeCheck.nearLow_iff] at fitsHigh nearLow
    simp only [apply]
    split
    · exact raised (by omega) (by omega)
    · exact stays (by omega) (by omega)
  · rename_i _ fitsLow nearHigh
    simp only [RangeCheck.fitsLow_iff, RangeCheck.nearHigh_iff] at fitsLow nearHigh
    simp only [apply]
    split
    · exact lowered (by omega) (by omega)
    · exact stays (by omega) (by omega)
  · rename_i _ _ nearHigh nearLow
    simp only [RangeCheck.nearHigh_iff, RangeCheck.nearLow_iff] at nearHigh nearLow
    simp only [apply]
    split
    · exact lowered (by omega) (by omega)
    · split
      · exact raised (by omega) (by omega)
      · exact stays (by omega) (by omega)
  · simp only [apply]
    rw [corrected_tmod (by omega)]
    omega

end IntervalHdl
