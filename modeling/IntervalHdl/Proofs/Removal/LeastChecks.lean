import Mathlib
import IntervalHdl.Proofs.Removal.RangeChecks

/-!
# The least checks of a wrap

A wrap compares on as few sides as any action that reduces every incoming value. It falls back to
the remainder exactly where an incoming value is a whole period or more outside the target range:
the table asks of each side whether one correction by less than a period would do. One by the period
still serves a value that is outside by just that much, so at that distance, on either side, the
remainder is taken although corrections would do (`WrapAction.remainder_not_needed`).
-/

namespace IntervalHdl
set_option autoImplicit false

namespace RangeCheck

/-- The values of the target range. -/
def Target (c : RangeCheck) (v : Int) : Prop := c.lo ≤ v ∧ v ≤ c.hi

/-- A value after at most one correction, that of its own side. -/
def corrected (c : RangeCheck) (v : Int) : Int :=
  if v < c.lo then v + c.size else if c.hi < v then v - c.size else v

end RangeCheck

/-- How many comparisons are made. -/
def Sides.comparisons (s : Sides) : Nat := s.low.toNat + s.high.toNat

/-- The action is right for every incoming value: it gives the number of the target range that
differs by a multiple of the size. -/
def WrapAction.Reduces (c : RangeCheck) (a : WrapAction) : Prop :=
  ∀ v, c.Incoming v → a.apply c v = c.lo + (v - c.lo) % c.size

variable {c : RangeCheck} {a b : WrapAction} {s t : Sides}

/-- One correction serves all incoming values if and only if none is outside by more than a
period. -/
theorem RangeCheck.corrected_target_iff (ordered : c.lo ≤ c.hi) (incoming : c.inLo ≤ c.inHi) :
    (∀ v, c.Incoming v → c.Target (c.corrected v)) ↔
      c.lo - c.size ≤ c.inLo ∧ c.inHi ≤ c.hi + c.size := by
  have size_eq : c.size = c.hi - c.lo + 1 := rfl
  unfold Incoming Target corrected
  constructor
  · intro served
    -- the ends of the incoming range are the values that lie farthest outside
    have least := served c.inLo ⟨le_refl _, incoming⟩
    have greatest := served c.inHi ⟨incoming, le_refl _⟩
    split_ifs at least greatest <;> omega
  · rintro ⟨low, high⟩ v ⟨above, below⟩
    split_ifs <;> omega

namespace WrapAction

/-- The remainder is taken exactly where an incoming value is outside by a period or more. -/
theorem decide_eq_remainder_iff (ordered : c.lo ≤ c.hi) :
    decide c = .remainder ↔ c.inLo ≤ c.lo - c.size ∨ c.hi + c.size ≤ c.inHi := by
  have size_eq : c.size = c.hi - c.lo + 1 := rfl
  have highFits := c.fitsHigh_iff
  have lowFits := c.fitsLow_iff
  have highNear := c.nearHigh_iff
  have lowNear := c.nearLow_iff
  unfold decide
  cases high : c.fitsHigh <;> cases low : c.fitsLow <;> cases farHigh : c.nearHigh <;>
    cases farLow : c.nearLow <;>
    simp only [high, low, farHigh, farLow, reduceCtorEq, true_iff, false_iff, not_le,
      Bool.false_eq_true] at * <;>
    omega

/-- A decision that is not the remainder compares exactly on the sides where incoming values stick
out. -/
theorem sides_decide (decided : (decide c).sides? = some s) :
    (s.low = true ↔ c.inLo < c.lo) ∧ (s.high = true ↔ c.hi < c.inHi) := by
  rw [← not_le, ← not_le, ← RangeCheck.fitsLow_iff, ← RangeCheck.fitsHigh_iff]
  unfold decide at decided
  split at decided <;> cases decided <;> simp [*]

/-- The sides of the corrections name the action. -/
theorem eq_of_sides (first : a.sides? = some s) (second : b.sides? = some s) : a = b := by
  cases a <;> cases b <;> cases first <;> first | rfl | cases second

/-- Corrections that are right for every incoming value are made on each side where one sticks
out. -/
theorem Reduces.sides (right : a.Reduces c) (ordered : c.lo ≤ c.hi) (incoming : c.inLo ≤ c.inHi)
    (corrects : a.sides? = some s) :
    (c.inLo < c.lo → s.low = true) ∧ (c.hi < c.inHi → s.high = true) := by
  have size_eq : c.size = c.hi - c.lo + 1 := rfl
  have target (v : Int) (inside : c.Incoming v) : c.Target (a.apply c v) := by
    have nonneg : 0 ≤ (v - c.lo) % c.size := Int.emod_nonneg _ (by omega)
    have small : (v - c.lo) % c.size < c.size := Int.emod_lt_of_pos _ (by omega)
    rw [right v inside]
    exact ⟨by omega, by omega⟩
  -- an end that sticks out and is not corrected stays outside
  obtain ⟨least, -⟩ := target c.inLo ⟨le_refl _, incoming⟩
  obtain ⟨-, greatest⟩ := target c.inHi ⟨incoming, le_refl _⟩
  cases a <;> cases corrects <;> simp only [apply] at least greatest <;>
    constructor <;> intro outside <;> first | rfl | omega

/-- Any other corrections that are right make more comparisons than the decided ones. -/
theorem comparisons_lt (ordered : c.lo ≤ c.hi) (incoming : c.inLo ≤ c.inHi)
    (decided : (decide c).sides? = some s) (corrects : a.sides? = some t) (right : a.Reduces c) :
    a = decide c ∨ s.comparisons < t.comparisons := by
  obtain ⟨low, high⟩ := sides_decide decided
  obtain ⟨lowNeeded, highNeeded⟩ := right.sides ordered incoming corrects
  have lowKept : s.low = true → t.low = true := lowNeeded ∘ low.mp
  have highKept : s.high = true → t.high = true := highNeeded ∘ high.mp
  by_cases same : t = s
  · exact .inl (eq_of_sides (same ▸ corrects) decided)
  · obtain ⟨sLow, sHigh⟩ := s
    obtain ⟨tLow, tHigh⟩ := t
    revert lowKept highKept same
    cases sLow <;> cases sHigh <;> cases tLow <;> cases tHigh <;> simp [Sides.comparisons]

/-- A wrap takes the remainder where one correction cannot serve every incoming value and, beyond
that, where an end of the incoming range is just a period outside. It is right wherever it is
decided, and in every other case all other corrections that are right make more comparisons. -/
theorem decide_least (ordered : c.lo ≤ c.hi) (incoming : c.inLo ≤ c.inHi) :
    (decide c = .remainder ↔
        (∃ v, c.Incoming v ∧ ¬ c.Target (c.corrected v)) ∨
          c.inLo = c.lo - c.size ∨ c.inHi = c.hi + c.size) ∧
      (decide c).Reduces c ∧
      ∀ s, (decide c).sides? = some s → ∀ a t, a.sides? = some t → a.Reduces c →
        a = decide c ∨ s.comparisons < t.comparisons := by
  refine ⟨?_, fun v inside => apply_decide ordered inside.1 inside.2,
    fun s decided a t corrects right => comparisons_lt ordered incoming decided corrects right⟩
  have served := RangeCheck.corrected_target_iff ordered incoming
  have unserved : (∃ v, c.Incoming v ∧ ¬ c.Target (c.corrected v)) ↔
      ¬ (c.lo - c.size ≤ c.inLo ∧ c.inHi ≤ c.hi + c.size) := by
    rw [← served]
    push Not
    rfl
  rw [decide_eq_remainder_iff ordered, unserved]
  omega

/-- Values to twice the size of the target range need one correction, and get it. -/
theorem decide_least_twice :
    decide ⟨0, 7, 0, 14⟩ = .correctHigh ∧
      ∀ a : WrapAction, ∀ t, a.sides? = some t → a.Reduces ⟨0, 7, 0, 14⟩ →
        a = .correctHigh ∨ 1 < t.comparisons := by
  have decided : decide ⟨0, 7, 0, 14⟩ = .correctHigh := by decide
  obtain ⟨-, -, least⟩ := decide_least (c := ⟨0, 7, 0, 14⟩) (by decide) (by decide)
  rw [decided] at least
  exact ⟨decided, least _ rfl⟩

/-- An end at just a period outside calls for the remainder, although one subtraction serves every
incoming value. -/
theorem remainder_not_needed :
    decide ⟨0, 7, 0, 15⟩ = .remainder ∧
      (∀ v, RangeCheck.Incoming ⟨0, 7, 0, 15⟩ v →
        RangeCheck.Target ⟨0, 7, 0, 15⟩ (RangeCheck.corrected ⟨0, 7, 0, 15⟩ v)) ∧
      correctHigh.Reduces ⟨0, 7, 0, 15⟩ := by
  refine ⟨by decide, (RangeCheck.corrected_target_iff (by decide) (by decide)).mpr (by decide), ?_⟩
  rintro v ⟨low, high⟩
  have size_eq : RangeCheck.size ⟨0, 7, 0, 15⟩ = 8 := by decide
  simp only [apply, size_eq] at low high ⊢
  omega

end WrapAction

end IntervalHdl
