import IntervalHdl.Proofs.Removal.FloorModulo

/-!
# Rescaled values and recorded ranges

A value that is moved to another point becomes a shift of its encoding, and keeps its bounds. These
are rounded down at both points. Rounding down goes well with a shift to the right, and above: there
an encoding never leaves the recorded range. To the left, the least encoding stands for a number
below the bound if the bound is off the coarser grid, and it is then below the range at the finer
point. No other encoding leaves the range (`Expr.rescale_range`).
-/

namespace IntervalHdl
set_option autoImplicit false

/-- The encoding at the point `q` of what `v` encodes at the point `p`, rounded down at a coarser
point. -/
def movedEncoding (p q : BitCount) (v : Int) : Int :=
  if p ≤ q then v * 2 ^ (q.toNat - p.toNat) else v / 2 ^ (p.toNat - q.toNat)

/-- The width that inference gives a value of width `w` that is moved from `p` to `q`. -/
def movedWidth (p q w : BitCount) : BitCount :=
  if p = q then w else if p < q then w + (q - p) else max (w - (p - q)) (.ofNat 1)

/-- The value is a number of the greatest width there is. -/
def Representable (v : Int) : Prop := FitsSigned BitCount.limit v

/-- What fits any bit count is representable. -/
theorem FitsSigned.representable {n : BitCount} {v : Int} (fits : FitsSigned n.toNat v) :
    Representable v := fits.mono n.toNat_le

/-- What fits two widths fits the narrower one. -/
theorem FitsSigned.cut {m n : Nat} {v : Int} (fits : FitsSigned m v) (fits' : FitsSigned n v) :
    FitsSigned (min m n) v := by
  rcases Nat.le_total m n with narrow | narrow
  · rw [Nat.min_eq_left narrow]
    exact fits
  · rw [Nat.min_eq_right narrow]
    exact fits'

section Encodings

variable {p q w : BitCount} {v : Int}

theorem movedEncoding_of_le (finer : p ≤ q) :
    movedEncoding p q v = v * 2 ^ (q.toNat - p.toNat) := if_pos finer

theorem movedEncoding_of_lt (coarser : q < p) :
    movedEncoding p q v = v / 2 ^ (p.toNat - q.toNat) := if_neg (Nat.not_le.mpr coarser)

@[simp] theorem movedEncoding_self (p : BitCount) (v : Int) : movedEncoding p p v = v := by
  rw [movedEncoding_of_le (BitCount.le_refl p), Nat.sub_self, pow_zero, mul_one]

/-- Two points are equal, or one is the finer one. -/
theorem BitCount.lt_or_eq_or_gt (p q : BitCount) : p < q ∨ p = q ∨ q < p := by
  rw [BitCount.ext_iff]
  exact Nat.lt_trichotomy p.toNat q.toNat

/-- What a moved value encodes to fits its inferred width, unless that was cut off at the greatest
bit count. -/
theorem FitsSigned.moved (fits : FitsSigned w.toNat v)
    (representable : Representable (movedEncoding p q v)) :
    FitsSigned (movedWidth p q w).toNat (movedEncoding p q v) := by
  unfold movedWidth
  split_ifs with same finer
  · rw [← same, movedEncoding_self]
    exact fits
  · rw [BitCount.toNat_add, BitCount.toNat_sub]
    refine .cut ?_ representable
    rw [movedEncoding_of_le (Nat.le_of_lt finer)]
    exact fits.shl _
  · have coarser : q < p := ((BitCount.lt_or_eq_or_gt p q).resolve_left finer).resolve_left same
    rw [movedEncoding_of_lt coarser, BitCount.toNat_max, BitCount.toNat_sub, BitCount.toNat_sub]
    exact fits.shr _

end Encodings

namespace Fraction

variable {lo hi : Fraction} {p q : BitCount} {v : Int}

/-- A moved encoding is never above the range. -/
theorem movedEncoding_le (high : v ≤ hi.scaledFloor p.toNat) (q : BitCount) :
    movedEncoding p q v ≤ hi.scaledFloor q.toNat := by
  by_cases finer : p ≤ q
  · obtain ⟨n, apart⟩ := Nat.exists_eq_add_of_le finer
    rw [movedEncoding_of_le finer, apart, Nat.add_sub_cancel_left]
    calc v * 2 ^ n ≤ hi.scaledFloor p.toNat * 2 ^ n :=
          mul_le_mul_of_nonneg_right high (by positivity)
      _ ≤ hi.scaledFloor (p.toNat + n) := hi.scaledFloor_mul_le p.toNat n
  · have coarser : q < p := Nat.not_le.mp finer
    obtain ⟨n, apart⟩ := Nat.exists_eq_add_of_le (Nat.le_of_lt coarser)
    rw [movedEncoding_of_lt coarser, apart, Nat.add_sub_cancel_left,
      ← hi.scaledFloor_shifted q.toNat n, ← apart]
    exact Int.ediv_le_ediv (by positivity) high

/-- A moved encoding is below the range only if it was the least one, at a coarser point that rounds
the bound down. -/
theorem le_movedEncoding_iff (low : lo.scaledFloor p.toNat ≤ v) (q : BitCount) :
    lo.scaledFloor q.toNat ≤ movedEncoding p q v ↔
      ¬ (p < q ∧ v = lo.scaledFloor p.toNat ∧
        lo.scaledFloor p.toNat * 2 ^ (q.toNat - p.toNat) < lo.scaledFloor q.toNat) := by
  by_cases finer : p < q
  · obtain ⟨n, apart⟩ := Nat.exists_eq_add_of_le (Nat.le_of_lt finer)
    have grid : (0 : Int) < 2 ^ n := by positivity
    -- the next encoding above the least one is past whatever was rounded off
    have next : lo.scaledFloor (p.toNat + n) < (lo.scaledFloor p.toNat + 1) * 2 ^ n := by
      rw [← Int.ediv_lt_iff_lt_mul grid, lo.scaledFloor_shifted]
      exact Int.lt_succ _
    rw [movedEncoding_of_le (Nat.le_of_lt finer), apart, Nat.add_sub_cancel_left]
    rcases Int.lt_or_eq_of_le low with above | rfl
    · have past : (lo.scaledFloor p.toNat + 1) * 2 ^ n ≤ v * 2 ^ n :=
        mul_le_mul_of_nonneg_right above grid.le
      simp only [above.ne', false_and, and_false, not_false_iff, iff_true]
      omega
    · simp only [finer, true_and, not_lt]
  · simp only [finer, false_and, not_false_iff, iff_true]
    rcases BitCount.lt_or_eq_or_gt p q with below | rfl | coarser
    · exact (finer below).elim
    · rw [movedEncoding_self]
      exact low
    · obtain ⟨n, apart⟩ := Nat.exists_eq_add_of_le (Nat.le_of_lt coarser)
      rw [movedEncoding_of_lt coarser, apart, Nat.add_sub_cancel_left,
        ← lo.scaledFloor_shifted q.toNat n, ← apart]
      exact Int.ediv_le_ediv (by positivity) low

end Fraction

namespace Expr

/-- A typed value of width `w`, shifted from one point to another. -/
def shifted (x : Expr) (w p q : BitCount) : Expr :=
  if p = q then x
  else if p < q then .prim .shl [x] [((q - p).toNat : Int)] (.sint (.known (movedWidth p q w)))
  else .prim .shr [x] [((p - q).toNat : Int)] (.sint (.known (movedWidth p q w)))

section Shifted

variable {warn : Bool} {s : Scope} {env : Environment} {operand a a' x l e : Expr}
  {p q w : BitCount} {v : Int}

@[simp] theorem shifted_self (x : Expr) (w p : BitCount) : x.shifted w p p = x := if_pos rfl

theorem shifted_of_lt (x : Expr) (w : BitCount) (finer : p < q) :
    x.shifted w p q = .prim .shl [x] [((q - p).toNat : Int)] (.sint (.known (w + (q - p)))) := by
  have apart : p ≠ q := fun same => Nat.lt_irrefl _ (same ▸ finer)
  rw [shifted, movedWidth, if_neg apart, if_pos finer, if_neg apart, if_pos finer]

theorem shifted_of_gt (x : Expr) (w : BitCount) (coarser : q < p) :
    x.shifted w p q = .prim .shr [x] [((p - q).toNat : Int)]
      (.sint (.known (max (w - (p - q)) (.ofNat 1)))) := by
  have apart : p ≠ q := fun same => Nat.lt_irrefl _ (same ▸ coarser)
  have below : ¬ p < q := Nat.not_lt.mpr (Nat.le_of_lt coarser)
  rw [shifted, movedWidth, if_neg apart, if_neg below, if_neg apart, if_neg below]

theorem ty_shifted (signed : x.ty = .sint (.known w)) (p q : BitCount) :
    (x.shifted w p q).ty = .sint (.known (movedWidth p q w)) := by
  unfold shifted
  split_ifs with same finer
  · rw [signed, movedWidth, if_pos same]
  · rfl
  · rfl

/-- A shift computes the moved encoding, rounded down to the right. -/
theorem exactAt_shifted (value : x.exactAt env [] = some v) (w p q : BitCount) :
    (x.shifted w p q).exactAt env [] = some (movedEncoding p q v) := by
  rcases BitCount.lt_or_eq_or_gt p q with finer | rfl | coarser
  · rw [shifted_of_lt x w finer, movedEncoding_of_le (Nat.le_of_lt finer), ← BitCount.toNat_sub]
    exact valueAt_prim (r := .signed) (.cons value .nil) rfl
  · rw [shifted_self, movedEncoding_self]
    exact value
  · rw [shifted_of_gt x w coarser, movedEncoding_of_lt coarser, ← BitCount.toNat_sub]
    exact valueAt_prim (r := .signed) (.cons value .nil) rfl

/-- So does hardware, if the moved encoding is representable. -/
theorem Delivers.shifted (arg : Delivers env operand x v) (signed : x.ty = .sint (.known w))
    (representable : Representable (movedEncoding p q v)) :
    Delivers env operand (x.shifted w p q) (movedEncoding p q v) := by
  have fits : FitsSigned w.toNat v := by
    have holds := arg.holds
    rwa [signed] at holds
  have moved := fits.moved representable
  unfold Expr.shifted
  split_ifs with same finer
  · rw [← same, movedEncoding_self]
    exact arg
  · refine .prim (r := .signed) (.cons arg .nil) ?_ moved
    rw [movedEncoding_of_le (Nat.le_of_lt finer), ← BitCount.toNat_sub]
    rfl
  · have coarser : q < p := ((BitCount.lt_or_eq_or_gt p q).resolve_left finer).resolve_left same
    refine .prim (r := .signed) (.cons arg .nil) ?_ moved
    rw [movedEncoding_of_lt coarser, ← BitCount.toNat_sub]
    rfl

/-- A moved expression is lowered and typed as a shift. -/
theorem Rescaled.typed (moved : Rescaled q a a') (recorded : a.ty.HasPoint p)
    (lowered : (a.lower warn).outcome = .ok l) (typed : l.infer s = .ok e)
    (signed : e.ty = .sint (.known w)) :
    ∃ l', (a'.lower warn).outcome = .ok l' ∧ l'.infer s = .ok (e.shifted w p q) := by
  cases moved with
  | same recorded' =>
    cases recorded.unique recorded'
    exact ⟨l, lowered, by rw [shifted_self]; exact typed⟩
  | moved ty point apart =>
    cases recorded.unique ⟨_, ty, point⟩
    have count (op : Operator) (n : BitCount) : op.bitCount (n.toNat : Int) = .ok n :=
      Operator.bitCount_eq_ok_iff.mpr rfl
    refine ⟨_, lower_rescaleStep lowered _ _ _, infer_prim_eq_ok_iff.mpr ?_⟩
    rcases BitCount.lt_or_eq_or_gt p q with finer | same | coarser
    · rw [shifted_of_lt e w finer, rescaleStep, if_pos finer, if_pos finer]
      refine ⟨_, _, .cons typed .nil, ?_, rfl⟩
      simp only [Operator.resultTy, Operator.unaryBy, signed, count]
      rfl
    · exact (apart same).elim
    · have below : ¬ p < q := Nat.not_lt.mpr (Nat.le_of_lt coarser)
      rw [shifted_of_gt e w coarser, rescaleStep, if_neg below, if_neg below]
      refine ⟨_, _, .cons typed .nil, ?_, rfl⟩
      simp only [Operator.resultTy, Operator.unaryBy, signed, count]
      rfl

end Shifted

/-- A value that is moved to another point keeps its bounds, is lowered and typed as a shift, and
computes the moved encoding: exactly, and in hardware where that is representable. An encoding in
the rounded range is moved to one that is not above the range at the other point, and not below it
either, but for the least one, at a point that rounds the bound down and is raised. -/
theorem rescale_range {warn : Bool} {s : Scope} {a l e : Expr} {t : Interval} {lo hi : Fraction}
    {p w : BitCount} (recorded : a.ty = .interval t) (lower : t.lower = .known lo)
    (upper : t.upper = .known hi) (point : t.point = .known p)
    (lowered : (a.lower warn).outcome = .ok l) (typed : l.infer s = .ok e)
    (signed : e.ty = .sint (.known w)) (d : BitCount) :
    ∃ a' t' l', (a.rescale d).outcome = .ok a' ∧ a'.ty = .interval t' ∧
      t'.encodings? = some (lo.scaledFloor d.toNat, hi.scaledFloor d.toNat) ∧
      (a'.lower warn).outcome = .ok l' ∧ l'.infer s = .ok (e.shifted w p d) ∧
      ∀ v, lo.scaledFloor p.toNat ≤ v → v ≤ hi.scaledFloor p.toNat →
        (∀ env, e.exactAt env [] = some v →
          (e.shifted w p d).exactAt env [] = some (movedEncoding p d v)) ∧
        (∀ env, e.hardwareAt env [] = some v → FitsSigned w.toNat v →
          Representable (movedEncoding p d v) →
          (e.shifted w p d).hardwareAt env [] = some (movedEncoding p d v)) ∧
        movedEncoding p d v ≤ hi.scaledFloor d.toNat ∧
        (lo.scaledFloor d.toNat ≤ movedEncoding p d v ↔
          ¬ (p < d ∧ v = lo.scaledFloor p.toNat ∧
            lo.scaledFloor p.toNat * 2 ^ (d.toNat - p.toNat) < lo.scaledFloor d.toNat)) := by
  have atPoint : a.ty.HasPoint p := ⟨t, recorded, point⟩
  obtain ⟨a', moved⟩ := exists_rescaled_of_hasPoint atPoint d
  obtain ⟨t', recorded', ends⟩ := moved.encodings recorded lower upper
  obtain ⟨l', lowered', typed'⟩ := moved.typed atPoint lowered typed signed
  refine ⟨a', t', l', rescale_eq_ok_iff.mpr moved, recorded', ends, lowered', typed',
    fun v low high => ⟨fun env value => exactAt_shifted value w p d,
      fun env value fits representable => ?_, Fraction.movedEncoding_le high d,
      Fraction.le_movedEncoding_iff low d⟩⟩
  have holds : e.ty.Holds v := by
    rw [signed]
    exact fits
  exact (Delivers.shifted ⟨value, holds, .operand⟩ signed representable).value

/-- From 1/2 to 1 at the point 0, the encoding 1 is moved to 2 at the point 1, which is in the range
there. -/
theorem rescale_range_one :
    let t : Interval := .of (.known ⟨1, 2, by decide⟩) (.ofInt 1) (.known (.ofNat 0))
    let typed : Expr := .ref "a" (.sint (.known (.ofNat 2)))
    let moved := typed.shifted (.ofNat 2) (.ofNat 0) (.ofNat 1)
    let held : Environment := fun _ _ => 1
    ∃ a' t' l', (rescale (.ofNat 1) (.ref "a" (.interval t))).outcome = .ok a' ∧
      a'.ty = .interval t' ∧ t'.encodings? = some (1, 2) ∧ (a'.lower true).outcome = .ok l' ∧
      l'.infer [("a", typed.ty)] = .ok moved ∧ moved.hardwareAt held [] = some 2 := by
  intro t typed moved held
  have bare : ((Expr.ref "a" (.interval t)).lower true).outcome = .ok typed := rfl
  have settled : typed.infer [("a", typed.ty)] = .ok typed := rfl
  obtain ⟨a', t', l', rescaled, recorded, ends, lowered, inferred, values⟩ :=
    rescale_range rfl rfl rfl rfl bare settled rfl (.ofNat 1)
  obtain ⟨-, evaluates, -, -⟩ := values 1 (by decide) (by decide)
  refine ⟨a', t', l', rescaled, recorded, ends, lowered, inferred, ?_⟩
  apply evaluates held rfl (by decide)
  exact FitsSigned.representable (n := .ofNat 3) (by decide)

/-- From 1/2 to 1 at the point 0, the encoding 0 is the least one. At the point 1 it is still 0, but
the least one there is 1. -/
theorem rescale_leaves_range :
    let t : Interval := .of (.known ⟨1, 2, by decide⟩) (.ofInt 1) (.known (.ofNat 0))
    let typed : Expr := .ref "a" (.sint (.known (.ofNat 2)))
    let held : Environment := fun _ _ => 0
    ∃ a' l' moved, t.encodings? = some (0, 1) ∧
      (rescale (.ofNat 1) (.ref "a" (.interval t))).outcome = .ok a' ∧
      a'.ty = .interval (t.atPoint (.ofNat 1)) ∧
      (t.atPoint (.ofNat 1)).encodings? = some (1, 2) ∧ (a'.lower true).outcome = .ok l' ∧
      l'.infer [("a", typed.ty)] = .ok moved ∧ typed.hardwareAt held [] = some 0 ∧
      moved.hardwareAt held [] = some 0 :=
  ⟨_, _, _, rfl, rfl, rfl, rfl, rfl, rfl, rfl, rfl⟩

end Expr

end IntervalHdl
