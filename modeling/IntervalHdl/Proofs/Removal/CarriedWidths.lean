import IntervalHdl.Proofs.Removal.SettledWidths
import IntervalHdl.Proofs.WellRecorded

/-!
# Widths that stay those of the types

An interval type is lowered to the bits that both its encodings need, one of them above the
fractional field (`Interval.carrierBits`). Moving the point and selecting between two values change
that number as type inference changes the width, so names, settings of the point and selections
settle at the width of their lowered type (`Expr.Positioned.carried`). Sums, products, saturations
and wraps need not: inference goes by the widths of their operands.
-/

namespace IntervalHdl
set_option autoImplicit false

open Reported

/-! ## Widths of encodings -/

/-- A number has two's-complement form in some bits exactly when its shortest form is no longer. -/
theorem signedBits_le_succ_iff {v : Int} {m : Nat} :
    signedBits v ≤ m + 1 ↔ -2 ^ m ≤ v ∧ v < 2 ^ m := by
  cases v with
  | ofNat k =>
    have digits : bitLength k ≤ m ↔ k < 2 ^ m := bitLength_le_iff
    have bound : (k : Int) < 2 ^ m ↔ k < 2 ^ m := by exact_mod_cast Iff.rfl
    simp only [signedBits, Int.ofNat_eq_natCast]
    omega
  | negSucc k =>
    have digits : bitLength k ≤ m ↔ k < 2 ^ m := bitLength_le_iff
    have bound : (k : Int) < 2 ^ m ↔ k < 2 ^ m := by exact_mod_cast Iff.rfl
    simp only [signedBits, Int.negSucc_eq]
    omega

/-- What lies between two numbers is no longer than the longer of them. -/
theorem signedBits_le_of_between {lo hi v : Int} (low : lo ≤ v) (high : v ≤ hi) :
    signedBits v ≤ max (signedBits lo) (signedBits hi) := by
  obtain ⟨m, longest⟩ : ∃ m, max (signedBits lo) (signedBits hi) = m + 1 :=
    ⟨max (signedBits lo) (signedBits hi) - 1, by have := signedBits_pos lo; omega⟩
  have lowest := signedBits_le_succ_iff.mp (show signedBits lo ≤ m + 1 by omega)
  have highest := signedBits_le_succ_iff.mp (show signedBits hi ≤ m + 1 by omega)
  rw [longest]
  exact signedBits_le_succ_iff.mpr ⟨by omega, by omega⟩

/-- A shift to the right takes bits off, until one is left. -/
theorem signedBits_shifted (v : Int) (n : Nat) :
    signedBits (v / 2 ^ n) + n = max (signedBits v) (n + 1) := by
  have positive : (0 : Int) < 2 ^ n := by positivity
  have shifted (m : Nat) : signedBits (v / 2 ^ n) ≤ m + 1 ↔ signedBits v ≤ m + n + 1 := by
    rw [signedBits_le_succ_iff, signedBits_le_succ_iff, Int.le_ediv_iff_mul_le positive,
      Int.ediv_lt_iff_lt_mul positive, pow_add, neg_mul]
  have some := signedBits_pos (v / 2 ^ n)
  apply Nat.le_antisymm
  · have := (shifted (max (signedBits v) (n + 1) - n - 1)).mpr (by omega)
    omega
  · have := (shifted (signedBits (v / 2 ^ n) - 1)).mp (by omega)
    omega

/-- A bound at a coarser point is the bound at a finer one, shifted to the right. -/
theorem Fraction.scaledFloor_shifted (f : Fraction) (p n : Nat) :
    f.scaledFloor (p + n) / 2 ^ n = f.scaledFloor p := by
  have positive : (0 : Int) < 2 ^ n := by positivity
  have shifted {a d : Int} (above : 0 < d) : (a * 2 ^ n).fdiv d / 2 ^ n = a.fdiv d := by
    rw [Int.fdiv_eq_ediv_of_nonneg _ above.le, Int.fdiv_eq_ediv_of_nonneg _ above.le,
      Int.ediv_ediv_of_nonneg above.le, Int.mul_ediv_mul_of_pos_left _ _ positive]
  unfold scaledFloor
  rw [pow_add, ← mul_assoc]
  rcases lt_or_gt_of_ne f.den_ne_zero with below | above
  · rw [← Int.neg_fdiv_neg, ← Int.neg_fdiv_neg (f.num * 2 ^ p), ← neg_mul]
    exact shifted (by omega)
  · exact shifted above

namespace Interval

/-- The bits that carry the encodings of both bounds, one of them above the fractional field. -/
def carrierBits (lo hi : Int) (p : BitCount) : BitCount :=
  max (max (signedWidth lo) (signedWidth hi)) (p + .ofNat 1)

/-- The interval is recorded at a known point and at its intrinsic width, and these are the
encodings of its bounds. -/
structure Intrinsic (t : Interval) (lo hi : Int) (p : BitCount) : Prop where
  point : t.point = .known p
  ends : t.encodings? = some (lo, hi)
  width : t.width = intrinsicWidth t.lower t.upper t.point

namespace Intrinsic

variable {t : Interval} {lo hi lo' hi' : Int} {p q n : BitCount}

theorem lowered (spans : t.Intrinsic lo hi p) :
    t.lowered = .ok (.sint (.known (carrierBits lo hi p))) := by
  obtain ⟨f, g, p', lower, upper, point, rfl, rfl⟩ := encodings?_eq_some_iff.mp spans.ends
  cases spans.point.symm.trans point
  refine lowered_eq_ok_iff.mpr ⟨_, p, _, spans.ends, spans.point, ?_, rfl⟩
  rw [spans.width, lower, upper, point]
  rfl

theorem atPoint_self (spans : t.Intrinsic lo hi p) : t.atPoint p = t := by
  have width := spans.width
  rw [spans.point] at width
  show (⟨t.lower, t.upper, .known p, intrinsicWidth t.lower t.upper (.known p)⟩ : Interval) = t
  rw [← width, ← spans.point]

/-- An interval keeps an intrinsic width at another point. -/
theorem atPoint (spans : t.Intrinsic lo hi p) (q : BitCount) :
    ∃ lo' hi', (t.atPoint q).Intrinsic lo' hi' q := by
  obtain ⟨f, g, _, lower, upper, -⟩ := encodings?_eq_some_iff.mp spans.ends
  exact ⟨_, _, rfl, encodings?_eq_some_iff.mpr ⟨f, g, q, lower, upper, rfl, rfl, rfl⟩, rfl⟩

/-- The encodings at a coarser point are those at a finer one, shifted to the right. -/
theorem shifted (fine : t.Intrinsic lo' hi' q) (coarse : (t.atPoint p).Intrinsic lo hi p)
    (apart : q.toNat = p.toNat + n.toNat) : lo = lo' / 2 ^ n.toNat ∧ hi = hi' / 2 ^ n.toNat := by
  obtain ⟨f, g, q', lower, upper, point, rfl, rfl⟩ := encodings?_eq_some_iff.mp fine.ends
  cases fine.point.symm.trans point
  obtain ⟨f', g', _, lower', upper', ⟨⟩, rfl, rfl⟩ := encodings?_eq_some_iff.mp coarse.ends
  cases lower.symm.trans lower'
  cases upper.symm.trans upper'
  rw [apart, f.scaledFloor_shifted, g.scaledFloor_shifted]
  exact ⟨rfl, rfl⟩

end Intrinsic

/-- The carrying width in numbers, cut off at the limit. -/
theorem toNat_carrierBits (lo hi : Int) (p : BitCount) :
    (carrierBits lo hi p).toNat
      = min (max (max (signedBits lo) (signedBits hi)) (p.toNat + 1)) BitCount.limit := by
  simp only [carrierBits, signedWidth, BitCount.toNat_max, BitCount.toNat_add,
    BitCount.toNat_ofNat_one, BitCount.toNat_ofNat (signedBits _), ← min_max_distrib_right]

/-- The bits of both encodings, and one above the fractional field, move with the point. -/
theorem carrier_shifted (lo hi : Int) (p n : Nat) :
    max (max (signedBits (lo / 2 ^ n)) (signedBits (hi / 2 ^ n))) (p + 1) + n
      = max (max (signedBits lo) (signedBits hi)) (p + n + 1) := by
  rw [← Nat.add_max_add_right, ← Nat.add_max_add_right, signedBits_shifted, signedBits_shifted]
  omega

/-- A finer point takes as many more bits as it is further to the left. -/
theorem carrierBits_raised {lo hi : Int} {p q n : BitCount} (apart : q.toNat = p.toNat + n.toNat) :
    carrierBits (lo / 2 ^ n.toNat) (hi / 2 ^ n.toNat) p + n = carrierBits lo hi q := by
  refine BitCount.ext ?_
  rw [BitCount.toNat_add, toNat_carrierBits, toNat_carrierBits, apart, ← carrier_shifted]
  generalize max (max _ _) (p.toNat + 1) = bits
  omega

/-- A coarser point takes as many fewer, unless bits were cut off. -/
theorem carrierBits_lowered {lo hi : Int} {p q n : BitCount} (apart : q.toNat = p.toNat + n.toNat)
    (uncut : (carrierBits lo hi q).toNat < BitCount.limit) :
    max (carrierBits lo hi q - n) (.ofNat 1)
      = carrierBits (lo / 2 ^ n.toNat) (hi / 2 ^ n.toNat) p := by
  have field := le_max_right (max (signedBits (lo / 2 ^ n.toNat)) (signedBits (hi / 2 ^ n.toNat)))
    (p.toNat + 1)
  rw [toNat_carrierBits, apart, ← carrier_shifted] at uncut
  refine BitCount.ext ?_
  rw [BitCount.toNat_max, BitCount.toNat_sub, BitCount.toNat_ofNat_one, toNat_carrierBits,
    toNat_carrierBits, apart, ← carrier_shifted]
  generalize max (max _ _) (p.toNat + 1) = bits at field uncut ⊢
  omega

/-- The range that two ranges make together needs the bits of the wider one. -/
theorem carrierBits_join {la ha lb hb : Int} (p : BitCount) (left : la ≤ ha) (right : lb ≤ hb) :
    max (carrierBits la ha p) (carrierBits lb hb p) = carrierBits (min la lb) (max ha hb) p := by
  have inside {v : Int} (low : min la lb ≤ v) (high : v ≤ max ha hb) :
      signedBits v ≤ max (signedBits (min la lb)) (signedBits (max ha hb)) :=
    signedBits_le_of_between low high
  have low : signedBits (min la lb) ≤ max (signedBits la) (signedBits lb) := by
    rcases min_choice la lb with same | same <;> rw [same]
    · exact le_max_left _ _
    · exact le_max_right _ _
  have high : signedBits (max ha hb) ≤ max (signedBits ha) (signedBits hb) := by
    rcases max_choice ha hb with same | same <;> rw [same]
    · exact le_max_left _ _
    · exact le_max_right _ _
  have ends : max (max (signedBits la) (signedBits ha)) (max (signedBits lb) (signedBits hb))
      = max (signedBits (min la lb)) (signedBits (max ha hb)) := by
    apply le_antisymm
    · exact max_le
        (max_le (inside (min_le_left la lb) (by omega)) (inside (by omega) (le_max_left ha hb)))
        (max_le (inside (min_le_right la lb) (by omega)) (inside (by omega) (le_max_right ha hb)))
    · rw [max_max_max_comm]
      exact max_le_max low high
  refine BitCount.ext ?_
  rw [BitCount.toNat_max, toNat_carrierBits, toNat_carrierBits, toNat_carrierBits, ← ends,
    ← min_max_distrib_right, ← sup_sup_distrib_right]

/-- The least interval that holds two others, at the finer of their points. -/
inductive Joins (t a b : Interval) : Prop where
  | intro {p q : BitCount} {la ha lb hb : Int} (left : a.point = .known p)
    (right : b.point = .known q) (leftEnds : (a.atPoint (max p q)).encodings? = some (la, ha))
    (rightEnds : (b.atPoint (max p q)).encodings? = some (lb, hb)) (leftOrdered : la ≤ ha)
    (rightOrdered : lb ≤ hb) (spans : t.Intrinsic (min la lb) (max ha hb) (max p q)) : Joins t a b

end Interval

namespace Expr

/-- An aligned expression of that interval type, whose settled width is that of the lowered type. -/
def Carried (s : Scope) (a : Expr) (t : Interval) : Prop :=
  ∃ lo hi p, a.ty = .interval t ∧ t.Intrinsic lo hi p ∧
    a.settledWidth s = Interval.carrierBits lo hi p

/-- The integer type of a carried interval is as wide as inference settles. -/
theorem Carried.lowered {s : Scope} {a : Expr} {t : Interval} (carried : a.Carried s t) :
    t.lowered = .ok (.sint (.known (a.settledWidth s))) := by
  obtain ⟨lo, hi, p, -, spans, width⟩ := carried
  rw [width]
  exact spans.lowered

theorem Carried.hasPoint {s : Scope} {a : Expr} {t : Interval} {p : BitCount}
    (carried : a.Carried s t) (point : t.point = .known p) : a.ty.HasPoint p := by
  obtain ⟨_, _, _, ty, -, -⟩ := carried
  exact ⟨t, ty, point⟩

/-- Moving the point keeps the width that of the type, as long as a width that loses bits was not
cut off. -/
theorem Carried.rescaled {s : Scope} {a a' : Expr} {t : Interval} {target : BitCount}
    (carried : a.Carried s t) (moved : Rescaled target a a')
    (uncut : (∃ p, t.point = .known p ∧ p ≤ target) ∨
      ∀ ty, t.lowered = .ok ty → ty.Unsaturated) :
    a'.Carried s (t.atPoint target) := by
  have lowered := carried.lowered
  obtain ⟨lo, hi, p, ty, spans, width⟩ := carried
  obtain ⟨lo', hi', spans'⟩ := spans.atPoint target
  cases moved with
  | same recorded =>
    rw [ty, Ty.hasPoint_interval_iff] at recorded
    cases spans.point.symm.trans recorded
    rw [spans.atPoint_self]
    exact ⟨lo, hi, _, ty, spans, width⟩
  | @moved t' p' ty' point apart =>
    cases ty.symm.trans ty'
    cases spans.point.symm.trans point
    refine ⟨lo', hi', target, rfl, spans', ?_⟩
    rcases Nat.lt_or_gt_of_ne fun same => apart (BitCount.ext same) with below | above
    · have amount : target.toNat = p.toNat + (target - p).toNat := by
        rw [BitCount.toNat_sub]
        omega
      have back : ((t.atPoint target).atPoint p).Intrinsic lo hi p := by
        rw [Interval.atPoint_atPoint, spans.atPoint_self]
        exact spans
      obtain ⟨rfl, rfl⟩ := spans'.shifted back amount
      rw [rescaleStep, if_pos (BitCount.lt_iff.mpr below)]
      simp only [settledWidth, Int.toNat_natCast, BitCount.ofNat_toNat, width]
      exact Interval.carrierBits_raised amount
    · have amount : p.toNat = target.toNat + (p - target).toNat := by
        rw [BitCount.toNat_sub]
        omega
      have below : (Interval.carrierBits lo hi p).toNat < BitCount.limit := by
        rcases uncut with ⟨q, point', raised⟩ | uncut
        · cases point.symm.trans point'
          exact (Nat.not_le.mpr above raised).elim
        · exact Ty.unsaturated_sint_iff.mp (uncut _ spans.lowered)
      obtain ⟨rfl, rfl⟩ := spans.shifted spans' amount
      rw [rescaleStep, if_neg (by rw [BitCount.lt_iff]; omega)]
      simp only [settledWidth, Int.toNat_natCast, BitCount.ofNat_toNat, width]
      exact Interval.carrierBits_lowered amount below

/-- Nestings of declared names, settings of the point and selections, with coherent recorded types:
each name at the type that its declaration is lowered from, a moved value with its bounds kept, and
a selection in the least range that holds both branches. -/
inductive Positioned (s : Scope) : Expr → Interval → Prop where
  | ref {name : String} {t : Interval} {w : BitCount}
    (declared : s.lookup name = some (.sint (.known w)))
    (lowers : t.lowered = .ok (.sint (.known w)))
    (width : t.width = Interval.intrinsicWidth t.lower t.upper t.point) :
    Positioned s (.ref name (.interval t)) t
  | setp {a : Expr} {t : Interval} {p : BitCount} {consts : List Int} (arg : Positioned s a t)
    (amount : consts.head?.bind BitCount.ofInt? = some p)
    (uncut : ∀ ty, t.lowered = .ok ty → ty.Unsaturated) :
    Positioned s (.prim .setp [a] consts (.interval (t.atPoint p))) (t.atPoint p)
  | mux {c a b : Expr} {t ta tb : Interval} (left : Positioned s a ta) (right : Positioned s b tb)
    (joins : t.Joins ta tb) : Positioned s (.mux c a b (.interval t)) t

/-- The settled width of such an expression is that of its lowered type. -/
theorem Positioned.carried {s : Scope} {e a : Expr} {t : Interval} (positioned : e.Positioned s t)
    (done : e.align.outcome = .ok a) : a.Carried s t := by
  induction positioned generalizing a with
  | @ref name t w declared lowers width =>
    obtain ⟨node, ⟨⟩, aligned⟩ := align_eq_ok_iff.mp done
    cases aligned with
    | other =>
      obtain ⟨⟨lo, hi⟩, p, _, ends, point, -⟩ := Interval.lowered_eq_ok_iff.mp lowers
      have spans : t.Intrinsic lo hi p := ⟨point, ends, width⟩
      cases lowers.symm.trans spans.lowered
      refine ⟨lo, hi, p, rfl, spans, ?_⟩
      simp only [settledWidth, declared]
  | setp _ amount uncut ih =>
    obtain ⟨a', p', arg, amount', moved⟩ := align_setp_eq_ok done
    cases amount.symm.trans amount'
    exact (ih arg).rescaled moved (.inr uncut)
  | mux _ _ joins leftIh rightIh =>
    obtain ⟨_, rebuilt, aligned⟩ := align_eq_ok_iff.mp done
    cases rebuilt with
    | mux _ _ left right =>
      cases aligned with
      | select _ _ leftAt rightAt tmoved fmoved =>
        obtain ⟨leftPoint, rightPoint, leftEnds, rightEnds, leftOrdered, rightOrdered, spans⟩ :=
          joins
        have leftCarried := leftIh left
        have rightCarried := rightIh right
        cases leftAt.unique (leftCarried.hasPoint leftPoint)
        cases rightAt.unique (rightCarried.hasPoint rightPoint)
        obtain ⟨la, ha, _, -, leftSpans, leftWidth⟩ := leftCarried.rescaled tmoved
          (.inl ⟨_, leftPoint, BitCount.le_max_left _ _⟩)
        obtain ⟨lb, hb, _, -, rightSpans, rightWidth⟩ := rightCarried.rescaled fmoved
          (.inl ⟨_, rightPoint, BitCount.le_max_right _ _⟩)
        cases leftSpans.ends.symm.trans leftEnds
        cases rightSpans.ends.symm.trans rightEnds
        cases leftSpans.point
        cases rightSpans.point
        refine ⟨_, _, _, ?_, spans, ?_⟩
        · rw [spans.atPoint_self]
          rfl
        · simp only [settledWidth, leftWidth, rightWidth]
          exact Interval.carrierBits_join _ leftOrdered rightOrdered
      | other _ unmoved => exact (unmoved trivial).elim

end Expr

end IntervalHdl
