import IntervalHdl.Proofs.Removal.FloorModulo

/-!
# The least width of a range

An interval type is lowered to the least width, not below one bit above the fractional field, in
which every encoding of its range has two's-complement form (`Interval.isLeast_width_lowered`). A
width holds the range when it holds both ends, and it holds an end from its shortest form on; the
field is where the least width can be more than the ends need.
-/

namespace IntervalHdl
set_option autoImplicit false

/-- A number fits in some bits exactly when its shortest form is no longer. -/
theorem fitsSigned_iff_signedBits_le {v : Int} {n : Nat} (some_bits : 0 < n) :
    FitsSigned n v ↔ signedBits v ≤ n := by
  obtain ⟨m, rfl⟩ := Nat.exists_eq_add_of_lt some_bits
  rw [Nat.zero_add, signedBits_le_succ_iff, FitsSigned, pow_succ]
  omega

namespace Interval

/-- The interval has those known bounds and that point, and is as it was constructed: from bounds
and point, or from another interval moved to the point. -/
inductive Built (lo hi : Fraction) (p : BitCount) : Interval → Prop where
  | of : Built lo hi p (.of (.known lo) (.known hi) (.known p))
  | atPoint {u : Interval} (lower : u.lower = .known lo) (upper : u.upper = .known hi) :
    Built lo hi p (u.atPoint p)

namespace Built

variable {t : Interval} {lo hi : Fraction} {p : BitCount}

/-- A constructed interval is its bounds at its point. -/
theorem eq_of (built : t.Built lo hi p) : t = .of (.known lo) (.known hi) (.known p) := by
  cases built with
  | of => rfl
  | atPoint lower upper => rw [Interval.atPoint, lower, upper]

/-- A constructed interval is at its intrinsic width. -/
theorem intrinsic (built : t.Built lo hi p) :
    t.Intrinsic (lo.scaledFloor p.toNat) (hi.scaledFloor p.toNat) p :=
  built.eq_of ▸ ⟨rfl, rfl, rfl⟩

theorem lowest?_eq (built : t.Built lo hi p) : t.lowest? = some (lo.scaledFloor p.toNat) :=
  built.eq_of ▸ rfl

theorem highest?_eq (built : t.Built lo hi p) : t.highest? = some (hi.scaledFloor p.toNat) :=
  built.eq_of ▸ rfl

end Built

/-- That many bits carry every encoding of the range from `lo` to `hi`, with one above the `p` bits
of the fractional field. -/
structure Carries (lo hi : Int) (p n : Nat) : Prop where
  field : p + 1 ≤ n
  fits : ∀ v, lo ≤ v → v ≤ hi → FitsSigned n v

/-- A range is carried by what carries its ends. -/
theorem carries_iff {lo hi : Int} {p n : Nat} (ordered : lo ≤ hi) :
    Carries lo hi p n ↔ max (max (signedBits lo) (signedBits hi)) (p + 1) ≤ n := by
  rw [max_le_iff, max_le_iff]
  constructor
  · rintro ⟨field, fits⟩
    have some_bits : 0 < n := by omega
    have low := (fitsSigned_iff_signedBits_le some_bits).mp (fits lo le_rfl ordered)
    have high := (fitsSigned_iff_signedBits_le some_bits).mp (fits hi ordered le_rfl)
    exact ⟨⟨low, high⟩, field⟩
  · rintro ⟨⟨low, high⟩, field⟩
    have some_bits : 0 < n := by omega
    have lowFits := (fitsSigned_iff_signedBits_le some_bits).mpr low
    have highFits := (fitsSigned_iff_signedBits_le some_bits).mpr high
    exact ⟨field, fun v above below => lowFits.between highFits above below⟩

/-- A range whose ends fit in fewer than `2 ^ 32` bits has its least carrier as the recorded
width. -/
theorem isLeast_carrierBits {lo hi : Int} {p : BitCount} {n : Nat} (ordered : lo ≤ hi)
    (point : p.toNat < BitCount.limit) (small : n < 2 ^ 32) (low : FitsSigned n lo)
    (high : FitsSigned n hi) :
    IsLeast {n | Carries lo hi p.toNat n} (carrierBits lo hi p).toNat := by
  have counted : signedBits lo ≤ BitCount.limit ∧ signedBits hi ≤ BitCount.limit := by
    have within : n ≤ BitCount.limit := Nat.le_of_lt_succ small
    have some_bits : 0 < BitCount.limit := by decide
    exact ⟨(fitsSigned_iff_signedBits_le some_bits).mp (low.mono within),
      (fitsSigned_iff_signedBits_le some_bits).mp (high.mono within)⟩
  -- Neither the ends nor the field go past the limit of bit counts, so nothing was cut off.
  have exact_bits : (carrierBits lo hi p).toNat
      = max (max (signedBits lo) (signedBits hi)) (p.toNat + 1) := by
    rw [toNat_carrierBits]
    omega
  rw [exact_bits]
  exact ⟨(carries_iff ordered).mpr le_rfl, fun n carries => (carries_iff ordered).mp carries⟩

/-- The lowered width of a constructed interval is the least that carries its encodings: the
integers from the floor of its scaled lower bound to that of its scaled upper bound. -/
theorem isLeast_width_lowered {t : Interval} {lo hi : Fraction} {p : BitCount} {n : Nat}
    (built : t.Built lo hi p) (ordered : lo.toRat ≤ hi.toRat) (point : p.toNat < BitCount.limit)
    (small : n < 2 ^ 32) (low : FitsSigned n ⌊lo.toRat * 2 ^ p.toNat⌋)
    (high : FitsSigned n ⌊hi.toRat * 2 ^ p.toNat⌋) :
    t.lowest? = some ⌊lo.toRat * 2 ^ p.toNat⌋ ∧ t.highest? = some ⌊hi.toRat * 2 ^ p.toNat⌋ ∧
      ∃ w, t.lowered = .ok (.sint (.known w)) ∧
        IsLeast {n | Carries ⌊lo.toRat * 2 ^ p.toNat⌋ ⌊hi.toRat * 2 ^ p.toNat⌋ p.toNat n}
          w.toNat := by
  rw [← lo.scaledFloor_eq_floor] at low ⊢
  rw [← hi.scaledFloor_eq_floor] at high ⊢
  have ends : lo.scaledFloor p.toNat ≤ hi.scaledFloor p.toNat :=
    Fraction.scaledFloor_le_scaledFloor ordered p.toNat
  exact ⟨built.lowest?_eq, built.highest?_eq, _, built.intrinsic.lowered,
    isLeast_carrierBits ends point small low high⟩

/-- From -9/8 to 1/2 at two fractional bits, the encodings go from -5 to 2 and take four bits. -/
theorem isLeast_width_lowered_eighths :
    let lo : Fraction := ⟨-9, 8, by decide⟩
    let hi : Fraction := ⟨1, 2, by decide⟩
    let t : Interval := .of (.known lo) (.known hi) (.known (.ofNat 2))
    t.lowest? = some (-5) ∧ t.highest? = some 2 ∧ t.lowered = .ok (.sint (.known (.ofNat 4))) ∧
      IsLeast {n | Carries (-5) 2 2 n} 4 := by
  intro lo hi t
  have low_floor : ⌊lo.toRat * 2 ^ 2⌋ = -5 := (lo.scaledFloor_eq_floor 2).symm
  have high_floor : ⌊hi.toRat * 2 ^ 2⌋ = 2 := (hi.scaledFloor_eq_floor 2).symm
  have ordered : lo.toRat ≤ hi.toRat := by norm_num [lo, hi, Fraction.toRat]
  have point : (BitCount.ofNat 2).toNat = 2 := by decide
  have least := isLeast_width_lowered (t := t) (n := 4) .of ordered (by decide) (by decide)
    (by rw [point, low_floor]; decide) (by rw [point, high_floor]; decide)
  rw [point, low_floor, high_floor] at least
  obtain ⟨lowest, highest, w, lowered, least⟩ := least
  have width : t.lowered = .ok (.sint (.known (.ofNat 4))) := rfl
  cases lowered.symm.trans width
  exact ⟨lowest, highest, width, least⟩

end Interval

end IntervalHdl
