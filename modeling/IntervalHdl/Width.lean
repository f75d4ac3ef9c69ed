/-!
# Bit counts and widths

A bit count is a natural number that fits in 32 bits. Its arithmetic saturates: every operation
is the one on natural numbers, cut off at `BitCount.limit`, so a law about bit counts is a law of
`Nat` under `min`. A width is a bit count or unknown, and an unknown operand makes a result
unknown.
-/

namespace IntervalHdl
set_option autoImplicit false

/-- The largest bit count, `2 ^ 32 - 1`. -/
def BitCount.limit : Nat := 4294967295

/-- A number of bits, at most `BitCount.limit`. -/
structure BitCount where
  toNat : Nat
  toNat_le : toNat ≤ BitCount.limit
deriving DecidableEq

namespace BitCount

/-- The bit count nearest to `n`: the limit itself when `n` lies above it. -/
def ofNat (n : Nat) : BitCount := ⟨min n limit, Nat.min_le_right n limit⟩

/-- The bit count `n`, if it is one. -/
def ofNat? (n : Nat) : Option BitCount :=
  if h : n ≤ limit then some ⟨n, h⟩ else none

/-- The bit count `v`, if it is one. -/
def ofInt? (v : Int) : Option BitCount :=
  if v < 0 then none else ofNat? v.toNat

instance : Max BitCount := ⟨fun a b => if a.toNat ≤ b.toNat then b else a⟩
instance : Min BitCount := ⟨fun a b => if a.toNat ≤ b.toNat then a else b⟩
instance : Add BitCount := ⟨fun a b => ofNat (a.toNat + b.toNat)⟩
instance : Sub BitCount := ⟨fun a b => ofNat (a.toNat - b.toNat)⟩
instance : LT BitCount := ⟨fun a b => a.toNat < b.toNat⟩
instance : LE BitCount := ⟨fun a b => a.toNat ≤ b.toNat⟩
instance (a b : BitCount) : Decidable (a < b) := inferInstanceAs (Decidable (a.toNat < b.toNat))
instance (a b : BitCount) : Decidable (a ≤ b) := inferInstanceAs (Decidable (a.toNat ≤ b.toNat))

@[ext] theorem ext {a b : BitCount} (h : a.toNat = b.toNat) : a = b := by
  cases a; cases b; simp_all

@[simp] theorem toNat_ofNat (n : Nat) : (ofNat n).toNat = min n limit := rfl

@[simp] theorem ofNat_toNat (a : BitCount) : ofNat a.toNat = a :=
  ext (Nat.min_eq_left a.toNat_le)

/-- The greater of two bit counts, as numbers. -/
@[simp] theorem toNat_max (a b : BitCount) : (max a b).toNat = max a.toNat b.toNat := by
  show (if a.toNat ≤ b.toNat then b else a).toNat = _
  split <;> omega

/-- The lesser of two bit counts, as numbers. -/
@[simp] theorem toNat_min (a b : BitCount) : (min a b).toNat = min a.toNat b.toNat := by
  show (if a.toNat ≤ b.toNat then a else b).toNat = _
  split <;> omega

/-- A sum is cut off at the limit. -/
@[simp] theorem toNat_add (a b : BitCount) : (a + b).toNat = min (a.toNat + b.toNat) limit := rfl

/-- A difference of bit counts is that of natural numbers, never below zero. -/
@[simp] theorem toNat_sub (a b : BitCount) : (a - b).toNat = a.toNat - b.toNat :=
  Nat.min_eq_left (Nat.le_trans (Nat.sub_le _ _) a.toNat_le)

theorem lt_iff {a b : BitCount} : a < b ↔ a.toNat < b.toNat := Iff.rfl

theorem le_iff {a b : BitCount} : a ≤ b ↔ a.toNat ≤ b.toNat := Iff.rfl

theorem le_refl (a : BitCount) : a ≤ a := Nat.le_refl a.toNat

theorem le_max_left (a b : BitCount) : a ≤ max a b := by
  simp only [le_iff, toNat_max]
  omega

theorem le_max_right (a b : BitCount) : b ≤ max a b := by
  simp only [le_iff, toNat_max]
  omega

theorem min_le_right (a b : BitCount) : min a b ≤ b := by
  simp only [le_iff, toNat_min]
  omega

theorem max_eq_left {a b : BitCount} (below : b ≤ a) : max a b = a := by
  rw [le_iff] at below
  exact ext (by simp only [toNat_max]; omega)

theorem max_eq_right {a b : BitCount} (below : a ≤ b) : max a b = b := by
  rw [le_iff] at below
  exact ext (by simp only [toNat_max]; omega)

/-- A natural number is read as the bit count that it is. -/
theorem ofNat?_eq_some_iff {n : Nat} {a : BitCount} : ofNat? n = some a ↔ a.toNat = n := by
  simp only [ofNat?]
  split
  · simp only [Option.some.injEq]
    exact ⟨fun h => h ▸ rfl, fun h => ext h.symm⟩
  · rename_i large
    simp only [reduceCtorEq, false_iff]
    exact fun h => large (h ▸ a.toNat_le)

/-- An integer is read as the bit count that it is, a negative one as none. -/
theorem ofInt?_eq_some_iff {v : Int} {a : BitCount} : ofInt? v = some a ↔ (a.toNat : Int) = v := by
  simp only [ofInt?]
  split
  · simp only [reduceCtorEq, false_iff]; omega
  · rw [ofNat?_eq_some_iff]; omega

end BitCount

/-- A width in bits, or unknown. -/
inductive Width where
  | known (bits : BitCount)
  | unknown
deriving DecidableEq

namespace Width

/-- The number of bits, if known. -/
def bits? : Width → Option BitCount
  | .known n => some n
  | .unknown => none

/-- Holds of a known width. -/
def isKnown : Width → Bool
  | .known _ => true
  | .unknown => false

/-- Applies `f` to a known width. -/
def map (f : BitCount → BitCount) : Width → Width
  | .known n => .known (f n)
  | .unknown => .unknown

/-- Joins two known widths by `f`. -/
def combine (f : BitCount → BitCount → BitCount) : Width → Width → Width
  | .known a, .known b => .known (f a b)
  | _, _ => .unknown

/-- The wider of two widths. -/
def max (a b : Width) : Width := combine Max.max a b

/-- The narrower of two widths. -/
def min (a b : Width) : Width := combine Min.min a b

/-- The two widths side by side. -/
def sum (a b : Width) : Width := combine (· + ·) a b

/-- Wider by `n` bits. -/
def plus (a : Width) (n : BitCount) : Width := a.map (· + n)

/-- Narrower by `n` bits, but never below one bit. -/
def minus (a : Width) (n : BitCount) : Width := a.map fun w => Max.max (w - n) (.ofNat 1)

/-- A width is known when it is some bit count. -/
theorem isKnown_iff {w : Width} : w.isKnown = true ↔ ∃ n, w = .known n := by
  cases w <;> simp [isKnown]

theorem bits?_eq_some_iff {w : Width} {n : BitCount} : w.bits? = some n ↔ w = .known n := by
  cases w <;> simp [bits?]

@[simp] theorem max_known (a b : BitCount) : max (.known a) (.known b) = .known (Max.max a b) := rfl

@[simp] theorem min_known (a b : BitCount) : min (.known a) (.known b) = .known (Min.min a b) := rfl

@[simp] theorem sum_known (a b : BitCount) : sum (.known a) (.known b) = .known (a + b) := rfl

@[simp] theorem plus_known (a n : BitCount) : plus (.known a) n = .known (a + n) := rfl

@[simp] theorem minus_known (a n : BitCount) :
    minus (.known a) n = .known (Max.max (a - n) (.ofNat 1)) := rfl

/-- A combined width is known exactly when both its operands are. -/
theorem combine_eq_known_iff {f : BitCount → BitCount → BitCount} {a b : Width} {n : BitCount} :
    combine f a b = .known n ↔ ∃ x y, a = .known x ∧ b = .known y ∧ f x y = n := by
  cases a <;> cases b <;> simp [combine]

/-- A changed width is known exactly when the width is. -/
theorem map_eq_known_iff {f : BitCount → BitCount} {a : Width} {n : BitCount} :
    a.map f = .known n ↔ ∃ x, a = .known x ∧ f x = n := by
  cases a <;> simp [map]

end Width

end IntervalHdl
