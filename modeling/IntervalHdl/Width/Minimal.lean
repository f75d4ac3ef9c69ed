import IntervalHdl.Width

/-!
# Minimal widths of integers

The least number of bits that hold an integer, in two's complement and unsigned. `signedBits`
and `unsignedBits` count exactly; the widths saturate like every bit count.
-/

namespace IntervalHdl
set_option autoImplicit false

-- powers, of a typed exponent, are the core library's, whatever other instances are in scope
attribute [local instance (high)] instPowNat

/-- The length of `n` in binary; zero has none. -/
def bitLength (n : Nat) : Nat := if n = 0 then 0 else n.log2 + 1

/-- Binary digits suffice for `n` exactly when `n` lies below the power of two they count up to. -/
theorem bitLength_le_iff {n k : Nat} : bitLength n ≤ k ↔ n < 2 ^ k := by
  unfold bitLength
  split
  · rename_i zero
    subst zero
    exact ⟨fun _ => Nat.two_pow_pos k, fun _ => Nat.zero_le k⟩
  · rename_i nonzero
    rw [← Nat.log2_lt nonzero]
    omega

/-- Bits of the shortest two's-complement form of `v`: a sign bit above the binary digits of `v`,
or of `-v - 1` when `v` is negative. -/
def signedBits : Int → Nat
  | .ofNat n => bitLength n + 1
  | .negSucc n => bitLength n + 1

/-- Bits of the shortest unsigned form of the magnitude of `v`; zero takes one. -/
def unsignedBits (v : Int) : Nat := max (bitLength v.natAbs) 1

/-- The least width that holds `v` in two's complement. -/
def signedWidth (v : Int) : BitCount := .ofNat (signedBits v)

/-- The least width that holds `v`, read unsigned. -/
def unsignedWidth (v : Int) : BitCount := .ofNat (unsignedBits v)

/-- There is always the bit of the sign. -/
theorem signedBits_pos (v : Int) : 0 < signedBits v := by
  cases v <;> simp [signedBits]

end IntervalHdl
