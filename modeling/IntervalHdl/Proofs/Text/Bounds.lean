import IntervalHdl.Text
import IntervalHdl.Proofs.Meaning

/-!
# The text of a bound is its number

A reader of numbers, written without regard to how they are printed, gets back from the text of a
bound the rational that it stands for. The digits of a decimal are those of one natural number, cut
at the point, so both sides come down to what a list of digits spells (`Spells`) and how that
divides over a cut (`Spells.cut`). What is read determines a fraction in lowest terms, so no two
bounds share a text.
-/

namespace IntervalHdl
set_option autoImplicit false

namespace Decimal

/-! ## Reading numbers -/

/-- The number that the characters spell: at least one digit, and nothing but digits. -/
def natural? (cs : List Char) : Option Nat :=
  if cs ≠ [] ∧ cs.all Char.isDigit then some (Nat.ofDigitChars 10 cs 0) else none

/-- The number without a sign that the characters spell: digits alone, digits on both sides of a
point, or digits over digits. -/
def unsigned? (cs : List Char) : Option ℚ := do
  let whole ← natural? (cs.takeWhile Char.isDigit)
  match cs.dropWhile Char.isDigit with
  | [] => return whole
  | '.' :: places => do
    let part ← natural? places
    return whole + part / 10 ^ places.length
  | '/' :: den => do
    let den ← natural? den
    if den = 0 then none else return whole / den
  | _ => none

/-- The number that the characters spell, behind a minus sign or none. -/
def number? : List Char → Option ℚ
  | '-' :: cs => (unsigned? cs).map (- ·)
  | cs => unsigned? cs

/-- The characters are digits, at least one, of that number. -/
structure Spells (cs : List Char) (n : Nat) : Prop where
  nonempty : cs ≠ []
  digits : ∀ c ∈ cs, c.isDigit = true
  value : Nat.ofDigitChars 10 cs 0 = n

/-- A list of digits is read as the number that it spells. -/
theorem natural?_eq_some_iff {cs : List Char} {n : Nat} : natural? cs = some n ↔ Spells cs n := by
  unfold natural?
  rw [Option.ite_none_right_eq_some, List.all_eq_true, Option.some.injEq]
  exact ⟨fun ⟨⟨nonempty, digits⟩, value⟩ => ⟨nonempty, digits, value⟩,
    fun ⟨nonempty, digits, value⟩ => ⟨⟨nonempty, digits⟩, value⟩⟩

section Reading

variable {whole places num den : List Char} {n m : Nat}

/-- Digits are taken up to the first character that is none. -/
theorem Spells.span (spells : Spells whole n) (rest : List Char)
    (ends : ∀ c ∈ rest.head?, c.isDigit = false) :
    (whole ++ rest).takeWhile Char.isDigit = whole ∧
      (whole ++ rest).dropWhile Char.isDigit = rest := by
  rw [List.takeWhile_append_of_pos spells.digits, List.dropWhile_append_of_pos spells.digits]
  cases rest with
  | nil => simp
  | cons c rest => simp [ends c rfl]

/-- Digits alone are read as a whole number. -/
theorem unsigned?_whole (spells : Spells whole n) : unsigned? whole = some (n : ℚ) := by
  obtain ⟨taken, dropped⟩ := spells.span [] nofun
  rw [List.append_nil] at taken dropped
  rw [unsigned?, taken, dropped, natural?_eq_some_iff.mpr spells]
  rfl

/-- Digits behind a point are read as so many of the places' unit. -/
theorem unsigned?_decimal (spells : Spells whole n) (behind : Spells places m) :
    unsigned? (whole ++ '.' :: places) = some (n + m / 10 ^ places.length : ℚ) := by
  obtain ⟨taken, dropped⟩ := spells.span ('.' :: places) (by simp)
  rw [unsigned?, taken, dropped, natural?_eq_some_iff.mpr spells]
  simp [natural?_eq_some_iff.mpr behind]

/-- Digits around a bar are read as a quotient. -/
theorem unsigned?_quotient (spells : Spells num n) (below : Spells den m) (nonzero : m ≠ 0) :
    unsigned? (num ++ '/' :: den) = some (n / m : ℚ) := by
  obtain ⟨taken, dropped⟩ := spells.span ('/' :: den) (by simp)
  rw [unsigned?, taken, dropped, natural?_eq_some_iff.mpr spells]
  simp [natural?_eq_some_iff.mpr below, nonzero]

/-- A sign is read as one, since no digit is a minus. -/
theorem number?_sign (spells : Spells whole n) (negative : Bool) (rest : List Char) :
    number? (sign negative ++ (whole ++ rest)) =
      (unsigned? (whole ++ rest)).map fun q => if negative then -q else q := by
  cases negative with
  | true => rfl
  | false =>
    obtain ⟨c, cs, rfl⟩ := List.exists_cons_of_ne_nil spells.nonempty
    have digit : c ≠ '-' := by
      rintro rfl
      exact absurd (spells.digits '-' List.mem_cons_self) (by decide)
    simp [sign, number?, digit]

end Reading

/-! ## Printing numbers -/

/-- The digits of a number spell it. -/
theorem spells_digits (n : Nat) : Spells (digits n) n where
  nonempty := Nat.toDigits_ne_nil
  digits _ found := Nat.isDigit_of_mem_toDigits (by decide) (by decide) found
  value := Nat.ofDigitChars_ten_toDigits

/-- Zeros in front of the digits change nothing in what they spell. -/
theorem spells_padded (least n : Nat) : Spells (padded least n) n where
  nonempty := by simp [padded, (spells_digits n).nonempty]
  digits c found := by
    rcases List.mem_append.mp found with zero | digit
    · rw [(List.mem_replicate.mp zero).2]
      rfl
    · exact (spells_digits n).digits c digit
  value := by
    rw [padded, Nat.ofDigitChars_append, Nat.ofDigitChars_replicate_zero, Nat.mul_zero]
    exact (spells_digits n).value

/-- Digits cut in two spell the number between them, the front scaled by the places behind it. -/
theorem Spells.cut {front back : List Char} {n : Nat} (spells : Spells (front ++ back) n)
    (before : front ≠ []) (behind : back ≠ []) :
    ∃ w p, Spells front w ∧ Spells back p ∧ n = 10 ^ back.length * w + p := by
  refine ⟨_, _, ⟨before, fun c found => spells.digits c (List.mem_append_left _ found), rfl⟩,
    ⟨behind, fun c found => spells.digits c (List.mem_append_right _ found), rfl⟩, ?_⟩
  rw [← spells.value, Nat.ofDigitChars_append, Nat.ofDigitChars_eq_ofDigitChars_zero]

/-- A decimal with some places is made of digits on both sides of the point, exactly as many behind
it, that spell `n / 10 ^ places`. -/
theorem fixed_eq {places : Nat} (pos : 0 < places) (n : Nat) :
    ∃ front back w p, fixed places n = front ++ '.' :: back ∧ back.length = places ∧
      Spells front w ∧ Spells back p ∧ n = 10 ^ places * w + p := by
  have long := length_padded (places + 1) n
  have spells := spells_padded (places + 1) n
  rw [← List.take_append_drop ((padded (places + 1) n).length - places) (padded (places + 1) n)]
    at spells
  have length : ((padded (places + 1) n).drop ((padded (places + 1) n).length - places)).length
      = places := by
    rw [List.length_drop]
    omega
  obtain ⟨w, p, front, back, value⟩ := spells.cut
    (List.ne_nil_of_length_pos (by rw [List.length_take]; omega))
    (List.ne_nil_of_length_pos (by rw [length]; exact pos))
  rw [length] at value
  exact ⟨_, _, w, p, rfl, length, front, back, value⟩

/-- A share of the magnitude behind the sign of a number is that share of the number. -/
theorem signed_natAbs (v : Int) (q : ℚ) :
    (if decide (v < 0) then -((v.natAbs : ℚ) / q) else (v.natAbs : ℚ) / q) = v / q := by
  by_cases negative : v < 0
  · rw [if_pos (decide_eq_true negative), Nat.cast_natAbs, abs_of_neg negative, Int.cast_neg,
      neg_div, neg_neg]
  · rw [if_neg (by simpa using negative), Nat.cast_natAbs, abs_of_nonneg (Int.not_lt.mp negative)]

/-- Binary places are as many decimal ones, of the number that a power of five makes larger. -/
theorem decimal_of_binary {n k w p : Nat} (scaled : n * 5 ^ k = 10 ^ k * w + p) :
    (w + p / 10 ^ k : ℚ) = n / 2 ^ k := by
  have split : (n * 5 ^ k : ℚ) = 10 ^ k * w + p := by exact_mod_cast scaled
  have tens : (10 : ℚ) ^ k = 2 ^ k * 5 ^ k := by
    rw [← mul_pow]
    norm_num
  calc (w + p / 10 ^ k : ℚ) = (10 ^ k * w + p) / 10 ^ k := by field_simp
    _ = n * 5 ^ k / (2 ^ k * 5 ^ k) := by rw [← split, tens]
    _ = n / 2 ^ k := mul_div_mul_right _ _ (by positivity)

/-! ## Fractions -/

/-- The form in which a fraction is written. -/
inductive Written (f : Fraction) : List Char → Prop where
  | integer {negative : Bool} {whole : List Char} {w : Nat} (den : f.den = 1)
    (spells : Spells whole w) : Written f (sign negative ++ whole)
  | decimal {negative : Bool} {whole places : List Char} {w p : Nat} (proper : f.den ≠ 1)
    (den : f.den = 2 ^ places.length) (spells : Spells whole w) (behind : Spells places p) :
    Written f (sign negative ++ whole ++ '.' :: places)
  | quotient {negative : Bool} {num den : List Char} {n d : Nat} (other : ∀ k : Nat, f.den ≠ 2 ^ k)
    (spells : Spells num n) (below : Spells den d)
    (isNum : f.num = if negative then -(n : Int) else n) (isDen : f.den = d) :
    Written f (sign negative ++ num ++ '/' :: den)

/-- A whole number is written without a point, and read back. -/
theorem ofFraction_whole {f : Fraction} (den : f.den = 1) :
    number? (ofFraction f) = some f.toRat ∧ Written f (ofFraction f) := by
  have spells := spells_digits f.num.natAbs
  have text : ofFraction f = sign (f.num < 0) ++ (digits f.num.natAbs ++ []) := by
    simp [ofFraction, den, ofInt]
  constructor
  · rw [text, number?_sign spells, List.append_nil, unsigned?_whole spells, Option.map_some,
      Fraction.toRat, den, ← signed_natAbs]
    simp
  · rw [text, List.append_nil]
    exact .integer den spells

/-- A dyadic fraction is written with one digit for each halving, and read back. -/
theorem ofFraction_decimal {f : Fraction} {k : Nat} (proper : f.den ≠ 1) (den : f.den = 2 ^ k) :
    number? (ofFraction f) = some f.toRat ∧ Written f (ofFraction f) := by
  have pos : 0 < k := by
    refine Nat.pos_of_ne_zero ?_
    rintro rfl
    exact proper den
  have power : log2? f.den.natAbs = some k := by
    rw [log2?_eq_some_iff, den]
    exact Int.natAbs_pow 2 k
  have negative : f.num * f.den < 0 ↔ f.num < 0 := by
    rw [← not_le, mul_nonneg_iff_of_pos_right (den ▸ by positivity), not_le]
  obtain ⟨front, back, w, p, text, length, spells, behind, value⟩ :=
    fixed_eq pos (f.num.natAbs * 5 ^ k)
  have text : ofFraction f = sign (f.num < 0) ++ (front ++ '.' :: back) := by
    simp only [ofFraction, if_neg proper, power, negative, text]
  constructor
  · rw [text, number?_sign spells, unsigned?_decimal spells behind, Option.map_some, length,
      decimal_of_binary value, signed_natAbs, Fraction.toRat, den]
    norm_cast
  · rw [text, ← List.append_assoc]
    exact .decimal proper (length ▸ den) spells behind

/-- Any other fraction is written as a quotient, and read back. -/
theorem ofFraction_quotient {f : Fraction} (pos : 0 < f.den) (other : ∀ k : Nat, f.den ≠ 2 ^ k) :
    number? (ofFraction f) = some f.toRat ∧ Written f (ofFraction f) := by
  have proper : f.den ≠ 1 := other 0
  have power : log2? f.den.natAbs = none := by
    rw [Option.eq_none_iff_forall_ne_some]
    intro k found
    refine other k ?_
    rw [← Int.natAbs_of_nonneg (Int.le_of_lt pos), log2?_eq_some_iff.mp found]
    norm_cast
  have spells := spells_digits f.num.natAbs
  have below := spells_digits f.den.natAbs
  have text : ofFraction f =
      sign (f.num < 0) ++ (digits f.num.natAbs ++ '/' :: digits f.den.natAbs) := by
    simp [ofFraction, if_neg proper, power, ofInt, sign, Int.not_lt.mpr (Int.le_of_lt pos)]
  constructor
  · rw [text, number?_sign spells, unsigned?_quotient spells below (by omega), Option.map_some,
      signed_natAbs, Nat.cast_natAbs, abs_of_pos pos, Fraction.toRat]
  · rw [text, ← List.append_assoc]
    refine .quotient other spells below ?_ (Int.natAbs_of_nonneg (Int.le_of_lt pos)).symm
    simp only [decide_eq_true_eq]
    split <;> omega

/-- The text of a fraction is read as the fraction, and has the form that its denominator asks
for. -/
theorem ofFraction_exact {f : Fraction} (pos : 0 < f.den) :
    number? (ofFraction f) = some f.toRat ∧ Written f (ofFraction f) := by
  by_cases whole : f.den = 1
  · exact ofFraction_whole whole
  · by_cases power : ∃ k : Nat, f.den = 2 ^ k
    · obtain ⟨k, den⟩ := power
      exact ofFraction_decimal whole den
    · exact ofFraction_quotient pos (not_exists.mp power)

end Decimal

/-- Fractions in lowest terms are equal where their values are. -/
theorem Fraction.eq_of_toRat_eq {a b : Fraction} (ha : a.Reduced) (hb : b.Reduced)
    (same : a.toRat = b.toRat) : a = b := by
  obtain ⟨num, den⟩ := Rat.div_int_inj ha.den_pos hb.den_pos ha.coprime hb.coprime same
  cases a
  cases b
  simp_all

namespace Bound

/-- The bound is open, or in lowest terms. -/
def Reduced : Bound → Prop
  | .known f => f.Reduced
  | .unbounded => True

/-- The text of a reduced bound is read back as the bound. -/
theorem number?_chars {f : Fraction} (reduced : f.Reduced) :
    Decimal.number? (known f).chars = some f.toRat :=
  (Decimal.ofFraction_exact reduced.den_pos).1

/-- The text of a bound reads as its number, so it tells the bounds apart. -/
theorem chars_injective {a b : Bound} (ha : a.Reduced) (hb : b.Reduced)
    (same : a.chars = b.chars) : a = b := by
  have read := congrArg Decimal.number? same
  cases a with
  | unbounded =>
    cases b with
    | unbounded => rfl
    | known g =>
      rw [number?_chars hb] at read
      cases read
  | known f =>
    rw [number?_chars ha] at read
    cases b with
    | unbounded => cases read
    | known g =>
      rw [number?_chars hb, Option.some.injEq] at read
      rw [Fraction.eq_of_toRat_eq ha hb read]

/-- Printed bounds are exact: read as a number, the text of a known bound is the bound, in the form
that its denominator asks for; and different bounds, the open one among them, have different
texts. -/
theorem text_exact :
    (∀ f : Fraction, f.Reduced → Decimal.number? (known f).text.toList = some f.toRat ∧
      Decimal.Written f (known f).text.toList) ∧
    ∀ a b : Bound, a.Reduced → b.Reduced → a ≠ b → a.text ≠ b.text := by
  refine ⟨fun f reduced => ?_, fun a b ha hb differ same => ?_⟩
  · rw [text, String.toList_ofList]
    exact Decimal.ofFraction_exact reduced.den_pos
  · refine differ (chars_injective ha hb ?_)
    simpa only [text, String.ofList_inj] using same

/-- Three sixteenths below zero take four places. -/
theorem text_exact_sixteenths :
    let f : Fraction := ⟨-3, 16, by decide⟩
    f.Reduced ∧ (known f).text = "-0.1875" ∧
      Decimal.number? "-0.1875".toList = some (-3 / 16) ∧
      (known f).text ≠ unbounded.text := by
  intro f
  have reduced : f.Reduced := ⟨by decide, by decide⟩
  have text : (known f).text = "-0.1875" := by decide +kernel
  refine ⟨reduced, text, ?_, text_exact.2 (known f) unbounded reduced trivial nofun⟩
  rw [← text, (text_exact.1 f reduced).1]
  simp [f, Fraction.toRat]

end Bound

end IntervalHdl
