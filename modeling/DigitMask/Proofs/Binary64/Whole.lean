import DigitMask.Proofs.Binary64.Value

/-! Whole binary64 numbers. The floor of a number is exact, and so is the distance from it, but for
numbers that are less than one half below zero; there it is rounded, and stays one half or more.
That makes rounding half up exact, too. -/
namespace DigitMask

variable {q : ℚ}

theorem pow_lt_limit {n : ℕ} (less : n < 1024) : (2 : ℚ) ^ n < 2 ^ 1024 :=
  pow_lt_pow_right₀ one_lt_two less

theorem abs_lt_of_le (small : |q| ≤ 2 ^ 53) : |q| < 2 ^ 1024 :=
  small.trans_lt (pow_lt_limit (by decide))

theorem isBinary_half : IsBinary (1 / 2) := by simpa using isBinary_zpow (e := -1) (by decide)

theorem isBinary_one : IsBinary 1 := by simpa using isBinary_pow 0

theorem IsBinary.whole_of_le (exact : IsBinary q) (large : 2 ^ 52 ≤ |q|) : ∃ k : ℤ, q = k := by
  obtain ⟨k, same⟩ := exact.exists_eq (e := 52) (by decide) (by exact_mod_cast large)
  exact ⟨k, by simpa using same⟩

theorem IsBinary.floor_eq_or (exact : IsBinary q) :
    (⌊q⌋ : ℚ) = q ∨ |⌊q⌋ + 1| ≤ 2 ^ 53 ∧ |⌊q⌋| ≤ 2 ^ 53 := by
  rcases le_or_gt (2 ^ 53) |q| with large | small
  · obtain ⟨k, rfl⟩ := exact.whole_of_le (le_trans (by norm_num) large)
    exact .inl (by rw [Int.floor_intCast])
  · obtain ⟨low, high⟩ := abs_lt.1 small
    have above : ⌊q⌋ < 2 ^ 53 := Int.floor_lt.2 (by exact_mod_cast high)
    have below : -2 ^ 53 ≤ ⌊q⌋ := Int.le_floor.2 (by exact_mod_cast low.le)
    exact .inr ⟨abs_le.2 ⟨by omega, by omega⟩, abs_le.2 ⟨by omega, by omega⟩⟩

theorem IsBinary.floor (exact : IsBinary q) : IsBinary (⌊q⌋ : ℚ) := by
  rcases exact.floor_eq_or with same | ⟨-, small⟩
  · rw [same]; exact exact
  · exact isBinary_intCast small

theorem abs_floor_lt (exact : IsBinary q) (small : |q| < 2 ^ 1024) : |(⌊q⌋ : ℚ)| < 2 ^ 1024 := by
  rcases exact.floor_eq_or with same | ⟨-, bound⟩
  · rw [same]; exact small
  · exact abs_lt_of_le (by exact_mod_cast bound)

/-- The fractional part is a number itself, but for numbers that are less than one half below
zero: it has the bits of the number behind its point and none in front of them. -/
theorem IsBinary.fract (exact : IsBinary q) (side : 0 ≤ q ∨ q ≤ -(1 / 2)) :
    IsBinary (Int.fract q) := by
  rcases le_or_gt (2 ^ (-1 : ℤ)) |q| with large | small
  · obtain ⟨k, same⟩ := exact.exists_eq (by decide) large
    have scaled : Int.fract q = (k - ⌊q⌋ * 2 ^ 53 : ℤ) * 2 ^ (-53 : ℤ) := by
      have numerator : q * 2 ^ 53 = k := by rw [same, mul_assoc]; norm_num
      have inverse : (2 : ℚ) ^ (-53 : ℤ) = 1 / 2 ^ 53 := by norm_num
      rw [Int.fract, Int.cast_sub, ← numerator, inverse]
      push_cast
      ring
    have nonneg := Int.fract_nonneg q
    have less := Int.fract_lt_one q
    rw [scaled] at nonneg less ⊢
    refine isBinary_mul_zpow (abs_le.2 ⟨?_, ?_⟩) (by decide)
    · have : (0 : ℚ) ≤ (k - ⌊q⌋ * 2 ^ 53 : ℤ) := nonneg_of_mul_nonneg_left nonneg (by positivity)
      have : 0 ≤ k - ⌊q⌋ * 2 ^ 53 := by exact_mod_cast this
      omega
    · have : ((k - ⌊q⌋ * 2 ^ 53 : ℤ) : ℚ) < 2 ^ 53 := by
        rw [← mul_lt_mul_iff_of_pos_right (by positivity : (0 : ℚ) < 2 ^ (-53 : ℤ))]
        exact less.trans_le (by norm_num)
      exact_mod_cast this.le
  · rw [zpow_neg_one] at small
    obtain ⟨low, high⟩ := abs_lt.1 small
    have nonneg : 0 ≤ q := side.resolve_right (not_le.2 (by linarith))
    rw [Int.fract_eq_self.2 ⟨nonneg, by linarith⟩]
    exact exact

/-- Where the fractional part is rounded it is above one half, and so is what it is rounded to. -/
theorem half_le_binary_fract_iff (exact : IsBinary q) :
    1 / 2 ≤ binary (Int.fract q) ↔ 1 / 2 ≤ Int.fract q := by
  refine ⟨fun le => ?_, le_binary isBinary_half⟩
  by_cases side : 0 ≤ q ∨ q ≤ -(1 / 2)
  · rwa [(exact.fract side).binary_eq] at le
  · -- Just below zero the floor is one below, and more than a half away.
    rw [not_or, not_le, not_le] at side
    have floor : ⌊q⌋ = -1 :=
      Int.floor_eq_iff.2 ⟨by push_cast; linarith, by push_cast; linarith⟩
    rw [Int.fract, floor]
    push_cast
    linarith

theorem floor_add_half_of_le (up : 1 / 2 ≤ Int.fract q) : ⌊q + 1 / 2⌋ = ⌊q⌋ + 1 := by
  have below := Int.fract_lt_one q
  have sum := Int.floor_add_fract q
  exact Int.floor_eq_iff.2 ⟨by push_cast; linarith, by push_cast; linarith⟩

theorem floor_add_half_of_lt (down : Int.fract q < 1 / 2) : ⌊q + 1 / 2⌋ = ⌊q⌋ := by
  have above := Int.fract_nonneg q
  have sum := Int.floor_add_fract q
  exact Int.floor_eq_iff.2 ⟨by linarith, by linarith⟩

theorem ceil_div (a : ℕ) {b : ℕ} (positive : 0 < b) :
    ⌈(a / b : ℚ)⌉ = ((a + (b - 1)) / b : ℕ) := by
  have size : (0 : ℚ) < b := by exact_mod_cast positive
  have low := Nat.div_mul_le_self (a + (b - 1)) b
  have high := Nat.lt_div_mul_add positive (a := a + (b - 1))
  rw [Int.ceil_eq_iff]
  constructor
  · rw [lt_div_iff₀ size, sub_mul, one_mul, sub_lt_iff_lt_add]
    have : (a + (b - 1)) / b * b < a + b := by omega
    exact_mod_cast this
  · rw [div_le_iff₀ size]
    have : a ≤ (a + (b - 1)) / b * b := by omega
    exact_mod_cast this

namespace Binary64

theorem ofNat_spec {n : ℕ} (small : n ≤ 2 ^ 53) :
    (ofNat n).isFinite = true ∧ (ofNat n).value = n := by
  have size := unit_cast_pos
  have value : (n : ℚ) = ((n * unit : ℕ) : ℚ) / ((1 : ℕ) * unit) := by
    push_cast; field_simp
  have exact : IsBinary (n : ℚ) := by
    exact_mod_cast isBinary_intCast (k := n) (by rw [Nat.abs_cast]; exact_mod_cast small)
  obtain ⟨finite, rounds⟩ := ofQuanta_spec false (n * unit) one_pos (q := n) value
  rw [exact.binary_eq] at finite rounds
  have bound : |(n : ℚ)| < 2 ^ 1024 :=
    abs_lt_of_le (by rw [Nat.abs_cast]; exact_mod_cast small)
  exact ⟨finite.2 bound, rounds (finite.2 bound)⟩

theorem half_spec : half.isFinite = true ∧ half.value = 1 / 2 := by
  have value : (1 / 2 : ℚ) = (twoPow 1073 : ℕ) / ((1 : ℕ) * unit) := by
    have positive : (0 : ℚ) < 2 ^ 1073 := by positivity
    rw [twoPow_cast, unit, twoPow_cast, pow_succ 2 1073]
    field_simp
    simp
  obtain ⟨finite, rounds⟩ := ofQuanta_spec false (twoPow 1073) one_pos (q := 1 / 2) value
  rw [isBinary_half.binary_eq] at finite rounds
  have bound : |(1 / 2 : ℚ)| < 2 ^ 1024 := abs_lt_of_le (by norm_num)
  exact ⟨finite.2 bound, rounds (finite.2 bound)⟩

theorem floor_spec {x : Binary64} (xFinite : x.isFinite = true) :
    x.floor.isFinite = true ∧ x.floor.value = ⌊x.value⌋ := by
  have size := unit_cast_pos
  have bound := abs_floor_lt x.isBinary_value x.abs_value_lt
  have exact := x.isBinary_value.floor
  -- Either branch hands over the floor itself.
  have branch (negative : Bool) (k : ℕ) (same : ⌊x.value⌋ = if negative then -(k : ℤ) else k)
      (unfolded : x.floor = ofQuanta negative (k * unit) 1) :
      x.floor.isFinite = true ∧ x.floor.value = ⌊x.value⌋ := by
    have value : (⌊x.value⌋ : ℚ) = if negative then -((k * unit : ℕ) / ((1 : ℕ) * unit) : ℚ)
        else (k * unit : ℕ) / ((1 : ℕ) * unit) := by
      rw [same]; cases negative <;> push_cast <;> field_simp
    obtain ⟨finite, rounds⟩ := ofQuanta_spec negative (k * unit) one_pos value
    rw [exact.binary_eq] at finite rounds
    rw [unfolded]
    exact ⟨finite.2 bound, rounds (finite.2 bound)⟩
  obtain ⟨negative, m, rfl⟩ := exists_of_isFinite xFinite
  cases negative with
  | false =>
    refine branch false (m.quanta / unit) ?_ rfl
    rw [value_finite]
    simp only [Bool.false_eq_true, if_false]
    rw [Magnitude.value]
    exact_mod_cast Rat.floor_natCast_div_natCast m.quanta unit
  | true =>
    refine branch true ((m.quanta + (unit - 1)) / unit) ?_ rfl
    simp only [value_finite, if_true]
    rw [Int.floor_neg, Magnitude.value, ceil_div m.quanta unit_pos]

section HalfUp

variable {x : Binary64} (xFinite : x.isFinite = true)
include xFinite

theorem sub_floor_spec : (x - x.floor).isFinite = true ∧
    (x - x.floor).value = binary (Int.fract x.value) := by
  obtain ⟨floorFinite, floorValue⟩ := floor_spec xFinite
  obtain ⟨finite, rounds⟩ := sub_spec xFinite floorFinite
  rw [floorValue, Int.self_sub_floor] at finite rounds
  have small : |binary (Int.fract x.value)| < 2 ^ 1024 := by
    apply abs_lt_of_le
    rw [abs_of_nonneg (binary_nonneg (Int.fract_nonneg _))]
    exact (binary_le isBinary_one (Int.fract_lt_one _).le).trans (by norm_num)
  exact ⟨finite.2 small, rounds (finite.2 small)⟩

/-- Whatever the distance is rounded to, the test for a half tells the truth. -/
theorem half_le_sub_floor_iff : half.le (x - x.floor) = true ↔ 1 / 2 ≤ Int.fract x.value := by
  obtain ⟨halfFinite, halfValue⟩ := half_spec
  obtain ⟨finite, value⟩ := sub_floor_spec xFinite
  rw [le_iff halfFinite finite, halfValue, value]
  exact half_le_binary_fract_iff x.isBinary_value

/-- A number that is not whole has a floor below `2^53`, and so the next whole number is exact. -/
theorem floor_add_one_spec (part : Int.fract x.value ≠ 0) :
    (x.floor + ofNat 1).isFinite = true ∧ (x.floor + ofNat 1).value = ⌊x.value⌋ + 1 := by
  obtain ⟨floorFinite, floorValue⟩ := floor_spec xFinite
  obtain ⟨oneFinite, oneValue⟩ := ofNat_spec (n := 1) (by norm_num)
  obtain ⟨finite, sum⟩ := add_spec floorFinite oneFinite
  have few : |⌊x.value⌋ + 1| ≤ 2 ^ 53 := by
    refine (x.isBinary_value.floor_eq_or.resolve_left ?_).1
    intro same
    exact part (by rw [Int.fract, same, sub_self])
  have exact : IsBinary ((⌊x.value⌋ : ℚ) + 1) := by exact_mod_cast isBinary_intCast few
  have bound : |(⌊x.value⌋ : ℚ) + 1| < 2 ^ 1024 := abs_lt_of_le (by exact_mod_cast few)
  rw [floorValue, oneValue, Nat.cast_one, exact.binary_eq] at finite sum
  exact ⟨finite.2 bound, sum (finite.2 bound)⟩

/-- The nearest whole number, with halves going up, is computed without an error. -/
theorem roundHalfUp_spec :
    x.roundHalfUp.isFinite = true ∧ x.roundHalfUp.value = ⌊x.value + 1 / 2⌋ := by
  have test := half_le_sub_floor_iff xFinite
  rw [roundHalfUp, if_pos xFinite]
  split
  · next up =>
    have up := test.1 up
    obtain ⟨finite, value⟩ := floor_add_one_spec xFinite (by linarith)
    refine ⟨finite, ?_⟩
    rw [value, floor_add_half_of_le up]
    push_cast
    rfl
  · next down =>
    have down := not_le.1 (mt test.2 down)
    obtain ⟨finite, value⟩ := floor_spec xFinite
    exact ⟨finite, by rw [value, floor_add_half_of_lt down]⟩

/-- The sum with one half, rounded down, is found without an error, though the distance from the
floor that decides is rounded where the number is less than one half below zero. So nothing below a
half goes up, and a half does, on both sides of zero. -/
theorem roundHalfUp_exact :
    x.roundHalfUp.isFinite = true ∧ x.roundHalfUp.value = ⌊x.value + 1 / 2⌋ ∧
    (∀ n : ℤ, x.value < n + 1 / 2 → x.roundHalfUp.value ≤ n) ∧
    (∀ n : ℤ, n + 1 / 2 ≤ x.value → n + 1 ≤ x.roundHalfUp.value) ∧
    (half.le (x - x.floor) = true ↔ 1 / 2 ≤ x.value - ⌊x.value⌋) ∧
    (0 ≤ x.value ∨ x.value ≤ -(1 / 2) → (x - x.floor).value = x.value - ⌊x.value⌋) := by
  obtain ⟨finite, value⟩ := roundHalfUp_spec xFinite
  refine ⟨finite, value, fun n less => ?_, fun n up => ?_, ?_, fun side => ?_⟩
  · have below : ⌊x.value + 1 / 2⌋ < n + 1 := Int.floor_lt.2 (by push_cast; linarith)
    rw [value]
    exact_mod_cast Int.lt_add_one_iff.1 below
  · have above : n + 1 ≤ ⌊x.value + 1 / 2⌋ := Int.le_floor.2 (by push_cast; linarith)
    rw [value]
    exact_mod_cast above
  · rw [Int.self_sub_floor]
    exact half_le_sub_floor_iff xFinite
  · rw [(sub_floor_spec xFinite).2, (x.isBinary_value.fract side).binary_eq, Int.self_sub_floor]

end HalfUp

/-- The greatest number less than one half. -/
def belowHalf : Binary64 := Decimal.toBinary64 false ⟨49999999999999994, -17⟩

theorem roundHalfUp_exact_belowHalf :
    belowHalf.isFinite = true ∧ belowHalf.value < 1 / 2 ∧
      belowHalf.roundHalfUp.value = ⌊belowHalf.value + 1 / 2⌋ ∧
      belowHalf.roundHalfUp.value = 0 ∧
      (half.le (belowHalf - belowHalf.floor) = true ↔
        1 / 2 ≤ belowHalf.value - ⌊belowHalf.value⌋) ∧
      (belowHalf - belowHalf.floor).value = belowHalf.value - ⌊belowHalf.value⌋ := by
  have finite : belowHalf.isFinite = true := by decide +kernel
  have nonneg : 0 ≤ belowHalf.value := by
    rw [← value_zero, ← le_iff rfl finite]
    decide +kernel
  have less : belowHalf.value < 1 / 2 := by
    rw [← half_spec.2, ← lt_iff finite half_spec.1]
    decide +kernel
  obtain ⟨-, value, below, above, test, distance⟩ := roundHalfUp_exact finite
  have most : belowHalf.roundHalfUp.value ≤ 0 := by exact_mod_cast below 0 (by simpa using less)
  have least : 0 ≤ belowHalf.roundHalfUp.value := by
    simpa using above (-1) (by push_cast; linarith)
  exact ⟨finite, less, value, le_antisymm most least, test, distance (.inl nonneg)⟩

/-- The sum with one half is rounded to one, so rounding it down would go wrong. -/
example : (belowHalf + half).floor = ofNat 1 := by decide +kernel

end Binary64
end DigitMask
