import DigitMask.Proofs.Rounding

/-! Rounding once more what was read from a decimal. Up to 22 places the power of ten is exact,
and the only error that can change a digit is that of the product with it: where it lands half way
above the whole number that was shown, that number is rounded up. -/
namespace DigitMask

variable {places : ℕ}

/-- Where the spacing is one, binary numbers are the whole ones. -/
theorem binary_eq_halfEven {q : ℚ} (large : 2 ^ 52 ≤ q) (less : q < 2 ^ 53) :
    binary q = halfEven q := by
  have size := unit_cast_pos
  have nonneg : 0 ≤ q := by linarith
  have low : twoPow (52 + 1074) ≤ ⌊q * unit⌋₊ := by
    refine Nat.le_floor ?_
    rw [twoPow_add, ← unit, Nat.cast_mul, twoPow_cast]
    exact mul_le_mul_of_nonneg_right large size.le
  have high : ⌊q * unit⌋₊ < twoPow (53 + 1074) := by
    rw [Nat.floor_lt (by positivity), twoPow_add, ← unit, Nat.cast_mul, twoPow_cast]
    exact mul_lt_mul_of_pos_right less size
  have nonzero : ⌊q * unit⌋₊ ≠ 0 := (lt_of_lt_of_le (twoPow_pos _) low).ne'
  have step : spacing ⌊q * unit⌋₊ = unit := by
    have := (le_log2_iff nonzero).2 low
    have := (log2_lt_iff nonzero).2 high
    exact congrArg twoPow (by omega : _ = 1074)
  rw [binary_of_nonneg nonneg, rounded, step, mul_div_cancel_right₀ _ size.ne', Nat.cast_mul,
    mul_div_cancel_right₀ _ size.ne']

theorem normal_div {k : ℕ} (few : places ≤ 22) (nonzero : k ≠ 0) :
    2 ^ (-1022 : ℤ) ≤ (k / 10 ^ places : ℚ) := by
  have one : (1 : ℚ) ≤ k := by exact_mod_cast Nat.one_le_iff_ne_zero.2 nonzero
  have power : (10 : ℚ) ^ places ≤ 10 ^ 22 := pow_le_pow_right₀ (by norm_num) few
  have bound : (2 : ℚ) ^ (-1022 : ℤ) ≤ 2 ^ (-88 : ℤ) :=
    zpow_le_zpow_right₀ one_le_two (by decide)
  rw [le_div_iff₀ (by positivity)]
  calc (2 : ℚ) ^ (-1022 : ℤ) * 10 ^ places ≤ 2 ^ (-88 : ℤ) * 10 ^ 22 :=
        mul_le_mul bound power (by positivity) (by positivity)
    _ ≤ 1 := by norm_num
    _ ≤ k := one

section Scaled

variable {k : ℕ} (few : places ≤ 22)
include few

/-- Read and scaled back, a decimal comes near its units again, with two rounding errors. -/
theorem abs_scaled_sub_le :
    |binary (binary (k / 10 ^ places) * 10 ^ places) - k| ≤
      binary (k / 10 ^ places) * 10 ^ places / 2 ^ 52 := by
  by_cases zero : k = 0
  · simp [zero]
  have normal := normal_div few zero
  have nonneg : (0 : ℚ) ≤ binary (k / 10 ^ places) * 10 ^ places :=
    mul_nonneg (binary_nonneg (by positivity)) (by positivity)
  have large : 2 ^ (-1022 : ℤ) ≤ binary (k / 10 ^ places) * 10 ^ places :=
    calc (2 : ℚ) ^ (-1022 : ℤ) ≤ binary (k / 10 ^ places) :=
          le_binary (isBinary_zpow (by decide)) normal
      _ ≤ binary (k / 10 ^ places) * 10 ^ places :=
          le_mul_of_one_le_right (binary_nonneg (by positivity)) (one_le_pow₀ (by norm_num))
  have first := (abs_binary_div_mul_sub_le normal).2
  have second := (abs_binary_sub_le_mul (large.trans (le_abs_self _))).1
  rw [abs_of_nonneg nonneg] at second
  have triangle := abs_sub_le (binary (binary (k / 10 ^ places) * 10 ^ places))
    (binary (k / 10 ^ places) * 10 ^ places) k
  linarith

theorem scaled_cases (less : binary (k / 10 ^ places) * 10 ^ places < 2 ^ 52) :
    |binary (binary (k / 10 ^ places) * 10 ^ places) - k| < 1 / 2 ∨
      |binary (binary (k / 10 ^ places) * 10 ^ places) - k| = 1 / 2 := by
  have error := abs_scaled_sub_le few (k := k)
  rcases lt_or_ge (binary (k / 10 ^ places) * 10 ^ places) (2 ^ 51) with small | large
  · exact .inl (by linarith)
  -- From `2^51` on the product is a multiple of one half.
  have exact := isBinary_binary (binary (k / 10 ^ places) * 10 ^ places)
  have bottom : (2 : ℚ) ^ (51 : ℤ) ≤ |binary (binary (k / 10 ^ places) * 10 ^ places)| :=
    (le_binary (isBinary_zpow (by decide)) (by exact_mod_cast large)).trans (le_abs_self _)
  obtain ⟨j, same⟩ := exact.exists_eq (by decide) bottom
  have half : binary (binary (k / 10 ^ places) * 10 ^ places) - k = ((j - 2 * k : ℤ) : ℚ) / 2 := by
    rw [same, show (51 - 52 : ℤ) = -1 by norm_num, zpow_neg_one]
    push_cast
    ring
  rw [half, abs_div, abs_two] at error ⊢
  have near : |((j - 2 * k : ℤ) : ℚ)| < 2 := by linarith
  by_cases zero : j - 2 * k = 0
  · left; rw [zero]; norm_num
  · right
    have one : |j - 2 * k| = 1 := by
      have := Int.one_le_abs zero
      have : |j - 2 * k| < 2 := by exact_mod_cast near
      omega
    rw [← Int.cast_abs, one]
    norm_num

theorem units_binary_intCast_div {j : ℤ} (small : |j| ≤ 2 ^ 52) :
    units places (binary (j / 10 ^ places)) = j.natAbs := by
  have size : (0 : ℚ) < 10 ^ places := by positivity
  rw [← units_abs, ← binary_abs, abs_div, abs_of_pos size, ← Int.cast_abs, Int.abs_eq_natAbs,
    Int.cast_natCast]
  rw [Int.abs_eq_natAbs] at small
  by_cases zero : j.natAbs = 0
  · rw [zero]; simp
  · exact units_binary_div (normal_div few zero) (by exact_mod_cast small)

end Scaled

namespace Binary64

/-- Rounding to so many places keeps the digits that the number shows without it. -/
def Steady (places : ℕ) (x : Binary64) : Prop :=
  units places (x.roundTo places).value = units places x.value

variable {x : Binary64} {negative : Bool} {k : ℕ}

theorem signed_cast (negative : Bool) (k : ℕ) :
    (signed negative k : ℚ) = if negative then -(k : ℚ) else k := by
  cases negative <;> simp [signed]

def ReadFrom (places : ℕ) (negative : Bool) (k : ℕ) (x : Binary64) : Prop :=
  x.isFinite = true ∧ x.value = binary (signed negative k / 10 ^ places)

theorem ReadFrom.abs_value (read : ReadFrom places negative k x) :
    |x.value| = binary (k / 10 ^ places) := by
  have size : (0 : ℚ) < 10 ^ places := by positivity
  rw [read.2, ← binary_abs, abs_div, abs_of_pos size, signed_cast]
  cases negative <;> simp

theorem ReadFrom.scaled_eq (read : ReadFrom places negative k x) :
    |binary (x.value * 10 ^ places) - signed negative k| =
      |binary (binary (k / 10 ^ places) * 10 ^ places) - k| := by
  rw [read.2, signed_cast]
  cases negative with
  | false => rfl
  | true =>
    have mirrored : -(k : ℚ) / 10 ^ places = -(k / 10 ^ places) := neg_div _ _
    simp only [if_true]
    rw [mirrored, binary_neg, neg_mul, binary_neg, neg_sub_neg, abs_sub_comm]

theorem intCast_ne_add_half (i j : ℤ) : (i : ℚ) ≠ j + 1 / 2 := by
  intro same
  have double : (2 * i : ℚ) = 2 * j + 1 := by linarith
  have double : 2 * i = 2 * j + 1 := by exact_mod_cast double
  omega

/-- From so many units on the product with the power of ten is whole. -/
theorem exists_binary_mul_eq {v : ℚ} (large : 2 ^ 52 ≤ |v| * 10 ^ places) :
    ∃ j : ℤ, binary (v * 10 ^ places) = j := by
  have size : (0 : ℚ) < 10 ^ places := by positivity
  apply (isBinary_binary _).whole_of_le
  rw [← binary_abs, abs_mul, abs_of_pos size]
  exact le_binary (isBinary_pow 52) large

theorem Kept.ne_half {v : ℚ} (kept : Kept places v) (j : ℤ) :
    binary (v * 10 ^ places) ≠ j + 1 / 2 := by
  obtain ⟨i, same⟩ := exists_binary_mul_eq kept.le_mul
  rw [same]
  exact intCast_ne_add_half i j

theorem abs_mul_lt_of_not_kept {v : ℚ} (few : places ≤ 22) (exact : IsBinary v)
    (rounds : ¬ Kept places v) : |v| * 10 ^ places < 2 ^ 53 := by
  have size : (0 : ℚ) < 10 ^ places := by positivity
  by_contra large
  refine rounds (.inr (binary_le (isBinary_abs_iff.2 exact) ?_))
  rw [power_eq few, div_le_iff₀ size]
  exact not_lt.1 large

section Few

variable (few : places ≤ 22) (read : ReadFrom places negative k x)
  (shown : units places x.value = k) (rounds : ¬ Kept places x.value)
include few read shown rounds

/-- The product with the power of ten comes back to the units, or half way to the next ones. -/
theorem scaled_near : |binary (x.value * 10 ^ places) - signed negative k| < 1 / 2 ∨
    |binary (x.value * 10 ^ places) - signed negative k| = 1 / 2 ∧
      |binary (x.value * 10 ^ places)| ≤ 2 ^ 52 := by
  have size : (0 : ℚ) < 10 ^ places := by positivity
  have less := abs_mul_lt_of_not_kept few x.isBinary_value rounds
  have whole : |binary (x.value * 10 ^ places)| = binary (|x.value| * 10 ^ places) := by
    rw [← binary_abs, abs_mul, abs_of_pos size]
  rw [read.scaled_eq, whole, read.abs_value]
  rw [read.abs_value] at less
  rcases le_or_gt (2 ^ 52) (binary (k / 10 ^ places) * 10 ^ places) with large | small
  · left
    have same := binary_eq_halfEven large less
    rw [← read.abs_value, ← units, shown] at same
    rw [← read.abs_value, same, sub_self, abs_zero]
    norm_num
  · exact (scaled_cases few small).imp_right fun tie => ⟨tie, binary_le (isBinary_pow 52) small.le⟩

theorem steady_iff_of_rounds :
    Steady places x ↔ binary (x.value * 10 ^ places) ≠ signed negative k + 1 / 2 := by
  obtain ⟨-, -, value⟩ := roundTo_spec read.1 places
  have value := value rounds
  rw [wholePlaces, power_eq few] at value
  rw [Steady, value, shown]
  -- What is read again is what was read, as long as the units are the same.
  have again (same : ⌊binary (x.value * 10 ^ places) + 1 / 2⌋ = signed negative k) :
      units places (binary (⌊binary (x.value * 10 ^ places) + 1 / 2⌋ / 10 ^ places)) = k := by
    rw [same, ← read.2, shown]
  rcases scaled_near few read shown rounds with near | ⟨tie, bound⟩
  · obtain ⟨below, above⟩ := abs_lt.1 near
    refine iff_of_true (again ?_) fun half => ?_
    · exact Int.floor_eq_iff.2 ⟨by linarith, by linarith⟩
    · linarith
  rcases (abs_eq (by norm_num)).1 tie with up | down
  · -- The next unit is shown.
    have half : binary (x.value * 10 ^ places) = signed negative k + 1 / 2 := by linarith
    refine iff_of_false ?_ (not_not.2 half)
    have next : ⌊binary (x.value * 10 ^ places) + 1 / 2⌋ = signed negative k + 1 := by
      rw [half]
      exact Int.floor_eq_iff.2 ⟨by push_cast; linarith, by push_cast; linarith⟩
    have small : |signed negative k + 1| ≤ 2 ^ 52 := by
      rw [half] at bound
      obtain ⟨low, high⟩ := abs_le.1 bound
      have above : (signed negative k : ℚ) < 2 ^ 52 := by linarith
      have below : -(2 ^ 52) - 1 < (signed negative k : ℚ) := by linarith
      have above : signed negative k < 2 ^ 52 := by exact_mod_cast above
      have below : -(2 ^ 52) - 1 < signed negative k := by exact_mod_cast below
      exact abs_le.2 ⟨by omega, by omega⟩
    rw [next, units_binary_intCast_div few small]
    cases negative <;> simp only [signed] <;> omega
  · refine iff_of_true (again ?_) fun half => ?_
    · exact Int.floor_eq_iff.2 ⟨by linarith, by linarith⟩
    · linarith

end Few

/-- Up to 22 places, a number that was read from a decimal shows the same decimal after it is
rounded, unless its product with the power of ten lands half way above the units. -/
theorem steady_iff_of_few (few : places ≤ 22) (read : ReadFrom places negative k x)
    (shown : units places x.value = k) :
    Steady places x ↔ binary (x.value * 10 ^ places) ≠ signed negative k + 1 / 2 := by
  by_cases kept : Kept places x.value
  · have value := (roundTo_spec read.1 places).2.1 kept
    exact iff_of_true (by rw [Steady, value]) (kept.ne_half _)
  · exact steady_iff_of_rounds few read shown kept

/-- With fewer than `2^51` units the errors are too small to matter. -/
theorem steady_of_lt (few : places ≤ 22) (read : ReadFrom places negative k x)
    (shown : units places x.value = k) (less : k < 2 ^ 51) : Steady places x := by
  rw [steady_iff_of_few few read shown]
  intro half
  have error := abs_scaled_sub_le few (k := k)
  rw [← read.scaled_eq, half, add_sub_cancel_left] at error
  norm_num at error
  have less : (k : ℚ) + 1 ≤ 2 ^ 51 := by exact_mod_cast less
  have near : |(k : ℚ) - |x.value| * 10 ^ places| ≤ 1 / 2 := by
    rw [← shown]
    exact abs_halfEven_sub_le (by positivity)
  rw [read.abs_value] at near
  linarith [(abs_le.1 near).1]

theorem steady_zero (read : ReadFrom 0 negative k x) (shown : units 0 x.value = k) :
    Steady 0 x := by
  have whole : ∃ j : ℤ, x.value = j := by
    have value := read.2
    rw [pow_zero, div_one] at value
    rcases le_or_gt |signed negative k| (2 ^ 53) with small | large
    · exact ⟨_, value.trans (isBinary_intCast small).binary_eq⟩
    · apply x.isBinary_value.whole_of_le
      have large : (2 : ℚ) ^ 53 < |(signed negative k : ℚ)| := by exact_mod_cast large
      rw [value, ← binary_abs]
      exact le_binary (isBinary_pow 52) (by linarith)
  obtain ⟨j, same⟩ := whole
  rw [steady_iff_of_few (by decide) read shown, pow_zero, mul_one, x.isBinary_value.binary_eq,
    same]
  exact intCast_ne_add_half j _

end Binary64

end DigitMask
