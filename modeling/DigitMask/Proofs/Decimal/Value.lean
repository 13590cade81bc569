import DigitMask.Decimal.Shortest
import DigitMask.Proofs.Binary64.Value

/-! The rational numbers that decimals stand for. Reading a decimal rounds its value once, so
decimals of one value are read as one number. -/
namespace DigitMask

namespace Decimal

def value (d : Decimal) : ℚ := d.coefficient * 10 ^ d.exponent

theorem value_nonneg (d : Decimal) : 0 ≤ d.value := by unfold value; positivity

theorem value_eq_zero_iff (d : Decimal) : d.value = 0 ↔ d.coefficient = 0 := by
  have power : (10 : ℚ) ^ d.exponent ≠ 0 := zpow_ne_zero _ (by norm_num)
  rw [value, mul_eq_zero_iff_right power, Nat.cast_eq_zero]

theorem value_places (coefficient places : ℕ) :
    value ⟨coefficient, -places⟩ = coefficient / 10 ^ places := by
  rw [value, zpow_neg, zpow_natCast, div_eq_mul_inv]

theorem den_pos (d : Decimal) : 0 < d.den := tenPow_pos _

/-- The value as a ratio, with a power of ten on one side of it. -/
theorem value_eq_div (d : Decimal) : d.value =
    (d.coefficient * tenPow d.exponent.toNat : ℕ) / 10 ^ (-d.exponent).toNat := by
  have power : (10 : ℚ) ^ d.exponent =
      10 ^ d.exponent.toNat / 10 ^ (-d.exponent).toNat := by
    rcases le_total 0 d.exponent with whole | places
    · rw [Int.toNat_of_nonpos (z := -d.exponent) (by omega), pow_zero, div_one, ← zpow_natCast,
        Int.toNat_of_nonneg whole]
    · rw [Int.toNat_of_nonpos places, pow_zero, one_div, ← zpow_natCast (10 : ℚ),
        Int.toNat_of_nonneg (by omega), zpow_neg, inv_inv]
  rw [value, power, Nat.cast_mul, tenPow_cast, mul_div_assoc]

theorem num_div (d : Decimal) : (d.num : ℚ) / (d.den * unit) = d.value := by
  rw [num, den, value_eq_div, Nat.cast_mul (_ * _), mul_div_mul_right _ _ unit_cast_pos.ne',
    tenPow_cast]

theorem nearest_eq_some_iff (d : Decimal) (m : Magnitude) :
    d.nearest = some m ↔ binary d.value = m.value := by
  rw [nearest_eq, Magnitude.nearest_eq_some_iff_binary _ d.den_pos, num_div]

theorem nearest_eq_none_iff (d : Decimal) : d.nearest = none ↔ 2 ^ 1024 ≤ binary d.value := by
  rw [nearest_eq, Magnitude.nearest_eq_none_iff_binary _ d.den_pos, num_div]

theorem nearest_congr {d e : Decimal} (same : d.value = e.value) : d.nearest = e.nearest := by
  cases found : e.nearest with
  | none => rwa [nearest_eq_none_iff, same, ← nearest_eq_none_iff]
  | some m => rwa [nearest_eq_some_iff, same, ← nearest_eq_some_iff]

theorem toBinary64_congr {d e : Decimal} (same : d.value = e.value) (negative : Bool) :
    d.toBinary64 negative = e.toBinary64 negative := by
  rw [toBinary64, toBinary64, nearest_congr same]

theorem toBinary64_spec {d : Decimal} (small : binary d.value < 2 ^ 1024) (negative : Bool) :
    ∃ m : Magnitude, d.toBinary64 negative = .finite negative m ∧ m.value = binary d.value := by
  obtain ⟨m, same⟩ :=
    Magnitude.exists_value_eq (isBinary_binary d.value) (binary_nonneg d.value_nonneg) small
  refine ⟨m, ?_, same⟩
  rw [toBinary64, (nearest_eq_some_iff d m).2 same.symm]
  rfl

theorem cut_eq_self {d : Decimal} {places : ℕ} (few : -places ≤ d.exponent) :
    d.cut places = d := by
  have none : (-d.exponent).toNat - places = 0 := by omega
  rw [cut, none, tenPow_zero, Nat.div_one]
  simp

/-- Cutting takes off the digits behind so many places. -/
theorem value_cut_eq (d : Decimal) (places : ℕ) :
    (d.cut places).value = ⌊d.value * 10 ^ places⌋₊ / 10 ^ places := by
  have size : (10 : ℚ) ^ places ≠ 0 := by positivity
  rcases Nat.eq_zero_or_pos ((-d.exponent).toNat - places) with none | more
  · obtain ⟨s, shift⟩ := Int.eq_ofNat_of_zero_le (a := d.exponent + places) (by omega)
    have whole : d.value * 10 ^ places = (d.coefficient * 10 ^ s : ℕ) := by
      rw [value, mul_assoc, ← zpow_natCast (10 : ℚ) places, ← zpow_add₀ (by norm_num), shift]
      push_cast
      rfl
    rw [whole, Nat.floor_natCast, ← whole, mul_div_cancel_right₀ _ size, cut_eq_self (by omega)]
  · have shift : d.exponent + ((-d.exponent).toNat - places : ℕ) = -places := by omega
    have ratio : d.value * 10 ^ places =
        d.coefficient / (tenPow ((-d.exponent).toNat - places) : ℕ) := by
      rw [tenPow_cast, value, mul_assoc, ← zpow_natCast (10 : ℚ) places,
        ← zpow_add₀ (by norm_num), ← zpow_natCast (10 : ℚ), div_eq_mul_inv, ← zpow_neg]
      congr 2
      omega
    rw [ratio, Nat.floor_div_eq_div, cut, shift, value_places]

theorem value_cut_le (d : Decimal) (places : ℕ) : (d.cut places).value ≤ d.value := by
  have size : (0 : ℚ) < 10 ^ places := by positivity
  rw [value_cut_eq, div_le_iff₀ size]
  exact Nat.floor_le (mul_nonneg d.value_nonneg size.le)

theorem value_cut_mono {d e : Decimal} (le : d.value ≤ e.value) (places : ℕ) :
    (d.cut places).value ≤ (e.cut places).value := by
  have size : (0 : ℚ) ≤ 10 ^ places := by positivity
  rw [value_cut_eq, value_cut_eq]
  refine div_le_div_of_nonneg_right ?_ size
  exact_mod_cast Nat.floor_mono (mul_le_mul_of_nonneg_right le size)

end Decimal
end DigitMask
