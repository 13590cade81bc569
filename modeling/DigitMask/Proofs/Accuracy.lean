import DigitMask.Proofs.Limit
import DigitMask.Proofs.Order
import DigitMask.Proofs.Steady

/-! How far a rounded number, as it is shown, is from the number itself. Up to 22 places it is never
a whole unit of the last place. With fewer than `2^52` units the product with the power of ten is
off by at most a quarter of a unit, and the nearest whole number by half a unit more; from there on
the product is whole, and the number shows the units that it has without rounding. -/
namespace DigitMask

variable {places : ℕ} {v w : ℚ}

theorem abs_atPlaces_sub_le (places : ℕ) (v : ℚ) :
    |atPlaces places v - v| * 10 ^ places ≤ 1 / 2 := by
  have size : (0 : ℚ) < 10 ^ places := by positivity
  have near := abs_halfEven_sub_le (q := |v| * 10 ^ places) (by positivity)
  rw [← units, ← abs_div_sub_mul size] at near
  unfold atPlaces
  by_cases negative : v < 0
  · rw [abs_of_neg negative, sub_neg_eq_add] at near
    rwa [if_pos negative, ← neg_add', abs_neg]
  · rw [abs_of_nonneg (not_lt.1 negative)] at near
    rwa [if_neg negative]

theorem atPlaces_congr (same : units places v = units places w) (above : 0 ≤ w → 0 ≤ v)
    (below : w ≤ 0 → v ≤ 0) : atPlaces places v = atPlaces places w := by
  unfold atPlaces
  rw [← same]
  by_cases negative : w < 0
  · rcases (below negative.le).eq_or_lt with zero | less
    · simp [zero]
    · rw [if_pos less, if_pos negative]
  · rw [if_neg (not_lt.2 (above (not_lt.1 negative))), if_neg negative]

theorem atPlaces_binary_div (few : places ≤ 22) {k : ℤ} (small : |k| ≤ 2 ^ 52) :
    atPlaces places (binary (k / 10 ^ places)) = k / 10 ^ places := by
  have size : (0 : ℚ) < 10 ^ places := by positivity
  have shown := units_binary_intCast_div few small
  have absolute : (k.natAbs : ℚ) = |(k : ℚ)| := by rw [Nat.cast_natAbs, Int.cast_abs]
  rw [atPlaces, shown, absolute]
  by_cases negative : k < 0
  · have negative : (k : ℚ) < 0 := by exact_mod_cast negative
    have nonpos : binary (k / 10 ^ places) ≤ 0 :=
      binary_le ⟨0, Nat.dvd_zero _, by simp⟩ (div_neg_of_neg_of_pos negative size).le
    have nonzero : binary (k / 10 ^ places) ≠ 0 := by
      intro zero
      rw [zero, units_zero] at shown
      rw [← shown, Nat.cast_zero, eq_comm, abs_eq_zero] at absolute
      exact negative.ne absolute
    rw [if_pos (lt_of_le_of_ne nonpos nonzero), abs_of_neg negative, neg_div, neg_neg]
  · have nonneg : (0 : ℚ) ≤ k := by exact_mod_cast not_lt.1 negative
    rw [if_neg (not_lt.2 (binary_nonneg (div_nonneg nonneg size.le))), abs_of_nonneg nonneg]

namespace Binary64

theorem abs_wholePlaces_sub_le (few : places ≤ 22) (small : |v| * 10 ^ places < 2 ^ 52) :
    |wholePlaces places v - v * 10 ^ places| ≤ 3 / 4 ∧ |wholePlaces places v| ≤ 2 ^ 52 := by
  have size : (0 : ℚ) < 10 ^ places := by positivity
  have inside : |v * 10 ^ places| < 2 ^ 52 := by rwa [abs_mul, abs_of_pos size]
  have error : |binary (v * 10 ^ places) - v * 10 ^ places| ≤ 1 / 4 := by
    have error := abs_binary_sub_le_zpow (q := v * 10 ^ places) (e := 51) (by decide)
      (by exact_mod_cast inside)
    norm_num at error ⊢
    exact error
  have bound : |binary (v * 10 ^ places)| ≤ 2 ^ 52 := by
    rw [← binary_abs]
    exact binary_le (isBinary_pow 52) inside.le
  rw [wholePlaces, power_eq few]
  generalize binary (v * 10 ^ places) = scaled at error bound
  constructor
  · have near := abs_floor_add_half_sub_le scaled
    linarith [abs_sub_le (⌊scaled + 1 / 2⌋ : ℚ) scaled (v * 10 ^ places)]
  · apply abs_floor_add_half_le
    exact_mod_cast bound

section

variable {x : Binary64} (xFinite : x.isFinite = true) (few : places ≤ 22)
include xFinite few

theorem units_roundTo (rounds : ¬ Kept places x.value) (large : 2 ^ 52 ≤ |x.value| * 10 ^ places) :
    units places (x.roundTo places).value = units places x.value := by
  have size : (0 : ℚ) < 10 ^ places := by positivity
  have less := abs_mul_lt_of_not_kept few x.isBinary_value rounds
  have scaled : |binary (x.value * 10 ^ places)| = units places x.value := by
    rw [← binary_abs, abs_mul, abs_of_pos size, binary_eq_halfEven large less, units]
  obtain ⟨j, same⟩ := exists_binary_mul_eq large
  have count : wholePlaces places x.value = j := by
    rw [wholePlaces, power_eq few, same]
    exact Int.floor_eq_iff.2 ⟨by linarith, by linarith⟩
  rw [same] at scaled
  rw [← units_abs, abs_value_roundTo_eq xFinite few rounds, count, Nat.cast_natAbs, Int.cast_abs,
    scaled]
  exact units_binary_units x.isBinary_value places

/-- The errors of the product and of the nearest whole number add up to three quarters of a unit,
and those of a number that is only shown to half a unit. -/
theorem abs_atPlaces_roundTo_sub_le :
    |atPlaces places (x.roundTo places).value - x.value| * 10 ^ places ≤ 3 / 4 := by
  have size : (0 : ℚ) < 10 ^ places := by positivity
  have own := abs_atPlaces_sub_le places x.value
  obtain ⟨-, keeps, rounds⟩ := roundTo_spec xFinite places
  by_cases kept : Kept places x.value
  · rw [keeps kept]
    linarith
  by_cases large : 2 ^ 52 ≤ |x.value| * 10 ^ places
  · obtain ⟨above, below⟩ := roundTo_sign xFinite places
    rw [atPlaces_congr (units_roundTo xFinite few kept large) above below]
    linarith
  · obtain ⟨error, small⟩ := abs_wholePlaces_sub_le few (not_le.1 large)
    rwa [rounds kept, power_eq few, atPlaces_binary_div few small, abs_div_sub_mul size]

end

/-- Up to 22 places, the fixed text of the rounded number denotes, with its sign, a decimal that is
less than a unit of the last place away from the number. -/
theorem abs_textValue_sub_lt {x : Binary64} (xFinite : x.isFinite = true) (few : places ≤ 22) :
    let n := x.roundTo places
    let shown := textValue (n.abs.fixed places)
    |(if n.lt .zero then -shown else shown) - x.value| < 1 / 10 ^ places := by
  intro n shown
  have size : (0 : ℚ) < 10 ^ places := by positivity
  have finite : n.isFinite = true := (roundTo_spec xFinite places).1
  have decimal : (if n.lt .zero then -shown else shown) = atPlaces places n.value := by
    simp only [shown, textValue_fixed_abs finite, lt_zero_iff finite, atPlaces]
  rw [decimal, lt_div_iff₀ size]
  exact (abs_atPlaces_roundTo_sub_le xFinite few).trans_lt (by norm_num)

/-- A number half way between two tenths; below zero it goes to the one nearer to zero. -/
theorem abs_textValue_sub_lt_tenths :
    let n := (Decimal.toBinary64 true ⟨125, -2⟩).roundTo 1
    let shown := textValue (n.abs.fixed 1)
    |(if n.lt .zero then -shown else shown) - (Decimal.toBinary64 true ⟨125, -2⟩).value| <
      1 / 10 ^ 1 :=
  abs_textValue_sub_lt (by decide +kernel) (by decide)

end Binary64

end DigitMask
