import DigitMask.Proofs.Decimal.Plain
import DigitMask.Proofs.Limit
import DigitMask.Proofs.Numeral.Value
import DigitMask.Proofs.Steady

/-! The fixed text of a number that is already rounded or truncated to its places. Up to 22 places
the text reads back as the number. Where the units of the last place are wider than the spacing
around the number, the number was read from that many of them; where they are narrower, the text is
nearer to the number than half the spacing. -/
namespace DigitMask

variable {places : ℕ} {r : ℚ}

/-- The magnitudes that are limited to so many places: they have `2^53` units or more, or were read
from a decimal with these places. -/
def Limited (places : ℕ) (r : ℚ) : Prop :=
  2 ^ 53 ≤ r * 10 ^ places ∨ ∃ k : ℕ, r = binary (k / 10 ^ places)

/-- A power of two with so many units is a whole number of them, since their factors of five make up
less than `2^52`. -/
theorem exists_natCast_zpow_mul (few : places ≤ 22) {e : ℤ}
    (large : 2 ^ 52 ≤ (2 : ℚ) ^ e * 10 ^ places) : ∃ j : ℕ, (2 : ℚ) ^ e * 10 ^ places = j := by
  have split : (2 : ℚ) ^ e * 10 ^ places = 2 ^ (e + places) * 5 ^ places := by
    rw [zpow_add₀ two_ne_zero, zpow_natCast, mul_assoc, ← mul_pow]
    norm_num
  have fives : (5 : ℚ) ^ places < 2 ^ 52 :=
    (pow_le_pow_right₀ (by norm_num) few).trans_lt (by norm_num)
  have nonneg : 0 ≤ e + places := by
    by_contra negative
    have below : (2 : ℚ) ^ (e + places) ≤ 1 := zpow_le_one_of_nonpos₀ one_le_two (by omega)
    have : (2 : ℚ) ^ (e + places) * 5 ^ places ≤ 1 * 5 ^ places :=
      mul_le_mul_of_nonneg_right below (by positivity)
    linarith
  obtain ⟨s, shift⟩ := Int.eq_ofNat_of_zero_le nonneg
  refine ⟨2 ^ s * 5 ^ places, ?_⟩
  rw [split, shift]
  push_cast
  rfl

section

variable (nonneg : 0 ≤ r)
include nonneg

theorem binary_units_of_whole (exact : IsBinary r) {j : ℕ} (whole : r * 10 ^ places = j) :
    binary (units places r / 10 ^ places) = r := by
  have size : (10 : ℚ) ^ places ≠ 0 := by positivity
  rw [units, abs_of_nonneg nonneg, whole, halfEven_natCast, ← whole, mul_div_cancel_right₀ _ size]
  exact exact.binary_eq

theorem binary_units_of_near {k : ℕ} (reads : r = binary (k / 10 ^ places))
    (near : |k - r * 10 ^ places| < 1 / 2) : binary (units places r / 10 ^ places) = r := by
  have shown : halfEven (r * 10 ^ places) = k :=
    halfEven_eq (mul_nonneg nonneg (by positivity)) near
  rw [units, abs_of_nonneg nonneg, shown]
  exact reads.symm

theorem binary_units_of_small (few : places ≤ 22) (limited : Limited places r)
    (small : r * 10 ^ places < 2 ^ 52) : binary (units places r / 10 ^ places) = r := by
  rcases limited with huge | ⟨k, reads⟩
  · linarith
  by_cases zero : k = 0
  · simp [reads, zero]
  · have error := (abs_binary_div_mul_sub_le (normal_div few zero)).2
    rw [← reads, abs_sub_comm] at error
    apply binary_units_of_near nonneg reads
    linarith

section

variable {e : ℤ} (fine : -1022 ≤ e)
include fine

/-- With a unit wider than the spacing the number has no more than `2^53` of them, and is less than
half a unit away from the decimal that it was read from. -/
theorem binary_units_of_wide (limited : Limited places r) (high : r < 2 ^ (e + 1))
    (wide : 2 ^ (e - 53) * 10 ^ places < (1 / 2 : ℚ)) :
    binary (units places r / 10 ^ places) = r := by
  have size : (0 : ℚ) < 10 ^ places := by positivity
  have top : r * 10 ^ places < 2 ^ 53 := by
    rw [zpow_shift (b := e - 53) 54 (by omega)] at high
    nlinarith
  obtain ⟨k, reads⟩ := limited.resolve_left (not_le.2 top)
  have inside : |(k / 10 ^ places : ℚ)| < 2 ^ (e + 1) := by
    rw [abs_of_nonneg (by positivity)]
    exact lt_of_binary_lt (isBinary_zpow (by omega)) (reads ▸ high)
  have error := mul_le_mul_of_nonneg_right (abs_binary_sub_le_zpow fine inside) size.le
  rw [← reads, abs_sub_comm, abs_div_sub_mul size] at error
  exact binary_units_of_near nonneg reads (error.trans_lt wide)

variable (exact : IsBinary r)
include exact

theorem binary_units_of_equal (low : 2 ^ e ≤ r) (equal : 2 ^ (e - 53) * 10 ^ places = (1 / 2 : ℚ)) :
    binary (units places r / 10 ^ places) = r := by
  have step : (2 : ℚ) ^ (e - 52) = 2 ^ 1 * 2 ^ (e - 53) := zpow_shift 1 (by omega)
  obtain ⟨j, own⟩ := exact.exists_eq fine (low.trans (le_abs_self r))
  have whole : r * 10 ^ places = j := by
    rw [own, step]
    linear_combination (2 * j : ℚ) * equal
  have count : (0 : ℚ) ≤ j := by
    rw [← whole]
    positivity
  obtain ⟨j, rfl⟩ := Int.eq_ofNat_of_zero_le (a := j) (by exact_mod_cast count)
  exact binary_units_of_whole nonneg exact (by exact_mod_cast whole)

theorem binary_units_of_narrow (above : 2 ^ e < r)
    (narrow : (1 / 2 : ℚ) < 2 ^ (e - 53) * 10 ^ places) :
    binary (units places r / 10 ^ places) = r := by
  have size : (0 : ℚ) < 10 ^ places := by positivity
  have near := abs_halfEven_sub_le (mul_nonneg nonneg size.le)
  rw [← abs_div_sub_mul size] at near
  apply exact.binary_eq_of_near fine above
  rw [units, abs_of_nonneg nonneg]
  exact lt_of_mul_lt_mul_right (near.trans_lt narrow) size.le

end

/-- What is shown of a number with so many places reads back as the number. A power of two stands
apart, since the spacing below it is narrower than the one above. -/
theorem binary_units_div (exact : IsBinary r) (few : places ≤ 22) (limited : Limited places r) :
    binary (units places r / 10 ^ places) = r := by
  have size : (0 : ℚ) < 10 ^ places := by positivity
  rcases lt_or_ge (r * 10 ^ places) (2 ^ 52) with small | large
  · exact binary_units_of_small nonneg few limited small
  have normal : 2 ^ (-1022 : ℤ) ≤ r := by
    have least := normal_div (k := 2 ^ 52) few (by decide)
    rw [Nat.cast_pow, Nat.cast_ofNat] at least
    exact least.trans ((div_le_iff₀ size).2 large)
  obtain ⟨e, fine, low, high⟩ := exists_zpow_between normal
  rcases low.eq_or_lt with power | above
  · rw [← power] at large
    obtain ⟨j, whole⟩ := exists_natCast_zpow_mul few large
    exact binary_units_of_whole nonneg exact (power ▸ whole)
  rcases lt_trichotomy (2 ^ (e - 53) * 10 ^ places : ℚ) (1 / 2) with wide | equal | narrow
  · exact binary_units_of_wide nonneg fine limited high wide
  · exact binary_units_of_equal nonneg fine exact low equal
  · exact binary_units_of_narrow nonneg fine exact above narrow

end

namespace Binary64

section

variable {x : Binary64} (xFinite : x.isFinite = true)
include xFinite

theorem limited_roundTo (few : places ≤ 22) : Limited places |(x.roundTo places).value| := by
  have size : (0 : ℚ) < 10 ^ places := by positivity
  by_cases kept : Kept places x.value
  · rw [(roundTo_spec xFinite places).2.1 kept]
    rw [kept_iff, power_eq few] at kept
    by_cases large : 2 ^ 53 / 10 ^ places ≤ |x.value|
    · exact .inl ((div_le_iff₀ size).1 large)
    · -- Between the quotient and what it is rounded to there is no other number.
      have below := le_binary (isBinary_abs_iff.2 x.isBinary_value) (not_le.1 large).le
      refine .inr ⟨2 ^ 53, ?_⟩
      rw [Nat.cast_pow, Nat.cast_ofNat]
      exact le_antisymm below kept
  · exact .inr ⟨_, abs_value_roundTo_eq xFinite few kept⟩

theorem limited_limitTo (round : Bool) (few : places ≤ 22) :
    Limited places |(x.limitTo round places).value| := by
  cases round with
  | true => exact limited_roundTo xFinite few
  | false =>
    obtain ⟨negative, m, rfl⟩ := exists_of_isFinite xFinite
    exact .inr ⟨_, abs_value_truncateTo_eq negative m places⟩

theorem binary_textValue (round : Bool) (few : places ≤ 22) :
    binary (textValue ((x.limitTo round places).abs.fixed places)) =
      |(x.limitTo round places).value| := by
  obtain ⟨finite, -⟩ := limitTo_spec xFinite round places
  have exact := isBinary_abs_iff.2 (x.limitTo round places).isBinary_value
  rw [textValue_fixed_abs finite, ← units_abs]
  exact binary_units_div (abs_nonneg _) exact few (limited_limitTo xFinite round few)

end

/-- Up to 22 places the fixed text of a limited number reads back as its magnitude, which is the
number nearest to the decimal of the text. -/
theorem ofChars_fixed_limitTo {x : Binary64} (xFinite : x.isFinite = true) (round : Bool)
    (few : places ≤ 22) :
    let n := x.limitTo round places
    n.abs.IsRounded false (textValue (n.abs.fixed places)) ∧
      ofChars (n.abs.fixed places) = n.abs := by
  intro n
  obtain ⟨finite, -⟩ := limitTo_spec xFinite round places
  have back : binary (textValue (n.abs.fixed places)) = |n.value| :=
    binary_textValue xFinite round few
  rw [textValue_fixed_abs finite, ← Decimal.value_places] at back ⊢
  have read : Decimal.toBinary64 false ⟨units places n.value, -places⟩ = n.abs := by
    obtain ⟨m, same, value⟩ := Decimal.toBinary64_spec (back.trans_lt n.abs_value_lt) false
    rw [same, abs_eq_finite finite (value.trans back)]
  constructor
  · rw [← read]
    exact Decimal.isRounded_toBinary64 _ false
  · rw [fixed_abs finite, ← read]
    exact Decimal.ofChars_signed_plain false _

theorem ofChars_fixed_limitTo_hundredths :
    let n := (Decimal.toBinary64 false ⟨1005, -3⟩).limitTo true 2
    n.abs.IsRounded false (textValue (n.abs.fixed 2)) ∧ ofChars (n.abs.fixed 2) = n.abs :=
  ofChars_fixed_limitTo (by decide +kernel) true (by decide)

end Binary64

end DigitMask
