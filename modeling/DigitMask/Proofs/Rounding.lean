import DigitMask.Proofs.Binary64.Power
import DigitMask.Proofs.Units

/-! What rounding to decimal places gives: either the number itself, when it is great enough, or
the quotient of a whole number and the power of ten, rounded once. -/
namespace DigitMask

variable {q : ℚ}

theorem binary_le_mul (large : 2 ^ (-1022 : ℤ) ≤ q) :
    binary q ≤ q * (1 + 1 / 2 ^ 53) ∧ q * (1 - 1 / 2 ^ 53) ≤ binary q := by
  have nonneg : 0 ≤ q := (zpow_pos two_pos _).le.trans large
  have error := (abs_binary_sub_le_mul (q := q) (by rwa [abs_of_nonneg nonneg])).1
  rw [abs_of_nonneg nonneg] at error
  obtain ⟨below, above⟩ := abs_le.1 error
  exact ⟨by linarith, by linarith⟩

/-- What is less than one beyond `2^53` is rounded back to it, since the spacing is two there. -/
theorem binary_le_of_lt (less : q < 2 ^ 53 + 1) : binary q ≤ 2 ^ 53 := by
  rcases le_or_gt q (2 ^ 53) with small | large
  · exact binary_le (isBinary_pow 53) small
  have bottom : (2 : ℚ) ^ (53 : ℤ) ≤ |binary q| :=
    (le_binary (isBinary_zpow (by decide)) (by exact_mod_cast large.le)).trans (le_abs_self _)
  obtain ⟨k, same⟩ := (isBinary_binary q).exists_eq (by decide) bottom
  have double : binary q = 2 * k := by rw [same]; norm_num; ring
  have near := abs_binary_sub_le (q := q) (isBinary_pow 53)
  rw [abs_sub_comm (2 ^ 53) q, abs_of_pos (by linarith : 0 < q - 2 ^ 53)] at near
  have bound : (2 * k : ℚ) < 2 ^ 53 + 2 := by linarith [(abs_le.1 near).2]
  have bound : 2 * k < 2 ^ 53 + 2 := by exact_mod_cast bound
  have bound : 2 * k ≤ 2 ^ 53 := by omega
  rw [double]
  exact_mod_cast bound

theorem abs_floor_add_half_sub_le (q : ℚ) : |(⌊q + 1 / 2⌋ : ℚ) - q| ≤ 1 / 2 := by
  have low := Int.floor_le (q + 1 / 2)
  have high := Int.lt_floor_add_one (q + 1 / 2)
  exact abs_le.2 ⟨by linarith, by linarith⟩

theorem abs_floor_add_half_le {k : ℤ} (bound : |q| ≤ k) : |⌊q + 1 / 2⌋| ≤ k := by
  obtain ⟨below, above⟩ := abs_le.1 bound
  apply abs_le.2
  constructor
  · apply Int.le_floor.2
    push_cast
    linarith
  · apply Int.lt_add_one_iff.1 (Int.floor_lt.2 ?_)
    push_cast
    linarith

/-- A half goes up, so below zero the magnitude grows only beyond the half. -/
theorem le_abs_floor_add_half_iff {k : ℤ} :
    k ≤ |⌊q + 1 / 2⌋| ↔ k - 1 / 2 ≤ q ∨ q < -(k - 1 / 2 : ℚ) := by
  have above : k ≤ ⌊q + 1 / 2⌋ ↔ k - 1 / 2 ≤ q := by
    rw [Int.le_floor, sub_le_iff_le_add]
  have below : k ≤ -⌊q + 1 / 2⌋ ↔ q < -(k - 1 / 2 : ℚ) := by
    rw [le_neg, ← Int.lt_add_one_iff, Int.floor_lt]
    push_cast
    constructor <;> intro less <;> linarith
  rw [le_abs, above, below]

namespace Binary64

/-- The power of ten that numbers are scaled by, as it was computed. -/
def power (places : ℕ) : ℚ := (ten.pow (min places maxPlaces)).value

theorem isFinite_power (places : ℕ) : (ten.pow (min places maxPlaces)).isFinite = true := by
  obtain ⟨errors, -, near⟩ := pow_ten_near (n := min places maxPlaces) (Nat.min_le_right _ _)
  exact near.isFinite

theorem power_eq {places : ℕ} (few : places ≤ 22) : power places = 10 ^ places := by
  have least : min places maxPlaces = places := Nat.min_eq_left (by unfold maxPlaces; omega)
  obtain ⟨errors, -, near⟩ := pow_ten_near (n := places) (by omega)
  rw [power, least, near.exact few]

theorem power_bounds (places : ℕ) :
    10 ^ min places 308 * (1 - 1 / 2 ^ 44) ≤ power places ∧
      power places ≤ 10 ^ min places 308 * (1 + 1 / 2 ^ 44) := by
  obtain ⟨errors, few, near⟩ := pow_ten_near (n := min places maxPlaces) (Nat.min_le_right _ _)
  obtain ⟨upper, lower⟩ := errors_le (few.trans (Nat.min_le_right _ _))
  exact ⟨(mul_le_mul_of_nonneg_left lower (by positivity)).trans near.lower,
    near.upper.trans (mul_le_mul_of_nonneg_left upper (by positivity))⟩

theorem half_le_power (places : ℕ) : 1 / 2 ≤ power places := by
  have one : (1 : ℚ) ≤ 10 ^ min places 308 := one_le_pow₀ (by norm_num)
  linarith [(power_bounds places).1]

theorem power_pos (places : ℕ) : 0 < power places := by linarith [half_le_power places]

theorem le_inv_power (places : ℕ) : (2 : ℚ) ^ (-1025 : ℤ) ≤ 1 / power places := by
  have bound := (power_bounds places).2
  have limit := tenPow_lt_limit (n := min places 308) (Nat.min_le_right _ _)
  have double : (2 : ℚ) ^ (1025 : ℤ) = 2 ^ 1024 * 2 := by
    rw [← pow_succ]; exact zpow_natCast 2 1025
  rw [le_div_iff₀ (power_pos places), zpow_neg, inv_mul_le_iff₀ (by positivity), mul_one, double]
  exact (bound.trans limit.le).trans (le_mul_of_one_le_right (by positivity) one_le_two)

theorem le_whole_div_power (places : ℕ) : (2 : ℚ) ^ (-1022 : ℤ) ≤ 2 ^ 53 / power places := by
  have bound := le_inv_power places
  have steps : (2 : ℚ) ^ (-1022 : ℤ) = 2 ^ 3 * 2 ^ (-1025 : ℤ) := zpow_shift 3 (by decide)
  have positive : (0 : ℚ) < 2 ^ (-1025 : ℤ) := by positivity
  rw [steps, div_eq_mul_one_div]
  nlinarith

/-- The number from which on nothing is rounded away. -/
theorem wholeFrom_div_spec (places : ℕ) :
    (wholeFrom / ten.pow (min places maxPlaces)).isFinite = true ∧
      (wholeFrom / ten.pow (min places maxPlaces)).value = binary (2 ^ 53 / power places) := by
  obtain ⟨finite, value⟩ := ofNat_spec (n := twoPow 53) (by rw [twoPow_eq]; rfl)
  have positive := power_pos places
  obtain ⟨quotientFinite, rounds⟩ := div_spec finite (isFinite_power places) positive.ne'
  rw [value, twoPow_cast] at quotientFinite rounds
  have small : |binary (2 ^ 53 / power places)| < 2 ^ 1024 := by
    rw [abs_of_nonneg (binary_nonneg (by positivity))]
    refine (binary_le (isBinary_pow 54) ?_).trans_lt (pow_lt_limit (by decide))
    rw [div_le_iff₀ positive]
    linarith [half_le_power places]
  exact ⟨quotientFinite.2 small, rounds (quotientFinite.2 small)⟩

/-- The whole number of places that a number is rounded to, before it is scaled back. -/
def wholePlaces (places : ℕ) (v : ℚ) : ℤ := ⌊binary (v * power places) + 1 / 2⌋

/-- Where the number is kept: scaling it would carry it out of range, or it has no more digits. -/
def Kept (places : ℕ) (v : ℚ) : Prop :=
  2 ^ 1024 ≤ |binary (v * power places)| ∨ binary (2 ^ 53 / power places) ≤ |v|

section

variable {places : ℕ} {v : ℚ}

theorem abs_mul_power_lt (less : |v| < binary (2 ^ 53 / power places)) :
    |v * power places| < 2 ^ 53 + 1 := by
  have positive := power_pos places
  have bound := (binary_le_mul (le_whole_div_power places)).1
  rw [abs_mul, abs_of_pos positive]
  calc |v| * power places < binary (2 ^ 53 / power places) * power places :=
        mul_lt_mul_of_pos_right less positive
    _ ≤ 2 ^ 53 / power places * (1 + 1 / 2 ^ 53) * power places :=
        mul_le_mul_of_nonneg_right bound positive.le
    _ = 2 ^ 53 + 1 := by field_simp

theorem abs_scaled_le (less : |v| < binary (2 ^ 53 / power places)) :
    |binary (v * power places)| ≤ 2 ^ 53 := by
  rw [← binary_abs]
  exact binary_le_of_lt (abs_mul_power_lt less)

theorem kept_iff : Kept places v ↔ binary (2 ^ 53 / power places) ≤ |v| := by
  refine ⟨fun kept => ?_, .inr⟩
  rcases kept with out | great
  · by_contra less
    have scaled := abs_scaled_le (not_le.1 less)
    exact absurd (out.trans scaled) (not_le.2 (pow_lt_limit (by decide)))
  · exact great

theorem abs_wholePlaces_le (rounds : ¬ Kept places v) : |wholePlaces places v| ≤ 2 ^ 53 := by
  rw [kept_iff, not_le] at rounds
  apply abs_floor_add_half_le
  exact_mod_cast abs_scaled_le rounds

theorem abs_binary_wholePlaces_div_le (rounds : ¬ Kept places v) :
    |binary (wholePlaces places v / power places)| ≤ binary (2 ^ 53 / power places) := by
  have positive := power_pos places
  have few : |(wholePlaces places v : ℚ)| ≤ 2 ^ 53 := by exact_mod_cast abs_wholePlaces_le rounds
  rw [← binary_abs, abs_div, abs_of_pos positive]
  exact binary_mono (div_le_div_of_nonneg_right few positive.le)

end

/-- Rounding to decimal places, told on values. -/
theorem roundTo_spec {x : Binary64} (xFinite : x.isFinite = true) (places : ℕ) :
    (x.roundTo places).isFinite = true ∧
      (Kept places x.value → (x.roundTo places).value = x.value) ∧
      (¬ Kept places x.value →
        (x.roundTo places).value = binary (wholePlaces places x.value / power places)) := by
  obtain ⟨limitFinite, limit⟩ := wholeFrom_div_spec places
  obtain ⟨scaledFinite, scaled⟩ := mul_spec xFinite (isFinite_power places)
  have kept : (!(x * ten.pow (min places maxPlaces)).isFinite ||
      (wholeFrom / ten.pow (min places maxPlaces)).le x.abs) = true ↔ Kept places x.value := by
    rw [Bool.or_eq_true, le_iff limitFinite (by rw [isFinite_abs, xFinite]), limit, value_abs,
      Bool.not_eq_true', ← Bool.not_eq_true, scaledFinite, not_lt]
    rfl
  rw [roundTo]
  split
  · next keeps =>
    rw [isFinite_unsignZero, value_unsignZero]
    exact ⟨xFinite, fun _ => rfl, fun rounds => absurd (kept.1 keeps) rounds⟩
  · next rounds =>
    rw [kept] at rounds
    have finite := scaledFinite.2 (not_le.1 fun le => rounds (.inl le))
    obtain ⟨wholeFinite, whole⟩ := roundHalfUp_spec finite
    obtain ⟨quotientFinite, quotient⟩ :=
      div_spec wholeFinite (isFinite_power places) (power_pos places).ne'
    have same : ((x * ten.pow (min places maxPlaces)).roundHalfUp).value =
        (wholePlaces places x.value : ℚ) := by rw [whole, scaled finite]; rfl
    rw [same] at quotientFinite quotient
    have small : |binary (wholePlaces places x.value / power places)| < 2 ^ 1024 := by
      refine (abs_binary_wholePlaces_div_le rounds).trans_lt ((le_abs_self _).trans_lt ?_)
      rw [← limit]
      exact abs_value_lt _
    have finite := quotientFinite.2 small
    rw [isFinite_unsignZero, value_unsignZero]
    exact ⟨finite, fun keeps => absurd keeps rounds, fun _ => quotient finite⟩

theorem isFinite_of_mul {x y : Binary64} (finite : (x * y).isFinite = true) :
    x.isFinite = true := by
  cases x with
  | nan => cases finite
  | finite => rfl
  | infinity a =>
    cases y with
    | nan => cases finite
    | infinity b => cases finite
    | finite b n =>
      have product : infinity a * .finite b n = if n.quanta = 0 then nan else infinity (a != b) :=
        rfl
      rw [product] at finite
      split at finite <;> cases finite

theorem roundTo_infinity (negative : Bool) (places : ℕ) :
    (infinity negative).roundTo places = infinity negative := by
  have beyond : (infinity negative * ten.pow (min places maxPlaces)).isFinite = false :=
    Bool.eq_false_iff.2 fun finite => Bool.false_ne_true (isFinite_of_mul finite)
  exact if_pos (by rw [beyond]; rfl)

theorem roundTo_eq_nan_iff (x : Binary64) (places : ℕ) : x.roundTo places = nan ↔ x = nan := by
  constructor
  · cases x with
    | nan => exact fun _ => rfl
    | infinity negative =>
      rw [roundTo_infinity]
      exact id
    | finite negative m =>
      intro same
      have finite := (roundTo_spec (isFinite_finite negative m) places).1
      rw [same] at finite
      cases finite
  · rintro rfl
    rfl

theorem power_le (places : ℕ) : power places ≤ 10 ^ places * (1 + 1 / 2 ^ 44) := by
  have more : (10 : ℚ) ^ min places 308 ≤ 10 ^ places :=
    pow_le_pow_right₀ (by norm_num) (Nat.min_le_left _ _)
  exact (power_bounds places).2.trans (mul_le_mul_of_nonneg_right more (by norm_num))

theorem Kept.le_mul_power {places : ℕ} {v : ℚ} (kept : Kept places v) :
    2 ^ 53 - 1 ≤ |v| * power places := by
  have positive := power_pos places
  have whole := kept_iff.1 kept
  have bound := (binary_le_mul (le_whole_div_power places)).2
  calc (2 : ℚ) ^ 53 - 1 = 2 ^ 53 / power places * (1 - 1 / 2 ^ 53) * power places := by
        field_simp
    _ ≤ |v| * power places := mul_le_mul_of_nonneg_right (bound.trans whole) positive.le

/-- A number that is kept has all its digits before the last place. -/
theorem Kept.le_mul {places : ℕ} {v : ℚ} (kept : Kept places v) : 2 ^ 52 ≤ |v| * 10 ^ places := by
  have upper := mul_le_mul_of_nonneg_left (power_le places) (abs_nonneg v)
  have scaled := kept.le_mul_power
  norm_num at scaled upper ⊢
  linarith

theorem quarters_le_binary {r : ℚ} (large : 2 ^ (-1025 : ℤ) ≤ r) : 3 / 4 * r ≤ binary r := by
  have positive : 0 < r := lt_of_lt_of_le (by positivity) large
  have error : |binary r - r| ≤ r / 4 := by
    rcases le_or_gt (2 ^ (-1022 : ℤ)) r with normal | subnormal
    · have error := (abs_binary_sub_le_mul (normal.trans (le_abs_self r))).1
      rw [abs_of_pos positive] at error
      linarith
    · have less : |r| < 2 ^ (-1022 + 1 : ℤ) := by
        rw [abs_of_pos positive]
        exact subnormal.trans (zpow_lt_zpow_right₀ one_lt_two (by decide))
      have error := abs_binary_sub_le_zpow le_rfl less
      have steps : (2 : ℚ) ^ (-1025 : ℤ) = 2 ^ 50 * 2 ^ (-1022 - 53 : ℤ) :=
        zpow_shift 50 (by decide)
      rw [steps] at large
      linarith
  linarith [(abs_le.1 error).1]

theorem half_lt_binary_div_power_mul (places : ℕ) {k : ℤ} (nonzero : k ≠ 0) :
    1 / 2 < |binary (k / power places)| * 10 ^ places := by
  have positive := power_pos places
  have one : (1 : ℚ) ≤ |(k : ℚ)| := by exact_mod_cast Int.one_le_abs nonzero
  have least : 3 / 4 * (1 / power places) ≤ |binary (k / power places)| := by
    rw [← binary_abs, abs_div, abs_of_pos positive]
    exact (quarters_le_binary (le_inv_power places)).trans
      (binary_mono (div_le_div_of_nonneg_right one positive.le))
  have bound : 3 / 4 ≤ |binary (k / power places)| * 10 ^ places * (1 + 1 / 2 ^ 44) :=
    calc 3 / 4 = 3 / 4 * (1 / power places) * power places := by field_simp
      _ ≤ |binary (k / power places)| * (10 ^ places * (1 + 1 / 2 ^ 44)) :=
        mul_le_mul least (power_le places) positive.le (abs_nonneg _)
      _ = |binary (k / power places)| * 10 ^ places * (1 + 1 / 2 ^ 44) := by ring
  norm_num at bound ⊢
  linarith

theorem abs_value_roundTo_eq {x : Binary64} (xFinite : x.isFinite = true) {places : ℕ}
    (few : places ≤ 22) (rounds : ¬ Kept places x.value) :
    |(x.roundTo places).value| = binary ((wholePlaces places x.value).natAbs / 10 ^ places) := by
  have size : (0 : ℚ) < 10 ^ places := by positivity
  rw [(roundTo_spec xFinite places).2.2 rounds, power_eq few, ← binary_abs, abs_div,
    abs_of_pos size, Nat.cast_natAbs, Int.cast_abs]

theorem roundTo_settled {x : Binary64} (xFinite : x.isFinite = true) (places : ℕ) :
    Settled places (x.roundTo places).value := by
  obtain ⟨-, keeps, rounds⟩ := roundTo_spec xFinite places
  by_cases kept : Kept places x.value
  · have large := kept.le_mul
    rw [keeps kept]
    exact ⟨.inl large, .inr (by linarith)⟩
  constructor
  · rcases le_or_gt places 22 with few | many
    · exact .inr (.inr ⟨_, abs_value_roundTo_eq xFinite few kept⟩)
    · exact .inr (.inl many)
  · rw [rounds kept]
    by_cases zero : wholePlaces places x.value = 0
    · rw [zero]; simp
    · exact .inr (half_lt_binary_div_power_mul places zero)

theorem wholePlaces_nonneg {places : ℕ} {v : ℚ} (nonneg : 0 ≤ v) : 0 ≤ wholePlaces places v := by
  have scaled := binary_nonneg (mul_nonneg nonneg (power_pos places).le)
  exact Int.floor_nonneg.2 (by linarith)

theorem wholePlaces_nonpos {places : ℕ} {v : ℚ} (nonpos : v ≤ 0) : wholePlaces places v ≤ 0 := by
  have scaled : binary (v * power places) ≤ 0 := by
    have := binary_mono (mul_nonpos_of_nonpos_of_nonneg nonpos (power_pos places).le)
    rwa [binary_zero] at this
  refine Int.lt_add_one_iff.1 (Int.floor_lt.2 ?_)
  push_cast
  linarith

theorem roundTo_sign {x : Binary64} (xFinite : x.isFinite = true) (places : ℕ) :
    (0 ≤ x.value → 0 ≤ (x.roundTo places).value) ∧
      (x.value ≤ 0 → (x.roundTo places).value ≤ 0) := by
  obtain ⟨-, keeps, rounds⟩ := roundTo_spec xFinite places
  have positive := power_pos places
  by_cases kept : Kept places x.value
  · rw [keeps kept]; exact ⟨id, id⟩
  rw [rounds kept]
  constructor
  · intro nonneg
    have whole : (0 : ℚ) ≤ wholePlaces places x.value := by
      exact_mod_cast wholePlaces_nonneg nonneg
    exact binary_nonneg (div_nonneg whole positive.le)
  · intro nonpos
    have whole : (wholePlaces places x.value : ℚ) ≤ 0 := by
      exact_mod_cast wholePlaces_nonpos nonpos
    have := binary_mono (div_nonpos_of_nonpos_of_nonneg whole positive.le)
    rwa [binary_zero] at this

/-- No negative zero is left. -/
theorem unsignZero_roundTo (x : Binary64) (places : ℕ) :
    (x.roundTo places).unsignZero = x.roundTo places := by
  rw [roundTo]
  split
  · exact unsignZero_unsignZero _
  · exact unsignZero_unsignZero _

theorem roundTo_of_value_zero {x : Binary64} (xFinite : x.isFinite = true) (zero : x.value = 0)
    (places : ℕ) : x.roundTo places = .zero := by
  obtain ⟨nonneg, nonpos⟩ := roundTo_sign xFinite places
  have finite := (roundTo_spec xFinite places).1
  rw [← unsignZero_roundTo]
  exact unsignZero_of_isZero ((isZero_iff finite).2 (le_antisymm (nonpos zero.le) (nonneg zero.ge)))

end Binary64
end DigitMask
