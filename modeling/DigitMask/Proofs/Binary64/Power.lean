import DigitMask.Proofs.Binary64.Whole

/-! Powers of ten by repeated squaring. Every product adds one rounding error to those of its
factors, so that `10^n` carries at most `n` of them; up to `10^22` all products are exact. -/
namespace DigitMask

/-- The number with these binary digits, the lowest first. -/
def ofBits : List Bool → ℕ
  | [] => 0
  | bit :: bits => bit.toNat + 2 * ofBits bits

theorem ofBits_map_testBit (n k : ℕ) : ofBits ((List.range k).map n.testBit) = n % 2 ^ k := by
  induction k generalizing n with
  | zero => simp [ofBits, Nat.mod_one]
  | succ k ih =>
    have shifted : (n.testBit ∘ Nat.succ) = (n / 2).testBit := by
      funext i; exact Nat.testBit_succ n i
    have lowest : (n.testBit 0).toNat = n % 2 := by
      rw [Nat.testBit_zero]
      rcases Nat.mod_two_eq_zero_or_one n with even | odd
      · rw [even]; rfl
      · rw [odd]; rfl
    rw [List.range_succ_eq_map, List.map_cons, List.map_map, shifted, ofBits, ih, Nat.pow_succ',
      Nat.mod_mul, lowest]

namespace Binary64

theorem ofBits_bits (n : ℕ) : ofBits (bits n) = n := by
  rw [bits, ofBits_map_testBit, Nat.mod_eq_of_lt Nat.lt_log2_self]

theorem selectPowers_of_zero (product x : Binary64) {digits : List Bool}
    (zero : ofBits digits = 0) : selectPowers product x digits = product := by
  induction digits generalizing product x with
  | nil => rfl
  | cons digit digits ih =>
    have parts : digit.toNat = 0 ∧ ofBits digits = 0 := by rw [ofBits] at zero; omega
    cases digit with
    | false => exact ih product (x * x) parts.2
    | true => cases parts.1

/-- A finite number within `errors` roundings of `10^n`. -/
structure NearTenPow (x : Binary64) (n errors : ℕ) : Prop where
  isFinite : x.isFinite = true
  lower : (10 : ℚ) ^ n * (1 - 1 / 2 ^ 53) ^ errors ≤ x.value
  upper : x.value ≤ 10 ^ n * (1 + 1 / 2 ^ 53) ^ errors
  exact : n ≤ 22 → x.value = 10 ^ n

theorem isBinary_tenPow {n : ℕ} (few : n ≤ 22) : IsBinary (10 ^ n) := by
  have small : |(5 : ℤ) ^ n| ≤ 2 ^ 53 := by
    rw [abs_of_nonneg (by positivity)]
    exact (pow_le_pow_right₀ (by decide) few).trans (by norm_num)
  have exact := isBinary_mul_zpow (e := n) small (by omega)
  rw [Int.cast_pow, zpow_natCast, ← mul_pow] at exact
  norm_num at exact
  exact exact

/-- So few errors stay far below half a unit of eleven decimal places. -/
theorem errors_le {errors : ℕ} (few : errors ≤ 308) :
    (1 + 1 / 2 ^ 53 : ℚ) ^ errors ≤ 1 + 1 / 2 ^ 44 ∧
      1 - 1 / 2 ^ 44 ≤ (1 - 1 / 2 ^ 53 : ℚ) ^ errors := by
  have count : (errors : ℚ) ≤ 308 := by exact_mod_cast few
  have lower : 1 - 308 / 2 ^ 53 ≤ (1 - 1 / 2 ^ 53 : ℚ) ^ errors := by
    have bernoulli := one_add_mul_le_pow (a := (-1 / 2 ^ 53 : ℚ)) (by norm_num) errors
    have same : (1 + -1 / 2 ^ 53 : ℚ) = 1 - 1 / 2 ^ 53 := by norm_num
    rw [same] at bernoulli
    linarith
  refine ⟨?_, le_trans (by norm_num) lower⟩
  have product : (1 + 1 / 2 ^ 53 : ℚ) ^ errors * (1 - 1 / 2 ^ 53) ^ errors ≤ 1 := by
    rw [← mul_pow]
    exact pow_le_one₀ (by norm_num) (by norm_num)
  have positive : (0 : ℚ) ≤ (1 + 1 / 2 ^ 53) ^ errors := by positivity
  nlinarith

theorem tenPow_lt_limit {n : ℕ} (few : n ≤ 308) : (10 : ℚ) ^ n * (1 + 1 / 2 ^ 44) < 2 ^ 1024 := by
  have whole : 10 ^ 308 * (2 ^ 44 + 1) < 2 ^ 1024 * 2 ^ 44 := by decide +kernel
  have whole : (10 : ℚ) ^ 308 * (2 ^ 44 + 1) < 2 ^ 1024 * 2 ^ 44 := by exact_mod_cast whole
  have monotone : (10 : ℚ) ^ n ≤ 10 ^ 308 := pow_le_pow_right₀ (by norm_num) few
  have scaled : (10 : ℚ) ^ 308 * (1 + 1 / 2 ^ 44) < 2 ^ 1024 := by
    have common : (1 + 1 / 2 ^ 44 : ℚ) * 2 ^ 44 = 2 ^ 44 + 1 := by norm_num
    rwa [← mul_lt_mul_iff_of_pos_right (by positivity : (0 : ℚ) < 2 ^ 44), mul_assoc, common]
  exact (mul_le_mul_of_nonneg_right monotone (by norm_num)).trans_lt scaled

namespace NearTenPow

variable {x y : Binary64} {a b i j : ℕ}

theorem value_pos (near : NearTenPow x a i) : 0 < x.value :=
  lt_of_lt_of_le (mul_pos (by positivity) (pow_pos (by norm_num) i)) near.lower

theorem mul (left : NearTenPow x a i) (right : NearTenPow y b j) (few : a + b ≤ 308)
    (accurate : i + j + 1 ≤ 308) : NearTenPow (x * y) (a + b) (i + j + 1) := by
  obtain ⟨finite, rounds⟩ := mul_spec left.isFinite right.isFinite
  have leftPos := left.value_pos
  have rightPos := right.value_pos
  have lower : (10 : ℚ) ^ (a + b) * (1 - 1 / 2 ^ 53) ^ (i + j) ≤ x.value * y.value :=
    calc (10 : ℚ) ^ (a + b) * (1 - 1 / 2 ^ 53) ^ (i + j) =
          10 ^ a * (1 - 1 / 2 ^ 53) ^ i * (10 ^ b * (1 - 1 / 2 ^ 53) ^ j) := by ring
      _ ≤ x.value * y.value :=
          mul_le_mul left.lower right.lower
            (mul_nonneg (by positivity) (pow_nonneg (by norm_num) j)) leftPos.le
  have upper : x.value * y.value ≤ (10 : ℚ) ^ (a + b) * (1 + 1 / 2 ^ 53) ^ (i + j) :=
    calc x.value * y.value ≤ 10 ^ a * (1 + 1 / 2 ^ 53) ^ i * (10 ^ b * (1 + 1 / 2 ^ 53) ^ j) :=
          mul_le_mul left.upper right.upper rightPos.le (by positivity)
      _ = (10 : ℚ) ^ (a + b) * (1 + 1 / 2 ^ 53) ^ (i + j) := by ring
  have positive : 0 < x.value * y.value := mul_pos leftPos rightPos
  -- Far above the least numbers a rounding adds one relative error.
  have large : (2 : ℚ) ^ (-1022 : ℤ) ≤ |x.value * y.value| := by
    have bound := (@errors_le (i + j) (by omega)).2
    have one : (1 : ℚ) ≤ 10 ^ (a + b) := one_le_pow₀ (by norm_num)
    have half : 1 / 2 ≤ x.value * y.value :=
      calc (1 / 2 : ℚ) ≤ 1 * (1 - 1 / 2 ^ 44) := by norm_num
        _ ≤ 10 ^ (a + b) * (1 - 1 / 2 ^ 53) ^ (i + j) :=
          mul_le_mul one bound (by norm_num) (by positivity)
        _ ≤ x.value * y.value := lower
    rw [abs_of_pos positive]
    refine le_trans ?_ half
    rw [show (1 / 2 : ℚ) = 2 ^ (-1 : ℤ) by norm_num]
    exact zpow_le_zpow_right₀ one_le_two (by decide)
  have error := (abs_binary_sub_le_mul large).1
  rw [abs_of_pos positive] at error
  obtain ⟨below, above⟩ := abs_le.1 error
  have roundedLower : (10 : ℚ) ^ (a + b) * (1 - 1 / 2 ^ 53) ^ (i + j + 1) ≤
      binary (x.value * y.value) := by
    calc (10 : ℚ) ^ (a + b) * (1 - 1 / 2 ^ 53) ^ (i + j + 1) =
          10 ^ (a + b) * (1 - 1 / 2 ^ 53) ^ (i + j) * (1 - 1 / 2 ^ 53) := by ring
      _ ≤ x.value * y.value * (1 - 1 / 2 ^ 53) :=
          mul_le_mul_of_nonneg_right lower (by norm_num)
      _ ≤ binary (x.value * y.value) := by linarith
  have roundedUpper : binary (x.value * y.value) ≤
      (10 : ℚ) ^ (a + b) * (1 + 1 / 2 ^ 53) ^ (i + j + 1) := by
    calc binary (x.value * y.value) ≤ x.value * y.value * (1 + 1 / 2 ^ 53) := by linarith
      _ ≤ 10 ^ (a + b) * (1 + 1 / 2 ^ 53) ^ (i + j) * (1 + 1 / 2 ^ 53) :=
          mul_le_mul_of_nonneg_right upper (by norm_num)
      _ = (10 : ℚ) ^ (a + b) * (1 + 1 / 2 ^ 53) ^ (i + j + 1) := by ring
  have small : |binary (x.value * y.value)| < 2 ^ 1024 := by
    rw [abs_of_nonneg (binary_nonneg positive.le)]
    refine roundedUpper.trans_lt (lt_of_le_of_lt ?_ (tenPow_lt_limit few))
    exact mul_le_mul_of_nonneg_left (errors_le accurate).1 (by positivity)
  have finite := finite.2 small
  refine ⟨finite, (rounds finite).symm ▸ roundedLower, (rounds finite).symm ▸ roundedUpper, ?_⟩
  intro exponent
  rw [rounds finite, left.exact (by omega), right.exact (by omega), ← pow_add,
    (isBinary_tenPow exponent).binary_eq]

end NearTenPow

/-- The squares run ahead of the product, and all that are used stay in range. -/
theorem selectPowers_near {product x : Binary64} {a b i : ℕ} {digits : List Bool}
    (near : NearTenPow product a i) (square : NearTenPow x b (b - 1)) (positive : 0 < b)
    (accurate : i ≤ a) (few : a + b * ofBits digits ≤ 308) :
    ∃ errors ≤ a + b * ofBits digits,
      NearTenPow (selectPowers product x digits) (a + b * ofBits digits) errors := by
  induction digits generalizing product x a b i with
  | nil =>
    rw [ofBits, Nat.mul_zero, Nat.add_zero]
    exact ⟨i, accurate, near⟩
  | cons digit digits ih =>
    have total : a + b * ofBits (digit :: digits) =
        a + b * digit.toNat + (b + b) * ofBits digits := by
      rw [ofBits]; ring
    rw [total] at few ⊢
    -- The product after this digit.
    obtain ⟨errors, accurate, next⟩ : ∃ errors ≤ a + b * digit.toNat,
        NearTenPow (if digit then product * x else product) (a + b * digit.toNat) errors := by
      cases digit with
      | false => exact ⟨i, by simpa using accurate, by simpa using near⟩
      | true =>
        rw [Bool.toNat_true, Nat.mul_one] at few ⊢
        exact ⟨i + (b - 1) + 1, by omega, near.mul square (by omega) (by omega)⟩
    rw [selectPowers]
    by_cases zero : ofBits digits = 0
    · rw [selectPowers_of_zero _ _ zero, zero, Nat.mul_zero, Nat.add_zero]
      exact ⟨errors, accurate, next⟩
    · have room : (b + b) * 1 ≤ (b + b) * ofBits digits :=
        Nat.mul_le_mul_left _ (Nat.one_le_iff_ne_zero.2 zero)
      have squared := square.mul square (by omega) (by omega)
      rw [show b - 1 + (b - 1) + 1 = b + b - 1 by omega] at squared
      exact ih next squared (by omega) accurate few

theorem pow_ten_near {n : ℕ} (few : n ≤ 308) : ∃ errors ≤ n, NearTenPow (ten.pow n) n errors := by
  obtain ⟨oneFinite, oneValue⟩ := ofNat_spec (n := 1) (by norm_num)
  obtain ⟨tenFinite, tenValue⟩ := ofNat_spec (n := 10) (by norm_num)
  have one : NearTenPow (ofNat 1) 0 0 :=
    ⟨oneFinite, by rw [oneValue]; norm_num, by rw [oneValue]; norm_num,
      fun _ => by rw [oneValue]; norm_num⟩
  have ten : NearTenPow ten 1 (1 - 1) :=
    ⟨tenFinite, by rw [Binary64.ten, tenValue]; norm_num, by rw [Binary64.ten, tenValue]; norm_num,
      fun _ => by rw [Binary64.ten, tenValue]; norm_num⟩
  have powers := @selectPowers_near _ _ _ _ _ (bits n) one ten one_pos le_rfl
    (by rw [ofBits_bits]; omega)
  rw [ofBits_bits, Nat.zero_add, Nat.one_mul] at powers
  exact powers

end Binary64
end DigitMask
