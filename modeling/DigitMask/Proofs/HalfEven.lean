import DigitMask.Integer
import Mathlib.Algebra.Order.Floor.Semifield
import Mathlib.Data.Rat.Floor
import Mathlib.Tactic

/-! Rounding rational numbers to natural ones. `halfEven_div` says that a quotient is rounded as
the rational number it stands for. -/
namespace DigitMask

/-- The natural number nearest to `q`; halfway between two it is the even one. -/
def halfEven (q : ℚ) : ℕ :=
  if q - ⌊q⌋₊ < 1 / 2 ∨ (q - ⌊q⌋₊ = 1 / 2 ∧ ⌊q⌋₊ % 2 = 0) then ⌊q⌋₊ else ⌊q⌋₊ + 1

theorem halfEven_div (num : ℕ) {den : ℕ} (positive : 0 < den) :
    halfEven (num / den) = roundQuotient num den := by
  have size : (0 : ℚ) < den := by exact_mod_cast positive
  have split : (num : ℚ) = den * (num / den : ℕ) + (num % den : ℕ) := by
    exact_mod_cast (Nat.div_add_mod num den).symm
  have rest : (num : ℚ) / den - (num / den : ℕ) = (num % den : ℕ) / den := by
    rw [eq_div_iff size.ne', sub_mul, div_mul_cancel₀ _ size.ne']
    linarith
  have less : (num : ℚ) / den - (num / den : ℕ) < 1 / 2 ↔ 2 * (num % den) < den := by
    rw [rest, div_lt_div_iff₀ size two_pos, one_mul, mul_comm]
    exact_mod_cast Iff.rfl
  have tie : (num : ℚ) / den - (num / den : ℕ) = 1 / 2 ↔ 2 * (num % den) = den := by
    rw [rest, div_eq_div_iff size.ne' two_ne_zero, one_mul, mul_comm]
    exact_mod_cast Iff.rfl
  simp only [halfEven, Nat.floor_div_eq_div, less, tie, roundQuotient]

theorem halfEven_bounds {q : ℚ} (nonneg : 0 ≤ q) :
    (halfEven q : ℚ) - q ≤ 1 / 2 ∧ q - halfEven q ≤ 1 / 2 := by
  have low := Nat.floor_le nonneg
  have high := Nat.lt_floor_add_one q
  unfold halfEven
  split
  · next h => rcases h with h | h <;> constructor <;> linarith
  · next h =>
    have far : 1 / 2 ≤ q - ⌊q⌋₊ := not_lt.1 fun near => h (.inl near)
    push_cast
    constructor <;> linarith

theorem abs_halfEven_sub_le {q : ℚ} (nonneg : 0 ≤ q) : |(halfEven q : ℚ) - q| ≤ 1 / 2 := by
  obtain ⟨above, below⟩ := halfEven_bounds nonneg
  exact abs_le.2 ⟨by linarith, above⟩

theorem halfEven_even_of_tie {q : ℚ} (nonneg : 0 ≤ q) (tie : |(halfEven q : ℚ) - q| = 1 / 2) :
    halfEven q % 2 = 0 := by
  have low := Nat.floor_le nonneg
  have high := Nat.lt_floor_add_one q
  unfold halfEven at tie ⊢
  split at tie
  · next h =>
    rw [if_pos h]
    rw [abs_sub_comm, abs_of_nonneg (by linarith)] at tie
    rcases h with h | h
    · linarith
    · exact h.2
  · next h =>
    rw [if_neg h]
    push_cast at tie
    rw [abs_of_nonneg (by linarith)] at tie
    have half : q - ⌊q⌋₊ = 1 / 2 := by linarith
    have odd : ¬ ⌊q⌋₊ % 2 = 0 := fun even => h (.inr ⟨half, even⟩)
    omega

/-- Two natural numbers cannot both be nearer than one half. -/
theorem one_le_of_ne {q : ℚ} {j k : ℕ} (different : j ≠ k) : 1 ≤ |(j : ℚ) - q| + |(k : ℚ) - q| := by
  have apart : (1 : ℤ) ≤ |(j : ℤ) - k| := Int.one_le_abs (by omega)
  have triangle : |(j : ℚ) - k| ≤ |(j : ℚ) - q| + |q - k| := abs_sub_le _ _ _
  rw [abs_sub_comm q] at triangle
  exact le_trans (by exact_mod_cast apart) triangle

/-- What is nearest, or as near as another and even, is what is rounded to. -/
theorem halfEven_eq_of_near {q : ℚ} (nonneg : 0 ≤ q) {k : ℕ} (near : |(k : ℚ) - q| ≤ 1 / 2)
    (tie : |(k : ℚ) - q| = 1 / 2 → k % 2 = 0) : halfEven q = k := by
  have own := abs_halfEven_sub_le nonneg
  by_contra other
  have apart := one_le_of_ne (q := q) other
  -- Both are at a distance of one half, so they are neighbours and both even.
  have first := halfEven_even_of_tie nonneg (by linarith)
  have second := tie (by linarith)
  have above : (halfEven q : ℚ) ≤ k + 1 := by linarith [abs_le.1 own, abs_le.1 near]
  have below : (k : ℚ) ≤ halfEven q + 1 := by linarith [abs_le.1 own, abs_le.1 near]
  have above : halfEven q ≤ k + 1 := by exact_mod_cast above
  have below : k ≤ halfEven q + 1 := by exact_mod_cast below
  omega

theorem halfEven_eq {q : ℚ} (nonneg : 0 ≤ q) {k : ℕ} (near : |(k : ℚ) - q| < 1 / 2) :
    halfEven q = k :=
  halfEven_eq_of_near nonneg near.le fun tie => absurd tie near.ne

@[simp] theorem halfEven_natCast (n : ℕ) : halfEven n = n :=
  halfEven_eq n.cast_nonneg (by simp)

theorem halfEven_mono {p q : ℚ} (nonneg : 0 ≤ p) (le : p ≤ q) : halfEven p ≤ halfEven q := by
  by_contra less
  have apart : (halfEven q : ℚ) + 1 ≤ halfEven p := by exact_mod_cast not_le.1 less
  obtain ⟨above, -⟩ := halfEven_bounds nonneg
  obtain ⟨-, below⟩ := halfEven_bounds (nonneg.trans le)
  -- Then both are half way between the two, and are the same number.
  have same : p = q := by linarith
  rw [same] at apart
  linarith

theorem halfEven_le {q : ℚ} (nonneg : 0 ≤ q) {k : ℕ} (le : q ≤ k) : halfEven q ≤ k := by
  simpa using halfEven_mono nonneg le

theorem le_halfEven {q : ℚ} {k : ℕ} (le : (k : ℚ) ≤ q) : k ≤ halfEven q := by
  simpa using halfEven_mono k.cast_nonneg le

/-- No natural number is nearer. -/
theorem abs_halfEven_sub_le_abs {q : ℚ} (nonneg : 0 ≤ q) (k : ℕ) :
    |(halfEven q : ℚ) - q| ≤ |(k : ℚ) - q| := by
  by_cases same : halfEven q = k
  · rw [same]
  · have own := abs_halfEven_sub_le nonneg
    have apart := one_le_of_ne (q := q) same
    linarith

end DigitMask
