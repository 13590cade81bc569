import DigitMask.Proofs.Decimal.Shortest
import DigitMask.Proofs.Units

/-! What truncating to decimal places gives: the number read from the shortest decimal cut there.
A number that was read from so few places is kept. -/
namespace DigitMask

variable {places : ℕ}

/-- Rounding leaves more than a half, unless it leaves nothing. -/
theorem half_lt_binary {r : ℚ} (large : 2 ^ (-1074 : ℤ) ≤ r) : r / 2 < binary r := by
  obtain ⟨e, fine, low, high⟩ := exists_zpow_between large
  have kept := le_binary (isBinary_zpow fine) low
  rw [zpow_add_one₀ two_ne_zero] at high
  linarith

theorem IsBinary.zpow_le_of_pos {q : ℚ} (exact : IsBinary q) (positive : 0 < q) :
    2 ^ (-1074 : ℤ) ≤ q := by
  obtain ⟨n, -, same⟩ := exact
  rw [abs_of_pos positive, unit_cast] at same
  have count : 0 < n := by
    have : (0 : ℚ) < n := by rw [← same]; positivity
    exact_mod_cast this
  have one : (1 : ℚ) ≤ n := by exact_mod_cast count
  rw [zpow_neg, inv_le_iff_one_le_mul₀ (by positivity), same]
  exact one

/-- What is read from so many places does not carry over when it is shown with them. -/
theorem settled_binary_div (places k : ℕ) : Settled places (binary (k / 10 ^ places)) := by
  have size : (0 : ℚ) < 10 ^ places := by positivity
  have nonneg : (0 : ℚ) ≤ binary (k / 10 ^ places) := binary_nonneg (by positivity)
  refine ⟨.inr (.inr ⟨k, abs_of_nonneg nonneg⟩), ?_⟩
  rw [abs_of_nonneg nonneg]
  rcases nonneg.eq_or_lt' with zero | positive
  · exact .inl zero
  right
  have count : k ≠ 0 := by rintro rfl; simp at positive
  have one : (1 : ℚ) ≤ k := by exact_mod_cast Nat.one_le_iff_ne_zero.2 count
  have unit : (1 : ℚ) ≤ k / 10 ^ places * 10 ^ places := by rwa [div_mul_cancel₀ _ size.ne']
  rcases le_or_gt (2 ^ (-1074 : ℤ)) (k / 10 ^ places : ℚ) with large | small
  · have := mul_lt_mul_of_pos_right (half_lt_binary large) size
    linarith
  · have least := (isBinary_binary (k / 10 ^ places)).zpow_le_of_pos positive
    have := mul_lt_mul_of_pos_right (small.trans_le least) size
    linarith

theorem settled_abs_iff {q : ℚ} : Settled places |q| ↔ Settled places q := by
  constructor
  · rintro ⟨fine, visible⟩
    rw [abs_abs] at fine visible
    exact ⟨fine, visible.imp_left abs_eq_zero.1⟩
  · rintro ⟨fine, visible⟩
    refine ⟨by rwa [abs_abs], ?_⟩
    rw [abs_abs]
    exact visible.imp_left abs_eq_zero.2

theorem Magnitude.cut_lt (m : Magnitude) (places : ℕ) :
    binary (m.shortest.cut places).value < 2 ^ 1024 := by
  have bound := binary_mono (m.shortest.value_cut_le places)
  rw [m.binary_value_shortest] at bound
  exact bound.trans_lt m.value_lt

namespace Binary64

theorem truncateTo_spec (negative : Bool) (m : Magnitude) (places : ℕ) :
    ((finite negative m).truncateTo places).isFinite = true ∧
      ((finite negative m).truncateTo places).value =
        if negative then -binary (m.shortest.cut places).value
        else binary (m.shortest.cut places).value := by
  obtain ⟨n, same, value⟩ := Decimal.toBinary64_spec (m.cut_lt places) negative
  rw [truncateTo, isFinite_unsignZero, value_unsignZero, same, value_finite, value]
  exact ⟨rfl, rfl⟩

theorem isFinite_truncateTo {x : Binary64} (xFinite : x.isFinite = true) (places : ℕ) :
    (x.truncateTo places).isFinite = true := by
  obtain ⟨negative, m, rfl⟩ := exists_of_isFinite xFinite
  exact (truncateTo_spec negative m places).1

theorem abs_value_truncateTo (negative : Bool) (m : Magnitude) (places : ℕ) :
    |((finite negative m).truncateTo places).value| = binary (m.shortest.cut places).value := by
  rw [(truncateTo_spec negative m places).2]
  have nonneg := binary_nonneg (m.shortest.cut places).value_nonneg
  cases negative <;> simp [abs_of_nonneg nonneg]

/-- The whole units of the shortest decimal are left. -/
theorem abs_value_truncateTo_eq (negative : Bool) (m : Magnitude) (places : ℕ) :
    |((finite negative m).truncateTo places).value| =
      binary (⌊m.shortest.value * 10 ^ places⌋₊ / 10 ^ places) := by
  rw [abs_value_truncateTo, Decimal.value_cut_eq]

theorem truncateTo_settled {x : Binary64} (xFinite : x.isFinite = true) (places : ℕ) :
    Settled places (x.truncateTo places).value := by
  obtain ⟨negative, m, rfl⟩ := exists_of_isFinite xFinite
  rw [← settled_abs_iff, abs_value_truncateTo_eq]
  exact settled_binary_div places _

/-- A number read from a decimal with so many places is not truncated. -/
theorem value_truncateTo_of_decimal {x : Binary64} (xFinite : x.isFinite = true) {k : ℕ}
    (reads : |x.value| = binary (k / 10 ^ places)) : (x.truncateTo places).value = x.value := by
  obtain ⟨negative, m, rfl⟩ := exists_of_isFinite xFinite
  rw [abs_value_finite] at reads
  have few := Magnitude.le_exponent_shortest reads.symm
  rw [(truncateTo_spec negative m places).2, Decimal.cut_eq_self few, m.binary_value_shortest,
    value_finite]

theorem unsignZero_truncateTo (x : Binary64) (places : ℕ) :
    (x.truncateTo places).unsignZero = x.truncateTo places := by
  cases x with
  | finite negative m => exact unsignZero_unsignZero _
  | _ => rfl

theorem truncateTo_eq_zero_or (negative : Bool) (m : Magnitude) (places : ℕ) :
    (finite negative m).truncateTo places = zero ∨ ∃ n : Magnitude, n.quanta ≠ 0 ∧
      (finite negative m).truncateTo places = finite negative n := by
  obtain ⟨n, same, -⟩ := Decimal.toBinary64_spec (m.cut_lt places) negative
  rw [truncateTo, same]
  by_cases none : n.quanta = 0
  · left
    apply unsignZero_of_isZero
    simp [isZero, none]
  · right
    refine ⟨n, none, if_neg ?_⟩
    simp [isZero, none]

theorem truncateTo_truncateTo {x : Binary64} (xFinite : x.isFinite = true) (places : ℕ) :
    (x.truncateTo places).truncateTo places = x.truncateTo places := by
  have once := isFinite_truncateTo xFinite places
  have twice := isFinite_truncateTo once places
  have value : ((x.truncateTo places).truncateTo places).value = (x.truncateTo places).value := by
    obtain ⟨negative, m, rfl⟩ := exists_of_isFinite xFinite
    exact value_truncateTo_of_decimal once (abs_value_truncateTo_eq negative m places)
  calc (x.truncateTo places).truncateTo places
      = ((x.truncateTo places).truncateTo places).unsignZero := (unsignZero_truncateTo _ _).symm
    _ = (x.truncateTo places).unsignZero := unsignZero_congr twice once value
    _ = x.truncateTo places := unsignZero_truncateTo x places

end Binary64
end DigitMask
