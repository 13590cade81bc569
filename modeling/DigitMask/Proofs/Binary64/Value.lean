import DigitMask.Proofs.Binary64.Rational
import DigitMask.Rounding

/-! The rational numbers that finite binary64 numbers stand for. Every operation on finite numbers
is the operation on their values, rounded once; its result is finite exactly if the rounded value
is less than `2^1024`. -/
namespace DigitMask

namespace Magnitude

def value (m : Magnitude) : ℚ := m.quanta / unit

theorem value_nonneg (m : Magnitude) : 0 ≤ m.value := by
  have := unit_cast_pos; unfold value; positivity

theorem value_mul_unit (m : Magnitude) : m.value * unit = m.quanta :=
  div_mul_cancel₀ _ unit_cast_pos.ne'

theorem isBinary_value (m : Magnitude) : IsBinary m.value :=
  ⟨m.quanta, m.aligned_quanta, by rw [abs_of_nonneg m.value_nonneg, value_mul_unit]⟩

theorem quanta_lt_iff {n : ℕ} {q : ℚ} (same : (n : ℚ) = q * unit) :
    n < overflow ↔ q < 2 ^ 1024 := by
  have size := unit_cast_pos
  have limit : (overflow : ℚ) = 2 ^ 1024 * unit := by
    rw [overflow, unit, twoPow_cast, twoPow_cast, ← pow_add]
  rw [← Nat.cast_lt (α := ℚ), same, limit, mul_lt_mul_iff_of_pos_right size]

theorem value_lt (m : Magnitude) : m.value < 2 ^ 1024 :=
  (quanta_lt_iff m.value_mul_unit.symm).1 m.finite

theorem value_injective {m n : Magnitude} (same : m.value = n.value) : m = n := by
  ext
  have : (m.quanta : ℚ) = n.quanta := by rw [← value_mul_unit, ← value_mul_unit, same]
  exact_mod_cast this

@[simp] theorem value_zero : zero.value = 0 := by simp [value, zero]

theorem quanta_eq_zero_iff (m : Magnitude) : m.quanta = 0 ↔ m.value = 0 := by
  have size := unit_cast_pos
  rw [value, div_eq_zero_iff, Nat.cast_eq_zero]
  exact (or_iff_left size.ne').symm

theorem exists_value_eq {q : ℚ} (exact : IsBinary q) (nonneg : 0 ≤ q) (small : q < 2 ^ 1024) :
    ∃ m : Magnitude, m.value = q := by
  obtain ⟨n, aligned, same⟩ := exact
  rw [abs_of_nonneg nonneg] at same
  refine ⟨⟨n, Nat.mod_eq_zero_of_dvd aligned, (quanta_lt_iff same.symm).2 small⟩, ?_⟩
  rw [value, ← same, mul_div_cancel_right₀ _ unit_cast_pos.ne']

theorem nearest_eq_some_iff_binary (num : ℕ) {den : ℕ} (positive : 0 < den) (m : Magnitude) :
    nearest num den = some m ↔ binary (num / (den * unit)) = m.value := by
  have size := unit_cast_pos
  rw [nearest_eq_some_iff num positive, binary_of_nonneg (by positivity), value,
    div_left_inj' size.ne', ← div_div, div_mul_cancel₀ _ size.ne']
  exact_mod_cast Iff.rfl

theorem nearest_eq_none_iff_binary (num : ℕ) {den : ℕ} (positive : 0 < den) :
    nearest num den = none ↔ 2 ^ 1024 ≤ binary (num / (den * unit)) := by
  have size := unit_cast_pos
  have same : (rounded (num / den) : ℚ) = binary (num / (den * unit)) * unit := by
    rw [binary_of_nonneg (by positivity), div_mul_cancel₀ _ size.ne', ← div_div,
      div_mul_cancel₀ _ size.ne']
  rw [nearest_eq_none_iff num positive, ← not_lt, ← not_lt, quanta_lt_iff same]

end Magnitude

namespace Binary64

/-- Zero for what is not finite. -/
def value : Binary64 → ℚ
  | finite negative m => if negative then -m.value else m.value
  | _ => 0

theorem exists_of_isFinite {x : Binary64} (isFinite : x.isFinite = true) :
    ∃ negative m, x = finite negative m := by
  cases x with
  | finite negative m => exact ⟨negative, m, rfl⟩
  | _ => cases isFinite

@[simp] theorem isFinite_finite (negative : Bool) (m : Magnitude) :
    (finite negative m).isFinite = true := rfl

theorem value_finite (negative : Bool) (m : Magnitude) :
    (finite negative m).value = if negative then -m.value else m.value := rfl

theorem abs_value_finite (negative : Bool) (m : Magnitude) :
    |(finite negative m).value| = m.value := by
  cases negative <;> simp [value_finite, abs_of_nonneg m.value_nonneg]

theorem isBinary_value (x : Binary64) : IsBinary x.value := by
  cases x with
  | finite negative m =>
    rw [← isBinary_abs_iff, abs_value_finite]; exact m.isBinary_value
  | _ => exact ⟨0, Nat.dvd_zero _, by simp [value]⟩

theorem abs_value_lt (x : Binary64) : |x.value| < 2 ^ 1024 := by
  cases x with
  | finite negative m => rw [abs_value_finite]; exact m.value_lt
  | _ => simp [value]

theorem signed_quanta (negative : Bool) (m : Magnitude) :
    (signed negative m.quanta : ℚ) = (finite negative m).value * unit := by
  cases negative <;> simp [signed, value_finite, m.value_mul_unit]

/-- What a result with this sign and this exact magnitude is rounded to. -/
theorem ofQuanta_spec (negative : Bool) (num : ℕ) {den : ℕ} (positive : 0 < den) {q : ℚ}
    (exact : q = if negative then -(num / (den * unit) : ℚ) else num / (den * unit)) :
    ((ofQuanta negative num den).isFinite = true ↔ |binary q| < 2 ^ 1024) ∧
      ((ofQuanta negative num den).isFinite = true →
        (ofQuanta negative num den).value = binary q) := by
  have size := unit_cast_pos
  have nonneg : (0 : ℚ) ≤ num / (den * unit) := by positivity
  have magnitude : |binary q| = binary (num / (den * unit)) := by
    rw [exact, abs_binary_ite negative nonneg]
  rw [magnitude, ofQuanta]
  cases found : Magnitude.nearest num den with
  | none =>
    have large := (Magnitude.nearest_eq_none_iff_binary num positive).1 found
    have infinite : (ofNearest negative none).isFinite ≠ true := Bool.false_ne_true
    exact ⟨⟨fun finite => absurd finite infinite, fun small => absurd small (not_lt.2 large)⟩,
      fun finite => absurd finite infinite⟩
  | some m =>
    have rounds := (Magnitude.nearest_eq_some_iff_binary num positive m).1 found
    refine ⟨⟨fun _ => rounds ▸ m.value_lt, fun _ => rfl⟩, fun _ => ?_⟩
    rw [ofNearest, value_finite, ← rounds, exact]
    cases negative <;> simp

section Operations

variable {x y : Binary64} (xFinite : x.isFinite = true) (yFinite : y.isFinite = true)
include xFinite yFinite

theorem mul_spec : ((x * y).isFinite = true ↔ |binary (x.value * y.value)| < 2 ^ 1024) ∧
    ((x * y).isFinite = true → (x * y).value = binary (x.value * y.value)) := by
  obtain ⟨a, m, rfl⟩ := exists_of_isFinite xFinite
  obtain ⟨b, n, rfl⟩ := exists_of_isFinite yFinite
  refine ofQuanta_spec (a != b) (m.quanta * n.quanta) unit_pos ?_
  have product : ((m.quanta * n.quanta : ℕ) : ℚ) / (unit * unit) = m.value * n.value := by
    rw [Nat.cast_mul, mul_div_mul_comm]; rfl
  rw [product]
  cases a <;> cases b <;> simp [value_finite]

theorem div_spec (nonzero : y.value ≠ 0) :
    ((x / y).isFinite = true ↔ |binary (x.value / y.value)| < 2 ^ 1024) ∧
    ((x / y).isFinite = true → (x / y).value = binary (x.value / y.value)) := by
  obtain ⟨a, m, rfl⟩ := exists_of_isFinite xFinite
  obtain ⟨b, n, rfl⟩ := exists_of_isFinite yFinite
  have size := unit_cast_pos
  have divisor : n.quanta ≠ 0 := by
    rw [ne_eq, Magnitude.quanta_eq_zero_iff, ← abs_value_finite b, abs_eq_zero]; exact nonzero
  have quotient : finite a m / finite b n = ofQuanta (a != b) (m.quanta * unit) n.quanta :=
    if_neg divisor
  rw [quotient]
  refine ofQuanta_spec (a != b) _ (Nat.pos_of_ne_zero divisor) ?_
  have ratio : ((m.quanta * unit : ℕ) : ℚ) / (n.quanta * unit) = m.value / n.value := by
    rw [Nat.cast_mul, Magnitude.value, Magnitude.value, mul_div_mul_right _ _ size.ne',
      div_div_div_cancel_right₀ size.ne']
  rw [ratio]
  cases a <;> cases b <;> simp [value_finite, neg_div, div_neg]

theorem add_spec : ((x + y).isFinite = true ↔ |binary (x.value + y.value)| < 2 ^ 1024) ∧
    ((x + y).isFinite = true → (x + y).value = binary (x.value + y.value)) := by
  obtain ⟨a, m, rfl⟩ := exists_of_isFinite xFinite
  obtain ⟨b, n, rfl⟩ := exists_of_isFinite yFinite
  have size := unit_cast_pos
  have sum : ((signed a m.quanta + signed b n.quanta : ℤ) : ℚ) =
      ((finite a m).value + (finite b n).value) * unit := by
    rw [Int.cast_add, signed_quanta, signed_quanta, add_mul]
  have unfolded : finite a m + finite b n = if signed a m.quanta + signed b n.quanta = 0 then
      finite (a && b) .zero else ofQuanta (decide (signed a m.quanta + signed b n.quanta < 0))
        (signed a m.quanta + signed b n.quanta).natAbs 1 := rfl
  rw [unfolded]
  generalize signed a m.quanta + signed b n.quanta = total at sum
  split
  · next zero =>
    have none : (finite a m).value + (finite b n).value = 0 := by
      rw [zero, Int.cast_zero, zero_eq_mul] at sum
      exact sum.resolve_right size.ne'
    rw [none]
    cases a <;> cases b <;> simp [value_finite]
  · refine ofQuanta_spec _ _ one_pos ?_
    rw [← mul_left_inj' size.ne', ← sum, Nat.cast_natAbs]
    rcases le_or_gt 0 total with nonneg | less
    · rw [if_neg (by simpa using nonneg), abs_of_nonneg nonneg]; field_simp; simp
    · rw [if_pos (by simpa using less), abs_of_neg less]; field_simp; simp

end Operations

@[simp] theorem isFinite_neg (x : Binary64) : x.neg.isFinite = x.isFinite := by cases x <;> rfl

@[simp] theorem value_neg (x : Binary64) : x.neg.value = -x.value := by
  cases x with
  | finite negative m => cases negative <;> simp [neg, value_finite]
  | _ => simp [neg, value]

@[simp] theorem isFinite_abs (x : Binary64) : x.abs.isFinite = x.isFinite := by cases x <;> rfl

@[simp] theorem value_abs (x : Binary64) : x.abs.value = |x.value| := by
  cases x with
  | finite negative m => rw [abs_value_finite]; rfl
  | _ => simp [abs, value]

@[simp] theorem value_zero : zero.value = 0 := Magnitude.value_zero

theorem sub_spec {x y : Binary64} (xFinite : x.isFinite = true) (yFinite : y.isFinite = true) :
    ((x - y).isFinite = true ↔ |binary (x.value - y.value)| < 2 ^ 1024) ∧
    ((x - y).isFinite = true → (x - y).value = binary (x.value - y.value)) := by
  have sum := add_spec xFinite (y := y.neg) (by simpa using yFinite)
  rw [value_neg, ← sub_eq_add_neg] at sum
  exact sum

theorem le_iff {x y : Binary64} (xFinite : x.isFinite = true) (yFinite : y.isFinite = true) :
    x.le y = true ↔ x.value ≤ y.value := by
  obtain ⟨a, m, rfl⟩ := exists_of_isFinite xFinite
  obtain ⟨b, n, rfl⟩ := exists_of_isFinite yFinite
  rw [← mul_le_mul_iff_of_pos_right unit_cast_pos, ← signed_quanta, ← signed_quanta, Int.cast_le]
  exact decide_eq_true_iff

theorem lt_iff {x y : Binary64} (xFinite : x.isFinite = true) (yFinite : y.isFinite = true) :
    x.lt y = true ↔ x.value < y.value := by
  obtain ⟨a, m, rfl⟩ := exists_of_isFinite xFinite
  obtain ⟨b, n, rfl⟩ := exists_of_isFinite yFinite
  rw [← mul_lt_mul_iff_of_pos_right unit_cast_pos, ← signed_quanta, ← signed_quanta, Int.cast_lt]
  exact decide_eq_true_iff

theorem lt_zero_iff {x : Binary64} (xFinite : x.isFinite = true) :
    x.lt zero = true ↔ x.value < 0 := by
  rw [lt_iff xFinite rfl, value_zero]

theorem isZero_iff {x : Binary64} (xFinite : x.isFinite = true) :
    x.isZero = true ↔ x.value = 0 := by
  obtain ⟨a, m, rfl⟩ := exists_of_isFinite xFinite
  rw [← abs_eq_zero, abs_value_finite, ← Magnitude.quanta_eq_zero_iff]
  exact beq_iff_eq

theorem isFinite_unsignZero (x : Binary64) : x.unsignZero.isFinite = x.isFinite := by
  cases x with
  | finite negative m => unfold unsignZero; split <;> rfl
  | _ => rfl

theorem value_unsignZero (x : Binary64) : x.unsignZero.value = x.value := by
  unfold unsignZero
  split
  · next zero =>
    cases x with
    | finite negative m => rw [(isZero_iff rfl).1 zero, value_zero]
    | _ => cases zero
  · rfl

@[simp] theorem unsignZero_unsignZero (x : Binary64) : x.unsignZero.unsignZero = x.unsignZero := by
  by_cases zero : x.isZero = true
  · rw [unsignZero_of_isZero zero]
    rfl
  · have kept : x.unsignZero = x := if_neg zero
    rw [kept, kept]

section Equal

variable {x y : Binary64} (xFinite : x.isFinite = true)
include xFinite

theorem abs_eq_finite {m : Magnitude} (same : m.value = |x.value|) : x.abs = finite false m := by
  obtain ⟨negative, n, rfl⟩ := exists_of_isFinite xFinite
  rw [abs_value_finite] at same
  rw [Magnitude.value_injective same]
  rfl

/-- Numbers of one value differ in the sign of a zero at most. -/
theorem unsignZero_congr (yFinite : y.isFinite = true) (same : x.value = y.value) :
    x.unsignZero = y.unsignZero := by
  by_cases zero : x.value = 0
  · rw [unsignZero_of_isZero ((isZero_iff xFinite).2 zero),
      unsignZero_of_isZero ((isZero_iff yFinite).2 (same ▸ zero))]
  · obtain ⟨a, m, rfl⟩ := exists_of_isFinite xFinite
    obtain ⟨b, n, rfl⟩ := exists_of_isFinite yFinite
    have magnitude : |(finite a m).value| = |(finite b n).value| := by rw [same]
    rw [abs_value_finite, abs_value_finite] at magnitude
    obtain rfl := Magnitude.value_injective magnitude
    have positive : m.value ≠ 0 := by
      rw [← abs_value_finite a]
      exact abs_ne_zero.2 zero
    cases a <;> cases b <;> simp [value_finite, self_eq_neg, neg_eq_self] at same ⊢
    all_goals exact absurd same positive

end Equal

theorem ofQuanta_ne_nan (negative : Bool) (num den : ℕ) : ofQuanta negative num den ≠ nan := by
  rw [ofQuanta]
  cases Magnitude.nearest num den <;> exact fun same => by cases same

section NaN

variable {x y : Binary64} (yFinite : y.isFinite = true)
include yFinite

theorem mul_eq_nan_iff (nonzero : y.value ≠ 0) : x * y = nan ↔ x = nan := by
  obtain ⟨b, n, rfl⟩ := exists_of_isFinite yFinite
  rw [ne_eq, ← isZero_iff yFinite, isZero, beq_iff_eq] at nonzero
  cases x with
  | nan => exact Iff.rfl
  | infinity a => rw [show infinity a * finite b n = infinity (a != b) from if_neg nonzero]; simp
  | finite a m =>
    rw [show finite a m * finite b n = ofQuanta (a != b) (m.quanta * n.quanta) unit from rfl]
    simpa using ofQuanta_ne_nan _ _ _

theorem div_eq_nan_iff (nonzero : y.value ≠ 0) : x / y = nan ↔ x = nan := by
  obtain ⟨b, n, rfl⟩ := exists_of_isFinite yFinite
  rw [ne_eq, ← isZero_iff yFinite, isZero, beq_iff_eq] at nonzero
  cases x with
  | nan => exact Iff.rfl
  | infinity a => simp [show infinity a / finite b n = infinity (a != b) from rfl]
  | finite a m =>
    rw [show finite a m / finite b n = ofQuanta (a != b) (m.quanta * unit) n.quanta from
      if_neg nonzero]
    simpa using ofQuanta_ne_nan _ _ _

theorem add_eq_nan_iff : x + y = nan ↔ x = nan := by
  obtain ⟨b, n, rfl⟩ := exists_of_isFinite yFinite
  cases x with
  | nan => exact Iff.rfl
  | infinity a => simp [show infinity a + finite b n = infinity a from rfl]
  | finite a m =>
    have sum : finite a m + finite b n = if signed a m.quanta + signed b n.quanta = 0 then
        finite (a && b) .zero else ofQuanta (decide (signed a m.quanta + signed b n.quanta < 0))
          (signed a m.quanta + signed b n.quanta).natAbs 1 := rfl
    rw [sum]
    split
    · simp
    · simpa using ofQuanta_ne_nan _ _ _

end NaN

end Binary64
end DigitMask
