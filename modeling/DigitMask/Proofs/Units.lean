import DigitMask.Proofs.Binary64.Whole

/-! Binary numbers as they are shown with a number of decimal places: as whole numbers of units of
the last place, a half going to the even one. -/
namespace DigitMask

variable {q : ℚ} {places : ℕ}

def units (places : ℕ) (q : ℚ) : ℕ := halfEven (|q| * 10 ^ places)

@[simp] theorem units_zero (places : ℕ) : units places 0 = 0 := by
  rw [units, abs_zero, zero_mul]; exact_mod_cast halfEven_natCast 0

@[simp] theorem units_abs (places : ℕ) (q : ℚ) : units places |q| = units places q := by
  rw [units, abs_abs, units]

theorem halfEven_lt {q : ℚ} (nonneg : 0 ≤ q) {k : ℕ} (less : q + 1 / 2 < k) : halfEven q < k := by
  have bound := (halfEven_bounds nonneg).1
  have below : (halfEven q : ℚ) < k := by linarith
  exact_mod_cast below

theorem halfEven_pos (large : 1 / 2 < q) : 0 < halfEven q := by
  have bound := (halfEven_bounds (q := q) (by linarith)).2
  have above : (0 : ℚ) < halfEven q := by linarith
  exact_mod_cast above

/-- What is shown and read again is shown in the same way, though it may be another number. -/
theorem units_binary_units (exact : IsBinary q) (places : ℕ) :
    units places (binary (units places q / 10 ^ places)) = units places q := by
  have size : (0 : ℚ) < 10 ^ places := by positivity
  set shown := units places q with own
  -- The number shown is no farther from what is read than from its decimal.
  have nearer := abs_binary_sub_le (q := shown / 10 ^ places) (isBinary_abs_iff.2 exact)
  have nearer := mul_le_mul_of_nonneg_right nearer size.le
  rw [abs_sub_comm, abs_div_sub_mul size, abs_sub_comm |q|, abs_div_sub_mul size] at nearer
  have nonneg : 0 ≤ |q| * 10 ^ places := by positivity
  have half : |(shown : ℚ) - |q| * 10 ^ places| ≤ 1 / 2 := abs_halfEven_sub_le nonneg
  rw [units, abs_of_nonneg (binary_nonneg (by positivity))]
  refine halfEven_eq_of_near (mul_nonneg (binary_nonneg (by positivity)) size.le)
    (nearer.trans half) fun tie => ?_
  exact halfEven_even_of_tie nonneg (le_antisymm half (tie ▸ nearer))

/-- A number that does not carry over into its whole part when it is shown. -/
structure Settled (places : ℕ) (q : ℚ) : Prop where
  fine : 2 ^ 52 ≤ |q| * 10 ^ places ∨ 22 < places ∨ ∃ k : ℕ, |q| = binary (k / 10 ^ places)
  visible : q = 0 ∨ 1 / 2 < |q| * 10 ^ places

theorem Settled.units_eq_zero_iff (settled : Settled places q) : units places q = 0 ↔ q = 0 := by
  constructor
  · intro none
    rcases settled.visible with zero | large
    · exact zero
    · exact absurd none (halfEven_pos large).ne'
  · rintro rfl; exact units_zero places

theorem IsBinary.add_zpow_le (exact : IsBinary q) {e : ℤ} (fine : -1022 ≤ e) (coarse : e ≤ 52)
    (large : 2 ^ e ≤ q) {n : ℕ} (less : q < n) : q + 2 ^ (e - 52) ≤ n := by
  have step : (0 : ℚ) < 2 ^ (e - 52) := by positivity
  obtain ⟨k, same⟩ := exact.exists_eq fine (large.trans (le_abs_self q))
  obtain ⟨s, shift⟩ := Int.eq_ofNat_of_zero_le (a := 52 - e) (by omega)
  have whole : (n : ℚ) = (n * 2 ^ s : ℤ) * 2 ^ (e - 52) := by
    rw [show e - 52 = -(s : ℤ) by omega, zpow_neg, zpow_natCast]
    push_cast
    field_simp
  rw [whole, same] at less ⊢
  have next : k + 1 ≤ n * 2 ^ s := by
    have := lt_of_mul_lt_mul_right less step.le
    exact_mod_cast this
  have next : (k : ℚ) + 1 ≤ (n * 2 ^ s : ℤ) := by exact_mod_cast next
  nlinarith

/-- The error of reading a decimal, in units of its last place. -/
theorem abs_binary_div_mul_sub_le {k : ℕ} (normal : 2 ^ (-1022 : ℤ) ≤ (k / 10 ^ places : ℚ)) :
    |binary (k / 10 ^ places) * 10 ^ places - k| ≤ k / 2 ^ 53 ∧
      |binary (k / 10 ^ places) * 10 ^ places - k| ≤
        binary (k / 10 ^ places) * 10 ^ places / 2 ^ 53 := by
  have size : (0 : ℚ) < 10 ^ places := by positivity
  have scaled : |binary (k / 10 ^ places) * 10 ^ places - k| =
      |binary (k / 10 ^ places) - k / 10 ^ places| * 10 ^ places := by
    rw [abs_sub_comm, ← abs_div_sub_mul size, abs_sub_comm]
  have nonneg : (0 : ℚ) ≤ k / 10 ^ places := by positivity
  obtain ⟨before, after⟩ := abs_binary_sub_le_mul (normal.trans (le_abs_self _))
  rw [abs_of_nonneg nonneg] at before
  rw [abs_of_nonneg (binary_nonneg nonneg)] at after
  rw [scaled]
  constructor
  · refine (mul_le_mul_of_nonneg_right before size.le).trans_eq ?_
    field_simp
  · refine (mul_le_mul_of_nonneg_right after size.le).trans_eq ?_
    ring

theorem units_binary_div {k : ℕ} (normal : 2 ^ (-1022 : ℤ) ≤ (k / 10 ^ places : ℚ))
    (few : k ≤ 2 ^ 52) : units places (binary (k / 10 ^ places)) = k := by
  have nonneg : (0 : ℚ) ≤ binary (k / 10 ^ places) := binary_nonneg (by positivity)
  have few : (k : ℚ) ≤ 2 ^ 52 := by exact_mod_cast few
  have error := (abs_binary_div_mul_sub_le normal).1
  rw [abs_sub_comm] at error
  rw [units, abs_of_nonneg nonneg]
  refine halfEven_eq_of_near (by positivity) (by linarith) fun tie => ?_
  have top : (k : ℚ) = 2 ^ 52 := by linarith
  have top : k = 2 ^ 52 := by exact_mod_cast top
  rw [top]
  rfl

theorem zpow_lt_half : (2 : ℚ) ^ (-1022 : ℤ) < 1 / 2 := by
  have less : (2 : ℚ) ^ (-1022 : ℤ) < 2 ^ (-1 : ℤ) := zpow_lt_zpow_right₀ one_lt_two (by decide)
  rwa [zpow_neg_one, ← one_div] at less

section Carry

variable {r : ℚ}

/-- From `2^53` on there is nothing to round. -/
theorem exists_natCast_eq (exact : IsBinary r) (large : 2 ^ 53 ≤ r) (places : ℕ) :
    ∃ k : ℕ, r = k ∧ halfEven (r * 10 ^ places) = k * 10 ^ places := by
  obtain ⟨k, whole⟩ :=
    exact.whole_of_le (le_trans (by norm_num) (large.trans (le_abs_self r)))
  have nonneg : (0 : ℚ) ≤ k := by rw [← whole]; exact le_trans (by positivity) large
  obtain ⟨k, rfl⟩ := Int.eq_ofNat_of_zero_le (a := k) (by exact_mod_cast nonneg)
  rw [Int.cast_natCast] at whole
  refine ⟨k, whole, ?_⟩
  rw [whole]
  exact_mod_cast halfEven_natCast (k * 10 ^ places)

theorem units_lt_of_whole (exact : IsBinary r) (large : 2 ^ 53 ≤ r) :
    halfEven (r * 10 ^ places) < (⌊r⌋₊ + 1) * 10 ^ places := by
  obtain ⟨k, whole, same⟩ := exists_natCast_eq exact large places
  rw [same, whole, Nat.floor_natCast]
  exact Nat.mul_lt_mul_of_pos_right (Nat.lt_succ_self k) (by positivity)

theorem units_lt_of_small (nonneg : 0 ≤ r) (small : r < 1 / 2) :
    halfEven (r * 10 ^ places) < (⌊r⌋₊ + 1) * 10 ^ places := by
  have one : (1 : ℚ) ≤ 10 ^ places := one_le_pow₀ (by norm_num)
  have zero : ⌊r⌋₊ = 0 := Nat.floor_eq_zero.2 (by linarith)
  refine halfEven_lt (by positivity) ?_
  rw [zero]
  push_cast
  nlinarith

/-- Between the two the distance to the next whole number is at least half a unit, if there are
so many places or so many digits. -/
theorem units_lt_of_wide (exact : IsBinary r) (large : 1 / 2 ≤ r) (less : r < 2 ^ 53)
    (wide : 2 ^ 52 ≤ r * 10 ^ places ∨ 22 < places) :
    halfEven (r * 10 ^ places) < (⌊r⌋₊ + 1) * 10 ^ places := by
  have nonneg : 0 ≤ r := by linarith
  have size : (0 : ℚ) < 10 ^ places := by positivity
  obtain ⟨e, bottom, lower, -, upper, -⟩ :=
    exists_zpow_le (zpow_lt_half.le.trans (large.trans (le_abs_self r)))
  rw [abs_of_nonneg nonneg] at lower upper
  have coarse : e ≤ 52 := by
    have : (2 : ℚ) ^ e < 2 ^ (53 : ℤ) := lower.trans_lt (by exact_mod_cast less)
    have := (zpow_lt_zpow_iff_right₀ one_lt_two).1 this
    omega
  have gap := exact.add_zpow_le bottom coarse lower (n := ⌊r⌋₊ + 1)
    (by exact_mod_cast Nat.lt_floor_add_one r)
  have half : 1 / 2 < 2 ^ (e - 52) * (10 : ℚ) ^ places := by
    rcases wide with digits | many
    · have top : (2 : ℚ) ^ (e + 1) = 2 ^ 53 * 2 ^ (e - 52) := zpow_shift 53 (by omega)
      rw [top] at upper
      nlinarith
    · have : (2 : ℚ) ^ (-1 : ℤ) < 2 ^ (e + 1) := lt_of_le_of_lt (by norm_num; linarith) upper
      have := (zpow_lt_zpow_iff_right₀ one_lt_two).1 this
      have step : (2 : ℚ) ^ (-53 : ℤ) ≤ 2 ^ (e - 52) := zpow_le_zpow_right₀ one_le_two (by omega)
      have power : (10 : ℚ) ^ 23 ≤ 10 ^ places := pow_le_pow_right₀ (by norm_num) many
      calc (1 / 2 : ℚ) < 2 ^ (-53 : ℤ) * 10 ^ 23 := by norm_num
        _ ≤ 2 ^ (e - 52) * 10 ^ places := mul_le_mul step power (by positivity) (by positivity)
  refine halfEven_lt (by positivity) ?_
  push_cast at gap ⊢
  nlinarith

/-- With fewer digits a decimal is shown as it was before it was rounded to `r`. -/
theorem units_lt_of_decimal {k : ℕ} (same : r = binary (k / 10 ^ places)) (large : 1 / 2 ≤ r)
    (less : r < 2 ^ 53) (few : r * 10 ^ places < 2 ^ 52) :
    halfEven (r * 10 ^ places) < (⌊r⌋₊ + 1) * 10 ^ places := by
  have size : (0 : ℚ) < 10 ^ places := by positivity
  have nonneg : 0 ≤ r := by linarith
  have normal : (2 : ℚ) ^ (-1022 : ℤ) ≤ k / 10 ^ places := by
    by_contra tiny
    have := binary_le (isBinary_zpow (e := -1022) (by decide)) (not_le.1 tiny).le
    linarith [zpow_lt_half]
  have few : k ≤ 2 ^ 52 := by
    have error := (abs_binary_div_mul_sub_le normal).2
    rw [← same] at error
    have : (k : ℚ) < 2 ^ 52 + 1 := by linarith [(abs_le.1 error).1]
    exact Nat.lt_succ_iff.1 (by exact_mod_cast this)
  have shown := units_binary_div normal few
  rw [← same, units, abs_of_nonneg nonneg] at shown
  have above : ⌊r⌋₊ + 1 ≤ 2 ^ 53 := (Nat.floor_lt nonneg).2 (by exact_mod_cast less)
  have whole : IsBinary ((⌊r⌋₊ + 1 : ℤ) : ℚ) :=
    isBinary_intCast (by rw [abs_of_nonneg (by positivity)]; exact_mod_cast above)
  have below : (k : ℚ) / 10 ^ places < ⌊r⌋₊ + 1 := by
    by_contra reaches
    have := le_binary whole (q := k / 10 ^ places) (by push_cast; exact not_lt.1 reaches)
    rw [← same] at this
    push_cast at this
    linarith [Nat.lt_floor_add_one r]
  rw [shown]
  rw [div_lt_iff₀ size] at below
  exact_mod_cast below

end Carry

theorem Settled.div_units (settled : Settled places q) (exact : IsBinary q) :
    units places q / 10 ^ places = ⌊|q|⌋₊ := by
  have exact := isBinary_abs_iff.2 exact
  have fine := settled.fine
  have nonneg := abs_nonneg q
  rw [units]
  generalize |q| = r at exact fine nonneg ⊢
  refine Nat.div_eq_of_lt_le ?_ ?_
  · refine le_halfEven ?_
    push_cast
    exact mul_le_mul_of_nonneg_right (Nat.floor_le nonneg) (by positivity)
  rcases le_or_gt (2 ^ 53) r with huge | less
  · exact units_lt_of_whole exact huge
  rcases lt_or_ge r (1 / 2) with small | large
  · exact units_lt_of_small nonneg small
  rcases le_or_gt (2 ^ 52) (r * 10 ^ places) with digits | few
  · exact units_lt_of_wide exact large less (.inl digits)
  rcases fine with digits | many | ⟨k, same⟩
  · exact absurd digits (not_le.2 few)
  · exact units_lt_of_wide exact large less (.inr many)
  · exact units_lt_of_decimal same large less few

/-- What is less than a whole number does not show it. -/
theorem Settled.units_lt (settled : Settled places q) (exact : IsBinary q) {k : ℕ}
    (less : |q| < k) : units places q < k * 10 ^ places := by
  have size : 0 < 10 ^ places := by positivity
  rw [← Nat.div_lt_iff_lt_mul size, settled.div_units exact]
  exact (Nat.floor_lt (abs_nonneg q)).2 less

theorem units_div_le (small : |q| < 2 ^ 53) (places : ℕ) :
    binary (units places q / 10 ^ places) ≤ 2 ^ 53 := by
  have size : (0 : ℚ) < 10 ^ places := by positivity
  have few : units places q ≤ 2 ^ 53 * 10 ^ places := by
    refine halfEven_le (by positivity) ?_
    push_cast
    exact mul_le_mul_of_nonneg_right small.le size.le
  refine binary_le (isBinary_pow 53) ?_
  rw [div_le_iff₀ size]
  exact_mod_cast few

theorem binary_units_lt (exact : IsBinary q) (small : |q| < 2 ^ 1024) (places : ℕ) :
    binary (units places q / 10 ^ places) < 2 ^ 1024 := by
  have size : (10 : ℚ) ^ places ≠ 0 := by positivity
  rcases le_or_gt (2 ^ 53) |q| with large | less
  · obtain ⟨k, whole, same⟩ :=
      exists_natCast_eq (isBinary_abs_iff.2 exact) large places
    rw [units, same, Nat.cast_mul, Nat.cast_pow, Nat.cast_ofNat, mul_div_cancel_right₀ _ size,
      ← whole, (isBinary_abs_iff.2 exact).binary_eq]
    exact small
  · have nonneg : 0 ≤ binary (units places q / 10 ^ places) :=
      binary_nonneg (div_nonneg (Nat.cast_nonneg _) (pow_nonneg (by norm_num) places))
    refine (le_abs_self _).trans_lt (abs_lt_of_le ?_)
    rw [abs_of_nonneg nonneg]
    exact units_div_le less places

end DigitMask
