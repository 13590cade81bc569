import DigitMask.Binary64.Magnitude
import DigitMask.Proofs.HalfEven

/-! Rounding to the magnitudes, in quanta and without a greatest one. Aligned counts of quanta
are kept, the order is kept, and no aligned count is nearer; `nearest_eq_some_iff` says that this
is how magnitudes are rounded. -/
namespace DigitMask

theorem twoPow_cast (n : ℕ) : (twoPow n : ℚ) = 2 ^ n := by
  rw [twoPow_eq]; exact_mod_cast rfl

theorem tenPow_cast (n : ℕ) : (tenPow n : ℚ) = 10 ^ n := by
  rw [tenPow_eq]; exact_mod_cast rfl

theorem log2_le {m n : ℕ} (le : m ≤ n) : m.log2 ≤ n.log2 := by
  by_cases zero : m = 0
  · rw [zero, Nat.log2_zero]; exact Nat.zero_le _
  · exact (le_log2_iff (by omega)).2 ((twoPow_log2_le zero).trans le)

/-- A power of two with the bits of `n`, or one for zero, is a multiple of the spacing there. -/
theorem spacing_dvd_twoPow_log2 (n : ℕ) : spacing n ∣ twoPow n.log2 := twoPow_dvd (by omega)

def Aligned (n : ℕ) : Prop := spacing n ∣ n

theorem Magnitude.aligned_quanta (m : Magnitude) : Aligned m.quanta :=
  Nat.dvd_of_mod_eq_zero m.aligned

/-- A count of at most 53 bits is aligned however many zeros follow it. -/
theorem aligned_mul_twoPow {k : ℕ} (small : k ≤ twoPow 53) (s : ℕ) : Aligned (k * twoPow s) :=
  Nat.dvd_of_mod_eq_zero (Magnitude.aligned_mul_twoPow small)

/-- Above the greatest power of two below `f` the aligned counts have at least its spacing. -/
theorem Aligned.spacing_dvd {n f : ℕ} (aligned : Aligned n) (above : twoPow f.log2 ≤ n) :
    spacing f ∣ n := by
  refine Nat.dvd_trans (twoPow_dvd (Nat.sub_le_sub_right ?_ 52)) aligned
  exact (le_log2_iff (Nat.ne_of_gt (Nat.lt_of_lt_of_le (twoPow_pos _) above))).2 above

/-- The aligned count nearest to `x`. -/
def rounded (x : ℚ) : ℕ := halfEven (x / spacing ⌊x⌋₊) * spacing ⌊x⌋₊

theorem spacing_cast_pos (n : ℕ) : (0 : ℚ) < spacing n := by exact_mod_cast spacing_pos n

theorem rounded_div (num : ℕ) {den : ℕ} (positive : 0 < den) :
    rounded (num / den) =
      roundQuotient num (den * spacing (num / den)) * spacing (num / den) := by
  rw [rounded, Nat.floor_div_eq_div, div_div, ← Nat.cast_mul,
    halfEven_div _ (Nat.mul_pos positive (spacing_pos _))]

theorem nearest_eq_some_iff (num : ℕ) {den : ℕ} (positive : 0 < den) (m : Magnitude) :
    Magnitude.nearest num den = some m ↔ rounded (num / den) = m.quanta := by
  rw [rounded_div num positive, Magnitude.nearest]
  constructor
  · intro found
    split at found
    · cases found; rfl
    · cases found
  · intro same
    rw [dif_pos (same ▸ m.finite)]
    exact congrArg some (Magnitude.ext same)

theorem nearest_eq_none_iff (num : ℕ) {den : ℕ} (positive : 0 < den) :
    Magnitude.nearest num den = none ↔ overflow ≤ rounded (num / den) := by
  rw [rounded_div num positive, Magnitude.nearest]
  split
  · next finite => simp [finite]
  · next finite => simpa using finite

variable {x y : ℚ}

/-- A multiple of the spacing on one side of `x` stays on that side of what `x` is rounded to. -/
theorem rounded_le_of_dvd (nonneg : 0 ≤ x) {n : ℕ} (grid : spacing ⌊x⌋₊ ∣ n) (le : x ≤ n) :
    rounded x ≤ n := by
  obtain ⟨k, rfl⟩ := grid
  have size := spacing_cast_pos ⌊x⌋₊
  rw [rounded, Nat.mul_comm (spacing _)]
  refine Nat.mul_le_mul_right _ (halfEven_le (div_nonneg nonneg size.le) ?_)
  rw [div_le_iff₀ size, mul_comm]
  exact_mod_cast le

theorem le_rounded_of_dvd {n : ℕ} (grid : spacing ⌊x⌋₊ ∣ n) (le : (n : ℚ) ≤ x) :
    n ≤ rounded x := by
  obtain ⟨k, rfl⟩ := grid
  have size := spacing_cast_pos ⌊x⌋₊
  rw [rounded, Nat.mul_comm (spacing _)]
  refine Nat.mul_le_mul_right _ (le_halfEven ?_)
  rw [le_div_iff₀ size, mul_comm]
  exact_mod_cast le

theorem twoPow_log2_floor_le (nonneg : 0 ≤ x) (nonzero : ⌊x⌋₊ ≠ 0) :
    (twoPow ⌊x⌋₊.log2 : ℚ) ≤ x :=
  le_trans (by exact_mod_cast twoPow_log2_le nonzero) (Nat.floor_le nonneg)

theorem rounded_aligned (nonneg : 0 ≤ x) : Aligned (rounded x) := by
  refine aligned_mul_twoPow ?_ _
  have size := spacing_cast_pos ⌊x⌋₊
  refine halfEven_le (div_nonneg nonneg size.le) ?_
  rw [div_le_iff₀ size]
  have below : ⌊x⌋₊ + 1 ≤ twoPow 53 * spacing ⌊x⌋₊ := by
    rw [spacing, ← twoPow_add]
    exact Nat.le_trans (lt_twoPow_log2 _) (twoPow_le (by omega))
  exact (Nat.lt_floor_add_one x).le.trans (by exact_mod_cast below)

theorem rounded_of_aligned {n : ℕ} (aligned : Aligned n) : rounded n = n := by
  have grid : spacing ⌊(n : ℚ)⌋₊ ∣ n := by rw [Nat.floor_natCast]; exact aligned
  exact Nat.le_antisymm (rounded_le_of_dvd n.cast_nonneg grid le_rfl)
    (le_rounded_of_dvd grid le_rfl)

theorem rounded_mono (nonneg : 0 ≤ x) (le : x ≤ y) : rounded x ≤ rounded y := by
  have floors : ⌊x⌋₊ ≤ ⌊y⌋₊ := Nat.floor_mono le
  rcases Nat.eq_or_lt_of_le (log2_le floors) with same | less
  · have steps : spacing ⌊x⌋₊ = spacing ⌊y⌋₊ := by rw [spacing, spacing, same]
    have size := spacing_cast_pos ⌊y⌋₊
    rw [rounded, rounded, steps]
    exact Nat.mul_le_mul_right _
      (halfEven_mono (div_nonneg nonneg size.le) (div_le_div_of_nonneg_right le size.le))
  · -- A power of two lies between them.
    have nonzero : ⌊y⌋₊ ≠ 0 := by rintro zero; simp [zero] at less
    have below : x ≤ twoPow (⌊x⌋₊.log2 + 1) :=
      (Nat.lt_floor_add_one x).le.trans (by exact_mod_cast lt_twoPow_log2 ⌊x⌋₊)
    calc rounded x ≤ twoPow (⌊x⌋₊.log2 + 1) :=
          rounded_le_of_dvd nonneg (twoPow_dvd (by omega)) below
      _ ≤ twoPow ⌊y⌋₊.log2 := twoPow_le less
      _ ≤ rounded y := le_rounded_of_dvd (spacing_dvd_twoPow_log2 _)
          (twoPow_log2_floor_le (nonneg.trans le) nonzero)

theorem abs_rounded_sub_le (nonneg : 0 ≤ x) : |(rounded x : ℚ) - x| ≤ spacing ⌊x⌋₊ / 2 := by
  have size := spacing_cast_pos ⌊x⌋₊
  have near := abs_halfEven_sub_le (div_nonneg nonneg size.le)
  have scaled : (rounded x : ℚ) - x =
      (halfEven (x / spacing ⌊x⌋₊) - x / spacing ⌊x⌋₊) * spacing ⌊x⌋₊ := by
    rw [rounded, sub_mul, div_mul_cancel₀ _ size.ne']; push_cast; rfl
  rw [scaled, abs_mul, abs_of_pos size]
  linarith [mul_le_mul_of_nonneg_right near size.le]

theorem abs_rounded_sub_le_of_dvd (nonneg : 0 ≤ x) {n : ℕ} (grid : spacing ⌊x⌋₊ ∣ n) :
    |(rounded x : ℚ) - x| ≤ |(n : ℚ) - x| := by
  obtain ⟨k, rfl⟩ := grid
  have size := spacing_cast_pos ⌊x⌋₊
  have nearest := abs_halfEven_sub_le_abs (div_nonneg nonneg size.le) k
  have scaled (j : ℕ) : ((j * spacing ⌊x⌋₊ : ℕ) : ℚ) - x =
      (j - x / spacing ⌊x⌋₊) * spacing ⌊x⌋₊ := by
    rw [sub_mul, div_mul_cancel₀ _ size.ne']; push_cast; rfl
  rw [rounded, Nat.mul_comm (spacing _), scaled, scaled, abs_mul, abs_mul]
  exact mul_le_mul_of_nonneg_right nearest (abs_nonneg _)

/-- No aligned count is nearer. -/
theorem abs_rounded_sub_le_abs (nonneg : 0 ≤ x) {n : ℕ} (aligned : Aligned n) :
    |(rounded x : ℚ) - x| ≤ |(n : ℚ) - x| := by
  by_cases above : twoPow ⌊x⌋₊.log2 ≤ n
  · exact abs_rounded_sub_le_of_dvd nonneg (aligned.spacing_dvd above)
  · -- The power of two is on the grid, and between `n` and `x`.
    by_cases zero : ⌊x⌋₊ = 0
    · refine abs_rounded_sub_le_of_dvd nonneg ?_
      rw [zero]; exact (by rw [spacing]; exact twoPow_zero ▸ one_dvd n)
    · have top := twoPow_log2_floor_le nonneg zero
      have less : (n : ℚ) ≤ twoPow ⌊x⌋₊.log2 := by exact_mod_cast (not_le.1 above).le
      refine (abs_rounded_sub_le_of_dvd nonneg (spacing_dvd_twoPow_log2 _)).trans ?_
      rw [abs_of_nonpos (by linarith), abs_of_nonpos (by linarith)]
      linarith

end DigitMask
