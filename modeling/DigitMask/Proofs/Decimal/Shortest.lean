import DigitMask.Proofs.Decimal.Value

/-! The shortest decimal of a magnitude reads back as it, and has no more places than any other
decimal that does. -/
namespace DigitMask.Magnitude

variable {m : Magnitude} {places : ℕ}

theorem gridNum_div (m : Magnitude) (places : ℕ) :
    m.gridNum (-places) / gridDen (-places) = ⌊m.value * 10 ^ places⌋₊ := by
  rw [gridNum, gridDen, neg_neg, Int.toNat_natCast, Int.toNat_of_nonpos (by omega), tenPow_zero,
    Nat.mul_one, value, div_mul_eq_mul_div, ← tenPow_cast, ← Nat.cast_mul, Nat.floor_div_natCast,
    Nat.floor_natCast]

theorem value_below (m : Magnitude) (places : ℕ) :
    (m.below (-places)).value = ⌊m.value * 10 ^ places⌋₊ / 10 ^ places := by
  rw [below, gridNum_div, Decimal.value_places]

theorem value_above (m : Magnitude) (places : ℕ) :
    (m.above (-places)).value = (⌊m.value * 10 ^ places⌋₊ + 1) / 10 ^ places := by
  rw [above, gridNum_div, Decimal.value_places]
  push_cast
  rfl

/-- If any decimal of so many places reads as the magnitude, then one of its neighbours does. -/
theorem onGrid_ne_none {k : ℕ} (reads : binary (k / 10 ^ places) = m.value) :
    m.onGrid (-places) ≠ none := by
  have size : (0 : ℚ) < 10 ^ places := by positivity
  have nonneg : 0 ≤ m.value * 10 ^ places := mul_nonneg m.value_nonneg size.le
  have exact := m.isBinary_value
  have hit : (m.below (-places)).nearest = some m ∨ (m.above (-places)).nearest = some m := by
    rw [Decimal.nearest_eq_some_iff, Decimal.nearest_eq_some_iff, value_below, value_above]
    -- The neighbour lies between the decimal and the magnitude.
    rcases Nat.lt_or_ge ⌊m.value * 10 ^ places⌋₊ k with beyond | within
    · right
      have beyond : (⌊m.value * 10 ^ places⌋₊ : ℚ) + 1 ≤ k := by exact_mod_cast beyond
      have high : m.value ≤ (⌊m.value * 10 ^ places⌋₊ + 1) / 10 ^ places := by
        rw [le_div_iff₀ size]
        exact (Nat.lt_floor_add_one _).le
      exact le_antisymm
        ((binary_mono (div_le_div_of_nonneg_right beyond size.le)).trans reads.le)
        (le_binary exact high)
    · left
      have within : (k : ℚ) ≤ ⌊m.value * 10 ^ places⌋₊ := by exact_mod_cast within
      have low : ⌊m.value * 10 ^ places⌋₊ / 10 ^ places ≤ m.value := by
        rw [div_le_iff₀ size]
        exact Nat.floor_le nonneg
      exact le_antisymm (binary_le exact low)
        (reads.ge.trans (binary_mono (div_le_div_of_nonneg_right within size.le)))
  intro none
  simp only [onGrid] at none
  rcases hit with low | high
  · by_cases high : (m.above (-places)).nearest = some m <;> simp [low, high] at none
    split at none <;> cases none
  · simp [high] at none
    split at none <;> cases none

theorem exponent_onGrid {exponent : ℤ} {d : Decimal} (found : m.onGrid exponent = some d) :
    d.exponent = exponent := by
  simp only [onGrid] at found
  split at found
  · cases found; rfl
  · split at found
    · cases found; rfl
    · cases found

/-- A quantum has 1074 places. -/
theorem exists_finest (m : Magnitude) : ∃ k : ℕ, (k / 10 ^ 1074 : ℚ) = m.value := by
  have size : (10 : ℚ) ^ 1074 ≠ 0 := by positivity
  have steps : (unit : ℚ) * 5 ^ 1074 = 10 ^ 1074 := by
    rw [unit, twoPow_cast, ← mul_pow, show (2 * 5 : ℚ) = 10 by norm_num]
  refine ⟨m.quanta * 5 ^ 1074, ?_⟩
  rw [div_eq_iff size, ← steps, ← mul_assoc, value_mul_unit, Nat.cast_mul, Nat.cast_pow]
  rfl

theorem nearest_below_finest (m : Magnitude) : (m.below (-1074)).nearest = some m := by
  obtain ⟨k, same⟩ := m.exists_finest
  have size : (10 : ℚ) ^ 1074 ≠ 0 := by positivity
  have value := value_below m 1074
  rw [← same, div_mul_cancel₀ _ size, Nat.floor_natCast, same] at value
  rw [Decimal.nearest_eq_some_iff]
  exact (congrArg binary value).trans m.isBinary_value.binary_eq

/-- The shortest decimal reads back. -/
theorem nearest_shortest (m : Magnitude) : m.shortest.nearest = some m := by
  unfold shortest
  split
  · next zero =>
    rw [Decimal.nearest_eq_some_iff, (quanta_eq_zero_iff m).1 zero, Decimal.value]
    simp
  · cases found : m.gridExponents.findSome? m.onGrid with
    | none => exact m.nearest_below_finest
    | some d =>
      obtain ⟨exponent, -, hit⟩ := List.exists_of_findSome?_eq_some found
      exact nearest_of_onGrid hit

theorem binary_value_shortest (m : Magnitude) : binary m.shortest.value = m.value :=
  (Decimal.nearest_eq_some_iff _ _).1 m.nearest_shortest

theorem gridExponents_pairwise (m : Magnitude) : m.gridExponents.Pairwise (· > ·) := by
  unfold gridExponents
  refine List.pairwise_map.2 (List.pairwise_lt_range.imp ?_)
  intro i j less
  omega

theorem mem_gridExponents {exponent : ℤ} (nonpos : exponent ≤ 0) :
    exponent ∈ m.gridExponents ↔ -1074 ≤ exponent := by
  simp only [gridExponents, List.mem_map, List.mem_range]
  generalize (if m.quanta < unit then 0 else (digits (m.quanta / unit)).length) = first
  constructor
  · rintro ⟨i, bound, rfl⟩; omega
  · intro fine
    exact ⟨(first - exponent).toNat, by omega, by omega⟩

theorem le_exponent_shortest_of_le {k : ℕ} (few : places ≤ 1074)
    (reads : binary (k / 10 ^ places) = m.value) : -places ≤ m.shortest.exponent := by
  have hit := onGrid_ne_none reads
  have member : (-places : ℤ) ∈ m.gridExponents := (mem_gridExponents (by omega)).2 (by omega)
  unfold shortest
  split
  · exact Int.neg_nonpos_of_nonneg (Int.natCast_nonneg places)
  cases found : m.gridExponents.findSome? m.onGrid with
  | none => exact absurd (List.findSome?_eq_none_iff.1 found _ member) hit
  | some d =>
    -- The grids are tried from the coarsest on, and those before the hit have none.
    obtain ⟨coarser, exponent, finer, list, here, none⟩ := List.findSome?_eq_some_iff.1 found
    have order := m.gridExponents_pairwise
    rw [list] at member order
    rw [Option.getD_some, exponent_onGrid here]
    rcases List.mem_append.1 member with before | after
    · exact absurd (none _ before) hit
    rcases List.mem_cons.1 after with same | behind
    · exact same.le
    · have := (List.pairwise_cons.1 (List.pairwise_append.1 order).2.1).1 _ behind
      omega

/-- No decimal that reads back has fewer places. -/
theorem le_exponent_shortest {k : ℕ} (reads : binary (k / 10 ^ places) = m.value) :
    -places ≤ m.shortest.exponent := by
  rcases le_or_gt places 1074 with few | many
  · exact le_exponent_shortest_of_le few reads
  · obtain ⟨finest, same⟩ := m.exists_finest
    have reads : binary (finest / 10 ^ 1074) = m.value := by
      rw [same]; exact m.isBinary_value.binary_eq
    have := le_exponent_shortest_of_le le_rfl reads
    omega

end DigitMask.Magnitude
