import DigitMask.Number
import DigitMask.Proofs.Climb
import DigitMask.Proofs.Order
import DigitMask.Proofs.Steady

/-! Scaled numbers as they are displayed. Before the last label a number is scaled to less than a
thousand, and truncating keeps it there. Rounding may carry it up to a thousand, and then exactly a
thousand is displayed, although there is a greater label. -/
namespace DigitMask

variable {places : ℕ}

/-- Numbers less than a thousand whose digits are carried up to a thousand: the product with the
power of ten is no more than half a unit away, where a half goes up. With more places no such number
has a digit to round. -/
def CarriesOver (places : ℕ) (q : ℚ) : Prop :=
  places ≤ 12 ∧ (1000 * 10 ^ places - 1 / 2 ≤ binary (q * 10 ^ places) ∨
    binary (q * 10 ^ places) < -(1000 * 10 ^ places - 1 / 2))

namespace Binary64

variable {x : Binary64} (xFinite : x.isFinite = true) (less : |x.value| < 1000)
include xFinite less

theorem units_roundTo_of_few (few : places ≤ 12) :
    |wholePlaces places x.value| ≤ 1000 * 10 ^ places ∧
      units places (x.roundTo places).value = (wholePlaces places x.value).natAbs := by
  have size : (0 : ℚ) < 10 ^ places := by positivity
  have power : power places = 10 ^ places := power_eq (by omega)
  have bound : (10 : ℚ) ^ places ≤ 10 ^ 12 := pow_le_pow_right₀ (by norm_num) few
  have rounds : ¬ Kept places x.value := by
    have whole : IsBinary ((1000 : ℤ) : ℚ) := isBinary_intCast (by norm_num)
    have limit : (1000 : ℚ) ≤ binary (2 ^ 53 / 10 ^ places) := by
      apply le_binary (by exact_mod_cast whole)
      rw [le_div_iff₀ size]
      linarith
    rw [kept_iff, power, not_le]
    exact less.trans_le limit
  have scaled : |binary (x.value * 10 ^ places)| ≤ 1000 * 10 ^ places := by
    have exact : IsBinary ((1000 : ℚ) * 10 ^ places) := by
      have ten := isBinary_tenPow (n := 3 + places) (by omega)
      rw [pow_add] at ten
      norm_num at ten
      exact ten
    rw [← binary_abs, abs_mul, abs_of_pos size]
    exact binary_le exact (mul_le_mul_of_nonneg_right less.le size.le)
  have count : |wholePlaces places x.value| ≤ 1000 * 10 ^ places := by
    rw [wholePlaces, power]
    apply abs_floor_add_half_le
    exact_mod_cast scaled
  refine ⟨count, ?_⟩
  rw [(roundTo_spec xFinite places).2.2 rounds, power]
  apply units_binary_intCast_div (by omega)
  have power : (10 : ℤ) ^ places ≤ 10 ^ 12 := pow_le_pow_right₀ (by norm_num) few
  norm_num at power ⊢
  linarith

theorem abs_value_roundTo_lt (many : 12 < places) : |(x.roundTo places).value| < 1000 := by
  obtain ⟨-, keeps, rounds⟩ := roundTo_spec xFinite places
  by_cases kept : Kept places x.value
  · rw [keeps kept]
    exact less
  · have positive := power_pos places
    have large : (10 : ℚ) ^ 13 ≤ 10 ^ min places 308 :=
      pow_le_pow_right₀ (by norm_num) (by omega)
    have least := (power_bounds places).1
    have whole : IsBinary ((901 : ℤ) : ℚ) := isBinary_intCast (by norm_num)
    have limit : binary (2 ^ 53 / power places) ≤ 901 := by
      apply binary_le (by exact_mod_cast whole)
      rw [div_le_iff₀ positive]
      norm_num at least large ⊢
      linarith
    rw [rounds kept]
    have bound := (abs_binary_wholePlaces_div_le kept).trans limit
    linarith

/-- At most a thousand is shown of a number less than a thousand, and a thousand only if rounding
carries it over. -/
theorem units_limitTo_le (round : Bool) (places : ℕ) :
    units places (x.limitTo round places).value ≤ 1000 * 10 ^ places ∧
      (units places (x.limitTo round places).value = 1000 * 10 ^ places ↔
        round = true ∧ CarriesOver places x.value) := by
  obtain ⟨-, settled⟩ := limitTo_spec xFinite round places
  have exact := (x.limitTo round places).isBinary_value
  have small (less : |(x.limitTo round places).value| < 1000) :
      units places (x.limitTo round places).value < 1000 * 10 ^ places :=
    settled.units_lt exact (by exact_mod_cast less)
  cases round with
  | false =>
    have shown := small ((x.abs_value_truncateTo_le places).trans_lt less)
    refine ⟨shown.le, iff_of_false shown.ne ?_⟩
    rintro ⟨rounded, -⟩
    cases rounded
  | true =>
    rcases Nat.lt_or_ge 12 places with many | few
    · have shown := small (abs_value_roundTo_lt xFinite less many)
      refine ⟨shown.le, iff_of_false shown.ne ?_⟩
      rintro ⟨-, few, -⟩
      omega
    · obtain ⟨bound, count⟩ := units_roundTo_of_few xFinite less few
      have reaches : ((1000 * 10 ^ places : ℕ) : ℤ) ≤ |wholePlaces places x.value| ↔
          CarriesOver places x.value := by
        rw [wholePlaces, power_eq (by omega), le_abs_floor_add_half_iff, CarriesOver,
          and_iff_right few]
        push_cast
        rfl
      have rounded : units places (x.limitTo true places).value =
          (wholePlaces places x.value).natAbs := count
      rw [rounded, ← reaches, Int.abs_eq_natAbs]
      rw [Int.abs_eq_natAbs] at bound
      have bound : (wholePlaces places x.value).natAbs ≤ 1000 * 10 ^ places := by
        exact_mod_cast bound
      refine ⟨bound, ?_⟩
      rw [Int.ofNat_le]
      simp only [true_and]
      omega

end Binary64

namespace Display

theorem abs_atPlaces (places : ℕ) (q : ℚ) : |atPlaces places q| = units places q / 10 ^ places := by
  have nonneg : (0 : ℚ) ≤ units places q / 10 ^ places := by positivity
  unfold atPlaces
  split <;> simp [abs_of_nonneg nonneg]

section

variable {pattern : Pattern} {options : Options}
  (plain : ∀ mask, pattern.fraction = some mask →
    ∀ token ∈ mask, token = .digit ∨ token = .optional)
include plain

/-- Before the last label, what is displayed of a scaled number is at most a thousand, and a
thousand exactly if the scaled number, which is less, is rounded and carried over. -/
theorem abs_denoted_scaled_le (scale : (options.scale || pattern.scaled) = true) {x : Binary64}
    (xFinite : x.isFinite = true)
    (more : (Scale.of x options.labels.length).index + 1 < options.labels.length) :
    let scaled := (x / (Scale.of x options.labels.length).factor).value
    ∃ figure, Shows pattern options x figure ∧
      options.labels[(Scale.of x options.labels.length).index]? = some figure.label ∧
      |scaled| < 1000 ∧ |denoted pattern options figure| ≤ 1000 ∧
      (|denoted pattern options figure| = 1000 ↔
        Figure.rounding pattern options = true ∧ CarriesOver pattern.places scaled) := by
  intro scaled
  have size : (0 : ℚ) < 10 ^ pattern.places := by positivity
  have less : |scaled| < 1000 := Scale.abs_value_div_lt xFinite more
  have finite := ((Scale.proper_of xFinite options.labels.length).div_spec xFinite).1
  have present := List.getElem?_eq_getElem (l := options.labels)
    (i := (Scale.of x options.labels.length).index) (by omega)
  have parts : Figure.scaled pattern options x =
      (options.labels[(Scale.of x options.labels.length).index]?.getD "",
        x / (Scale.of x options.labels.length).factor) := if_pos scale
  obtain ⟨bound, carries⟩ := Binary64.units_limitTo_le finite less
    (Figure.rounding pattern options) pattern.places
  refine ⟨_, shows (Figure.of_eq_some xFinite pattern options), ?_, less, ?_⟩
  · rw [parts, present]
    rfl
  · rw [denoted_ofUnits plain, abs_atPlaces, Figure.shown, parts, Figure.limited_eq, ← carries,
      div_le_iff₀ size, div_eq_iff size.ne']
    constructor
    · exact_mod_cast bound
    · exact_mod_cast Iff.rfl

end

def labelled : Options := { pattern := "#,##0^" }

theorem parse_labelled : Pattern.parse labelled.pattern =
    { integer := [.optional, .separator, .optional, .optional, .digit], scaled := true } := rfl

theorem abs_denoted_scaled_le_million :
    (Scale.of (.ofNat 1234567) labelled.labels.length).index + 1 < labelled.labels.length ∧
      ∃ figure, Shows (Pattern.parse labelled.pattern) labelled (.ofNat 1234567) figure ∧
        |denoted (Pattern.parse labelled.pattern) labelled figure| ≤ 1000 := by
  have more : (Scale.of (.ofNat 1234567) labelled.labels.length).index + 1 <
      labelled.labels.length := by decide +kernel
  obtain ⟨figure, shown, -, -, bound, -⟩ := @abs_denoted_scaled_le
    (Pattern.parse labelled.pattern) labelled (by rw [parse_labelled]; simp) rfl _
    (Binary64.ofNat_spec (n := 1234567) (by norm_num)).1 more
  exact ⟨more, figure, shown, bound⟩

/-- One less than a million is shown as a thousand thousands, although there is a label for
millions. -/
theorem denoted_scaled_thousand :
    labelled.labels[2]? = some "M" ∧ (Scale.of (.ofNat 999999) labelled.labels.length).index = 1 ∧
      formatNumber labelled (.ofNat 999999) = some "1,000K" ∧
      ∃ figure, Shows (Pattern.parse labelled.pattern) labelled (.ofNat 999999) figure ∧
        figure.label = "K" ∧
          ¬ |denoted (Pattern.parse labelled.pattern) labelled figure| < 1000 := by
  have found : Figure.of (Pattern.parse labelled.pattern) labelled (.ofNat 999999) =
      some (.ofUnits (Pattern.parse labelled.pattern) "K" false false 1000) := by decide +kernel
  have plain : ∀ mask, (Pattern.parse labelled.pattern).fraction = some mask →
      ∀ token ∈ mask, token = .digit ∨ token = .optional := by rw [parse_labelled]; simp
  refine ⟨rfl, by decide +kernel, by decide +kernel, _, shows found, rfl, ?_⟩
  rw [denoted_eq labelled (length_lastDigits _ _) plain, Figure.decimal_ofUnits,
    Decimal.value_places, Figure.negative_ofUnits]
  simp [parse_labelled, Pattern.places]

end Display
end DigitMask
