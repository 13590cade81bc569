import DigitMask.Proofs.RoundTrip
import DigitMask.Proofs.Steady

/-! Displaying a number, reading the text and displaying what was read. The second text is the
first one exactly if rounding what was read keeps its digits. Truncation always does, and so does
rounding to at most 22 places of numbers with fewer than `2^51` units. -/
namespace DigitMask

open Binary64 (ReadFrom)

theorem readFrom_toBinary64 {q : ℚ} (exact : IsBinary q) (small : |q| < 2 ^ 1024) (places : ℕ)
    (negative : Bool) :
    ReadFrom places negative (units places q)
        ((⟨units places q, -places⟩ : Decimal).toBinary64 negative) ∧
      units places ((⟨units places q, -places⟩ : Decimal).toBinary64 negative).value =
        units places q := by
  have range := binary_units_lt exact small places
  rw [← Decimal.value_places] at range
  obtain ⟨m, same, value⟩ := Decimal.toBinary64_spec range negative
  rw [Decimal.value_places] at value
  have read : ReadFrom places negative (units places q) (.finite negative m) := by
    refine ⟨rfl, ?_⟩
    rw [Binary64.value_finite, value, Binary64.signed_cast]
    cases negative with
    | false => rfl
    | true => rw [if_pos rfl, if_pos rfl, neg_div, binary_neg]
  rw [same]
  refine ⟨read, ?_⟩
  rw [← units_abs, read.abs_value, units_binary_units exact]

namespace Figure

variable {pattern : Pattern} (options : Options) {negative : Bool} {k : ℕ} {x : Binary64}

/-- A number that was read from a decimal is shown with it again where rounding keeps its digits,
and is not carried to the other side of zero. -/
theorem limited_readFrom (read : ReadFrom pattern.places negative k x)
    (shown : units pattern.places x.value = k) :
    (units pattern.places (limited pattern options x).value = k ↔
      (options.round = true → pattern.fraction ≠ none → x.Steady pattern.places)) ∧
    (0 ≤ x.value → 0 ≤ (limited pattern options x).value) ∧
    (x.value ≤ 0 → (limited pattern options x).value ≤ 0) := by
  unfold limited
  cases same : pattern.fraction with
  | none =>
    have none := Pattern.places_of_none same
    rw [none] at read shown ⊢
    have steady := Binary64.steady_zero read shown
    exact ⟨iff_of_true (steady.trans shown) fun _ absent => absurd rfl absent,
      Binary64.roundTo_sign read.1 0⟩
  | some mask =>
    have places := Pattern.places_of_some same
    rw [places] at read shown ⊢
    cases options.round with
    | true =>
      refine ⟨?_, Binary64.roundTo_sign read.1 mask.length⟩
      simp [Binary64.Steady, shown]
    | false =>
      have kept := Binary64.value_truncateTo_of_decimal read.1 read.abs_value
      simp [kept, shown]

theorem limited_readFrom_sign (read : ReadFrom pattern.places negative k x)
    (shown : units pattern.places x.value = k) (signed : negative = true → k ≠ 0)
    (again : units pattern.places (limited pattern options x).value = k) :
    decide ((limited pattern options x).value < 0) = negative := by
  obtain ⟨-, above, below⟩ := limited_readFrom options read shown
  have size : (0 : ℚ) ≤ k / 10 ^ pattern.places := by positivity
  have value := read.2
  rw [Binary64.signed_cast] at value
  cases negative with
  | false =>
    have nonneg : 0 ≤ x.value := value ▸ binary_nonneg size
    exact decide_eq_false (not_lt.2 (above nonneg))
  | true =>
    have nonpos : x.value ≤ 0 := by
      rw [value, if_pos rfl, neg_div, binary_neg]
      exact neg_nonpos.2 (binary_nonneg size)
    refine decide_eq_true (lt_of_le_of_ne (below nonpos) fun zero => signed rfl ?_)
    rw [← again, zero, units_zero]

end Figure

theorem not_pointed {options : Options} (pointless : options.pointAlways = false) :
    ¬ (options.pointAlways = true ∧
      (Pattern.parse options.pattern).integer.getLast? = some .optional) := by
  rw [pointless]
  rintro ⟨always, -⟩
  cases always

section

variable {options : Options} (legible : options.Legible) (pointless : options.pointAlways = false)
include legible pointless

theorem textOf_inj {negative negative' : Bool} {k k' : ℕ} (signed : negative = true → k ≠ 0)
    (signed' : negative' = true → k' ≠ 0) :
    options.textOf negative k = options.textOf negative' k' ↔ negative = negative' ∧ k = k' := by
  constructor
  · intro same
    have distinct := Locale.distinct_resolve options.locale
    have size : (10 : ℚ) ^ (Pattern.parse options.pattern).places ≠ 0 := by positivity
    have pointed := not_pointed pointless
    have same := congrArg (fun text => ((Locale.resolve options.locale).normalize
      text.toList).filter isNumeric) same
    simp only [Options.textOf, String.toList_ofList] at same
    rw [Symbols.filter_normalize_layout distinct legible.quiet rfl,
      Symbols.filter_normalize_layout distinct legible.quiet rfl] at same
    rcases Figure.read?_numeral options legible.places pointed signed with
      ⟨blank, rfl, rfl⟩ | ⟨n, read, rfl, value⟩
    · rcases Figure.read?_numeral options legible.places pointed signed' with
        ⟨-, rfl, rfl⟩ | ⟨n', read', -, -⟩
      · exact ⟨rfl, rfl⟩
      · rw [← same, blank] at read'; cases read'
    · rcases Figure.read?_numeral options legible.places pointed signed' with
        ⟨blank, -, -⟩ | ⟨n', read', rfl, value'⟩
      · rw [same, blank] at read; cases read
      · rw [same, read', Option.some_inj, Numeral.decimal.injEq] at read
        rw [← read, value'] at value
        have count := (div_left_inj' size).1 value
        exact ⟨by rw [read], by exact_mod_cast count.symm⟩
  · rintro ⟨rfl, rfl⟩; rfl

/-- What is displayed of the number that was read from a displayed one is the same text exactly if
rounding that number to the places of the mask keeps its digits. Up to 22 places they are kept
unless the product with the power of ten is rounded to half a unit above the units that were
displayed, and always if these are fewer than `2^51`. -/
theorem formatNumber_parseNumber_iff {x : Binary64} (xFinite : x.isFinite = true) :
    ∃ figure text number, Figure.of (Pattern.parse options.pattern) options x = some figure ∧
      formatNumber options x = some text ∧ parseNumber options text = number ∧
      (formatNumber options number = some text ↔ (options.round = true →
        (Pattern.parse options.pattern).fraction ≠ none →
          number.Steady (Pattern.parse options.pattern).places)) ∧
      ((Pattern.parse options.pattern).places ≤ 22 →
        (number.Steady (Pattern.parse options.pattern).places ↔
          binary (number.value * 10 ^ (Pattern.parse options.pattern).places) ≠
            signed figure.negative figure.decimal.coefficient + 1 / 2) ∧
        (figure.decimal.coefficient < 2 ^ 51 →
          number.Steady (Pattern.parse options.pattern).places)) := by
  refine ⟨_, _, _, figure_eq legible xFinite, formatNumber_eq legible xFinite, rfl, ?_⟩
  have signed {y : Binary64} (yFinite : y.isFinite = true) :
      decide ((Figure.limited (Pattern.parse options.pattern) options y).value < 0) = true →
        units (Pattern.parse options.pattern).places
          (Figure.limited (Pattern.parse options.pattern) options y).value ≠ 0 :=
    fun negative => Figure.units_ne_zero yFinite (of_decide_eq_true negative)
  rw [parseNumber_textOf legible (not_pointed pointless) (signed xFinite),
    Figure.decimal_ofUnits, Figure.negative_ofUnits]
  have own := signed xFinite
  generalize Figure.limited (Pattern.parse options.pattern) options x = shown at own ⊢
  obtain ⟨read, kept⟩ := readFrom_toBinary64 shown.isBinary_value shown.abs_value_lt
    (Pattern.parse options.pattern).places (decide (shown.value < 0))
  refine ⟨?_, fun few => ⟨Binary64.steady_iff_of_few few read kept,
    Binary64.steady_of_lt few read kept⟩⟩
  rw [formatNumber_eq legible read.1, Option.some_inj,
    textOf_inj legible pointless (signed read.1) own,
    ← (Figure.limited_readFrom options read kept).1]
  exact and_iff_right_of_imp (Figure.limited_readFrom_sign options read kept own)

end

theorem formatNumber_parseNumber_prices : ∃ figure text number,
    Figure.of (Pattern.parse prices.pattern) prices (.ofNat 1234) = some figure ∧
    formatNumber prices (.ofNat 1234) = some text ∧ parseNumber prices text = number ∧
    (formatNumber prices number = some text ↔
      (prices.round = true → (Pattern.parse prices.pattern).fraction ≠ none →
        number.Steady (Pattern.parse prices.pattern).places)) ∧
    ((Pattern.parse prices.pattern).places ≤ 22 →
      (number.Steady (Pattern.parse prices.pattern).places ↔
        binary (number.value * 10 ^ (Pattern.parse prices.pattern).places) ≠
          signed figure.negative figure.decimal.coefficient + 1 / 2) ∧
      (figure.decimal.coefficient < 2 ^ 51 →
        number.Steady (Pattern.parse prices.pattern).places)) :=
  formatNumber_parseNumber_iff legible_prices rfl (Binary64.ofNat_spec (by decide)).1

end DigitMask
