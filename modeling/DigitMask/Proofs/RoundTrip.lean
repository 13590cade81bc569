import DigitMask.Number
import DigitMask.Proofs.Figure
import DigitMask.Proofs.Pattern.Image
import DigitMask.Proofs.Reading

/-! Displaying a number and reading the text. No digit, sign or decimal point is lost, doubled or
picked up from the text around the number, so that what is read is the decimal that was shown,
rounded once. -/
namespace DigitMask

/-- Options that show a number without a scale, among text that leaves it legible. -/
structure Options.Legible (options : Options) : Prop where
  scale : options.scale = false
  marker : '^' ∉ options.pattern.toList
  label : ∀ label ∈ options.labels.head?, label = ""
  leading : ∀ c ∈ (Pattern.parse options.pattern).leading.toList, c.isDigit = false
  trailing : ∀ c ∈ (Pattern.parse options.pattern).trailing.toList, c.isDigit = false
  percent : ((Pattern.parse options.pattern).trailing.toList.filter
    (· != (Locale.resolve options.locale).group)).getLast? ≠ some '%'
  places : ∀ mask, (Pattern.parse options.pattern).fraction = some mask →
    ∀ token ∈ mask, token = .digit ∨ token = .optional

namespace Options.Legible

variable {options : Options}

theorem scaled (legible : options.Legible) : (Pattern.parse options.pattern).scaled = false := by
  obtain ⟨mask, spells⟩ := (Pattern.ofChars_eq_iff options.pattern.toList _).1 rfl
  rw [← Bool.not_eq_true]
  exact fun scaled => legible.marker (spells.scaled.1 scaled)

theorem quiet (legible : options.Legible) : (Pattern.parse options.pattern).Quiet where
  leading c member :=
    ⟨(Pattern.readable_parse options.pattern).leading c member, legible.leading c member⟩
  trailing c member :=
    ⟨(Pattern.readable_parse options.pattern).trailing c member, legible.trailing c member⟩

theorem label_eq (legible : options.Legible) : options.labels.head?.getD "" = "" := by
  cases first : options.labels.head? with
  | none => rfl
  | some label => exact legible.label label (by rw [first]; rfl)

end Options.Legible

namespace Figure

variable {pattern : Pattern} {options : Options} {negative : Bool} {units : ℕ}

theorem value_decimal_ofUnits (pattern : Pattern) (label : String) (forced negative : Bool)
    (units : ℕ) : (ofUnits pattern label forced negative units).decimal.value =
      units / 10 ^ pattern.places := by
  rw [decimal_ofUnits, Decimal.value_places]

/-- A figure that spells nothing leaves its integer digits out. -/
theorem getLast?_of_blank
    (integer : Display.shownInteger pattern (ofUnits pattern "" false negative units) = []) :
    pattern.integer.getLast? = some .optional := by
  unfold Display.shownInteger at integer
  split at integer
  · next out =>
    simp only [Display.leavesOut, Bool.and_eq_true, beq_iff_eq] at out
    exact out.1.2
  · exact absurd (List.append_eq_nil_iff.1 integer).2 (digits_ne_nil _)

section

variable (places : ∀ mask, pattern.fraction = some mask →
  ∀ token ∈ mask, token = .digit ∨ token = .optional)
include places

/-- Only zero is shown without a digit. -/
theorem units_eq_zero_of_blank
    (integer : Display.shownInteger pattern (ofUnits pattern "" false negative units) = [])
    (fraction : Display.shownFraction pattern (ofUnits pattern "" false negative units) = []) :
    units = 0 := by
  have shown := @Display.value_shown pattern (ofUnits pattern "" false negative units)
    (length_lastDigits _ _) places
  have size : (10 : ℚ) ^ pattern.places ≠ 0 := by positivity
  rw [integer, fraction, value_decimal_ofUnits, Decimal.value] at shown
  have none : (units : ℚ) / 10 ^ pattern.places = 0 := by simpa using shown.symm
  exact Nat.cast_eq_zero.1 ((div_eq_zero_iff.1 none).resolve_right size)

variable (options)

theorem spell_body_ne_nil (nonzero : units ≠ 0) :
    (Display.body .pieces pattern options (ofUnits pattern "" false negative units)).filterMap
      Piece.spell ≠ [] := by
  intro none
  rw [Display.filterMap_spell_body _ _ _ rfl] at none
  simp only [plainNumeral, List.append_eq_nil_iff, List.map_eq_nil_iff] at none
  exact nonzero (units_eq_zero_of_blank places none.2.1 none.2.2.2)

variable (pointed : ¬ (options.pointAlways = true ∧ pattern.integer.getLast? = some .optional))
  (signed : negative = true → units ≠ 0)
include pointed signed

/-- What is spelled of a figure denotes its units, and is blank only for zero. -/
theorem read?_numeral :
    Display.numeral pattern options (ofUnits pattern "" false negative units) = [] ∧
        units = 0 ∧ negative = false ∨
      ∃ n : DecimalNumeral,
        Numeral.read? (Display.numeral pattern options (ofUnits pattern "" false negative units)) =
          some (.decimal n) ∧
        n.negative = negative ∧ n.decimal.value = units / 10 ^ pattern.places := by
  by_cases blank : Display.shownInteger pattern (ofUnits pattern "" false negative units) = [] ∧
      Display.shownFraction pattern (ofUnits pattern "" false negative units) = []
  · left
    obtain ⟨integer, fraction⟩ := blank
    have zero := units_eq_zero_of_blank places integer fraction
    have positive : negative = false := by
      by_contra other
      exact signed (by simpa using other) zero
    have pointless : options.pointAlways = false := by
      by_contra always
      exact pointed ⟨by simpa using always, getLast?_of_blank integer⟩
    refine ⟨?_, zero, positive⟩
    rw [Display.numeral, integer, Display.showsPoint, fraction, pointless, negative_ofUnits,
      positive]
    rfl
  · right
    refine ⟨⟨negative, Display.shownInteger pattern (ofUnits pattern "" false negative units),
      Display.shownFraction pattern (ofUnits pattern "" false negative units), 0⟩, ?_, rfl, ?_⟩
    · refine read?_plainNumeral (fun some => ?_) (not_and_or.1 blank)
      simp [Display.showsPoint, some]
    · rw [DecimalNumeral.decimal, zero_sub, ← value_decimal_ofUnits pattern "" false negative]
      exact Display.value_shown (length_lastDigits _ _) places

theorem ofChars_numeral :
    Binary64.ofChars (Display.numeral pattern options (ofUnits pattern "" false negative units)) =
      (⟨units, -pattern.places⟩ : Decimal).toBinary64 negative := by
  have numeric : ∀ c ∈ Display.numeral pattern options (ofUnits pattern "" false negative units),
      isNumeric c = true := isNumeric_plainNumeral
  rcases read?_numeral options places pointed signed with ⟨blank, rfl, rfl⟩ | ⟨n, read, sign, value⟩
  · have zero : (⟨0, -pattern.places⟩ : Decimal).nearest = some .zero := if_pos (.inl rfl)
    rw [blank, Decimal.toBinary64, zero]
    rfl
  · have same : n.decimal.value = (⟨units, -pattern.places⟩ : Decimal).value := by
      rw [value, Decimal.value_places]
    rw [Binary64.ofChars, trim_eq_self numeric, read, Option.map_some, Option.getD_some,
      Numeral.value, sign, Decimal.toBinary64_congr same]

end

end Figure

/-- The text that shows so many units of the last place. -/
def Options.textOf (options : Options) (negative : Bool) (units : ℕ) : String :=
  String.ofList ((Display.layout .pieces (Pattern.parse options.pattern) options
    (.ofUnits (Pattern.parse options.pattern) "" false negative units)).map
      (Piece.write (Locale.resolve options.locale)))

section

variable {options : Options} (legible : options.Legible)
include legible

theorem figure_eq {x : Binary64} (xFinite : x.isFinite = true) :
    Figure.of (Pattern.parse options.pattern) options x =
      some (.ofUnits (Pattern.parse options.pattern) "" false
        (decide ((Figure.limited (Pattern.parse options.pattern) options x).value < 0))
        (units (Pattern.parse options.pattern).places
          (Figure.limited (Pattern.parse options.pattern) options x).value)) := by
  have figure := Figure.of_eq_ofUnits xFinite legible.scale legible.scaled
  rwa [legible.label_eq] at figure

theorem formatNumber_eq {x : Binary64} (xFinite : x.isFinite = true) :
    formatNumber options x = some (options.textOf
      (decide ((Figure.limited (Pattern.parse options.pattern) options x).value < 0))
      (units (Pattern.parse options.pattern).places
        (Figure.limited (Pattern.parse options.pattern) options x).value)) := by
  rw [formatNumber, display_eq, figure_eq legible xFinite]
  rfl

theorem parseNumber_textOf (pointed : ¬ (options.pointAlways = true ∧
      (Pattern.parse options.pattern).integer.getLast? = some .optional))
    {negative : Bool} {units : ℕ} (signed : negative = true → units ≠ 0) :
    parseNumber options (options.textOf negative units) =
      (⟨units, -(Pattern.parse options.pattern).places⟩ : Decimal).toBinary64 negative := by
  rw [parseNumber, Options.textOf, String.toList_ofList,
    Symbols.read_layout (Locale.distinct_resolve options.locale) legible.quiet legible.percent rfl
      fun negative => Figure.spell_body_ne_nil options legible.places (signed negative),
    Figure.ofChars_numeral options legible.places pointed signed]

/-- A displayed number is read as the number nearest to the decimal that was displayed. -/
theorem parseNumber_formatNumber (pointed : ¬ (options.pointAlways = true ∧
      (Pattern.parse options.pattern).integer.getLast? = some .optional))
    {x : Binary64} (xFinite : x.isFinite = true) : ∃ figure text,
      Figure.of (Pattern.parse options.pattern) options x = some figure ∧
      formatNumber options x = some text ∧
      parseNumber options text = figure.decimal.toBinary64 figure.negative := by
  refine ⟨_, _, figure_eq legible xFinite, formatNumber_eq legible xFinite, ?_⟩
  rw [parseNumber_textOf legible pointed fun negative =>
    Figure.units_ne_zero xFinite (of_decide_eq_true negative), Figure.decimal_ofUnits]
  rfl

end

def prices : Options := { pattern := "-$#,##0.0# EUR", locale := "de" }

theorem parse_prices : Pattern.parse prices.pattern =
    { leading := "$", trailing := " EUR", signFirst := true,
      integer := [.optional, .separator, .optional, .optional, .digit],
      fraction := some [.digit, .optional] } := rfl

theorem legible_prices : prices.Legible where
  scale := rfl
  marker := by decide
  label := by simp [prices]
  leading := by simp [parse_prices]
  trailing := by simp [parse_prices]
  percent last := by
    rw [parse_prices] at last
    have member := (List.mem_filter.1 (List.mem_of_getLast? last)).1
    simp at member
  places mask same := by
    rw [parse_prices] at same
    cases same
    simp

theorem parseNumber_formatNumber_prices : ∃ figure text,
    Figure.of (Pattern.parse prices.pattern) prices (.ofNat 1234) = some figure ∧
    formatNumber prices (.ofNat 1234) = some text ∧
    parseNumber prices text = figure.decimal.toBinary64 figure.negative :=
  parseNumber_formatNumber legible_prices (by decide) (Binary64.ofNat_spec (by decide)).1

end DigitMask
