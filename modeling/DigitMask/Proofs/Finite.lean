import DigitMask.Proofs.Figure
import DigitMask.Proofs.Pieces

/-! Finite numbers stay finite on their way to a figure, through scaling and through rounding or
truncating. The texts that the digits are read off therefore hold nothing else, and every place
of the fraction mask has its digit. -/
namespace DigitMask

namespace Figure

/-- A number is finite up to its figure, which holds the digits of its texts. -/
structure Numeric (pattern : Pattern) (options : Options) (number : Binary64) (figure : Figure) :
    Prop where
  scaled : (scaled pattern options number).2.isFinite = true
  shown : (shown pattern options number).isFinite = true
  text : ∀ c ∈ (Figure.shown pattern options number).abs.fixed pattern.places,
    c.isDigit = true ∨ c = '.'
  point : ((Figure.shown pattern options number).abs.fixed pattern.places).count '.' ≤ 1
  integer : (Figure.shown pattern options number).abs.floor.fixed 0 =
    figure.integer.map Digit.char
  integer_ne_nil : figure.integer ≠ []
  no_zero_in_front : figure.integer.head? = some Digit.zero → figure.integer = [Digit.zero]
  fraction : (((Figure.shown pattern options number).abs.fixed pattern.places).dropWhile
    (· != '.')).tail = figure.fraction.map Digit.char
  places : figure.fraction.length = pattern.places

theorem numeric {number : Binary64} (finite : number.isFinite = true) (pattern : Pattern)
    (options : Options) (label : String) (forced : Bool) :
    Numeric pattern options number
      (ofShown pattern label forced (Figure.shown pattern options number)) := by
  obtain ⟨shownFinite, settled⟩ := shown_spec finite pattern options
  have figure := ofShown_eq shownFinite settled label forced
  have integer : (ofShown pattern label forced (Figure.shown pattern options number)).integer =
      digits ⌊|(Figure.shown pattern options number).value|⌋₊ :=
    Binary64.integerDigits_abs shownFinite
  have text := Binary64.fixed_abs shownFinite pattern.places
  exact {
    scaled := (scaled_spec finite pattern options).1
    shown := shownFinite
    text := fun c member => Decimal.isDigit_or_point _ _ (text ▸ member)
    point := by rw [text]; exact Decimal.count_point_plain_le _ _
    integer := by rw [Binary64.fixed_floor_abs shownFinite, integer]
    integer_ne_nil := by rw [integer]; exact digits_ne_nil _
    no_zero_in_front := by rw [integer]; exact digits_of_head_zero
    fraction := by rw [text, Decimal.tail_plain_places, figure]; rfl
    places := by rw [figure]; exact length_lastDigits _ _ }

end Figure

/-- Where there is anything to display, the number is finite after it is scaled and after it is
rounded or truncated, and the figure holds its digits. -/
theorem numeric_of_display {pattern : Pattern} {symbols : Symbols} {options : Options}
    {value : Binary64} (displayed : display pattern symbols options value ≠ none) :
    ∃ number figure, Figure.start options value = some number ∧
      Display.Shows pattern options value figure ∧
      Figure.Numeric pattern options number figure := by
  cases found : Figure.start options value with
  | none =>
    refine absurd ?_ displayed
    rw [display, Figure.of, found, Option.map_none, Option.map_none]
  | some number =>
    refine ⟨number, _, rfl, Display.shows (by rw [Figure.of, found, Option.map_some]), ?_⟩
    exact Figure.numeric (Figure.isFinite_start found) pattern options _ _

theorem numeric_of_display_infinity : ∃ number figure,
    Figure.start {} (.infinity true) = some number ∧
    Display.Shows { integer := [.digit], fraction := some [.digit, .separator] } {}
      (.infinity true) figure ∧
    Figure.Numeric { integer := [.digit], fraction := some [.digit, .separator] } {}
      number figure := by
  have displayed : display { integer := [.digit], fraction := some [.digit, .separator] } {} {}
      (.infinity true) ≠ none := Option.some_ne_none _
  exact numeric_of_display displayed

end DigitMask
