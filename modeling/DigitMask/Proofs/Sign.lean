import DigitMask.Proofs.Order

/-! The negative sign. It is displayed, once, for a number less than zero of which a digit other
than zero is displayed; so there is no negative zero, and no sign is lost. -/
namespace DigitMask

namespace Figure

theorem shown_neg_iff {x : Binary64} (xFinite : x.isFinite = true) (pattern : Pattern)
    (options : Options) : (shown pattern options x).value < 0 ↔
      x.value < 0 ∧ units pattern.places (shown pattern options x).value ≠ 0 := by
  obtain ⟨finite, above, below⟩ := scaled_spec xFinite pattern options
  obtain ⟨limitedAbove, limitedBelow⟩ := limited_sign pattern options finite
  have visible := (shown_spec xFinite pattern options).2.units_eq_zero_iff
  rw [ne_eq, visible]
  constructor
  · intro negative
    refine ⟨?_, negative.ne⟩
    by_contra nonneg
    exact absurd (limitedAbove (above (not_lt.1 nonneg))) (not_le.2 negative)
  · rintro ⟨negative, nonzero⟩
    exact lt_of_le_of_ne (limitedBelow (below negative.le)) nonzero

end Figure

namespace Display

section

variable {pattern : Pattern} {options : Options}
  (plain : ∀ mask, pattern.fraction = some mask →
    ∀ token ∈ mask, token = .digit ∨ token = .optional)
include plain

theorem exists_digit_ne_zero_iff (label : String) (forced negative : Bool) (count : ℕ) :
    (∃ d ∈ Piece.digits (integer .pieces pattern (.ofUnits pattern label forced negative count) ++
        fraction .pieces pattern (.ofUnits pattern label forced negative count)),
      d ≠ Digit.zero) ↔ count ≠ 0 := by
  have shown := @value_shown pattern (.ofUnits pattern label forced negative count)
    (length_lastDigits _ _) plain
  rw [Figure.decimal_ofUnits] at shown
  have none : number (shownInteger pattern (.ofUnits pattern label forced negative count) ++
      shownFraction pattern (.ofUnits pattern label forced negative count)) = 0 ↔ count = 0 := by
    rw [← Decimal.value_eq_zero_iff ⟨count, -pattern.places⟩, ← shown, Decimal.value_eq_zero_iff]
  rw [Piece.digits_append, digits_integer, digits_fraction, ne_eq, ← none, number_eq_zero_iff]
  push Not
  rfl

/-- The negative symbol is displayed once, or not at all where the number is not less than zero or
every digit that is displayed is zero. -/
theorem count_negative_display {x : Binary64} (xFinite : x.isFinite = true) :
    ∃ figure, Shows pattern options x figure ∧
      (layout .pieces pattern options figure).count .negative =
        if x.lt .zero = true ∧ ∃ d ∈ Piece.digits
            (integer .pieces pattern figure ++ fraction .pieces pattern figure), d ≠ Digit.zero
        then 1 else 0 := by
  have found := Figure.of_eq_map pattern options x
  rw [Figure.start, if_pos xFinite, Option.map_some] at found
  refine ⟨_, shows found, ?_⟩
  rw [count_negative_layout, Figure.negative_ofUnits]
  simp only [exists_digit_ne_zero_iff plain, Binary64.lt_zero_iff xFinite, decide_eq_true_eq,
    Figure.shown_neg_iff xFinite]

end

theorem count_negative_display_thousand : ∃ figure,
    Shows amounts { scale := true } (Binary64.ofNat 1000).neg figure ∧
      (layout .pieces amounts { scale := true } figure).count .negative =
        if (Binary64.ofNat 1000).neg.lt .zero = true ∧ ∃ d ∈ Piece.digits
            (integer .pieces amounts figure ++ fraction .pieces amounts figure), d ≠ Digit.zero
        then 1 else 0 := by
  refine count_negative_display plain_amounts ?_
  rw [Binary64.isFinite_neg]
  exact (Binary64.ofNat_spec (by norm_num)).1

end Display
end DigitMask
