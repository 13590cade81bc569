import DigitMask.Proofs.Limit
import DigitMask.Proofs.Scale

/-! The figure of a number is the one of its units: nothing is carried from the digits after the
decimal point into those before it, and a sign stands only where a digit is not zero. -/
namespace DigitMask

namespace Figure

/-- The figure that shows so many units of the last place. -/
def ofUnits (pattern : Pattern) (label : String) (forced negative : Bool) (units : ℕ) : Figure where
  negative
  integer := digits (units / tenPow pattern.places)
  fraction := lastDigits pattern.places units
  forced
  label

section

variable (pattern : Pattern) (label : String) (forced negative : Bool) (units : ℕ)

theorem decimal_ofUnits :
    (ofUnits pattern label forced negative units).decimal = ⟨units, -pattern.places⟩ := by
  rw [decimal, ofUnits, number_digits_lastDigits, length_lastDigits]

@[simp] theorem negative_ofUnits :
    (ofUnits pattern label forced negative units).negative = negative := rfl

end

theorem ofShown_eq {pattern : Pattern} {x : Binary64} (xFinite : x.isFinite = true)
    (settled : Settled pattern.places x.value) (label : String) (forced : Bool) :
    ofShown pattern label forced x =
      ofUnits pattern label forced (decide (x.value < 0)) (units pattern.places x.value) := by
  have sign : x.lt .zero = decide (x.value < 0) := by
    rw [Bool.eq_iff_iff, Binary64.lt_zero_iff xFinite, decide_eq_true_iff]
  have integer : x.abs.integerDigits =
      digits (units pattern.places x.value / tenPow pattern.places) := by
    rw [Binary64.integerDigits_abs xFinite, tenPow_eq, ← settled.div_units x.isBinary_value]
    rfl
  have fraction : (ofShown pattern label forced x).fraction =
      lastDigits pattern.places (units pattern.places x.value) := by
    unfold ofShown Pattern.places
    cases pattern.fraction with
    | none => rfl
    | some mask => exact Binary64.fractionDigits_abs xFinite mask.length
  rw [ofUnits, ← sign, ← integer, ← fraction]
  rfl

/-- Whether a number is rounded, or else truncated. Without a fraction mask it always is. -/
def rounding (pattern : Pattern) (options : Options) : Bool :=
  pattern.fraction.isNone || options.round

/-- Without a fraction mask there are no places to round to. -/
theorem limited_eq (pattern : Pattern) (options : Options) :
    limited pattern options = Binary64.limitTo (rounding pattern options) pattern.places := by
  unfold limited rounding Pattern.places
  cases pattern.fraction <;> rfl

theorem limited_spec {x : Binary64} (xFinite : x.isFinite = true) (pattern : Pattern)
    (options : Options) : (limited pattern options x).isFinite = true ∧
      Settled pattern.places (limited pattern options x).value := by
  rw [limited_eq]
  exact Binary64.limitTo_spec xFinite _ pattern.places

theorem isFinite_start {options : Options} {value number : Binary64}
    (found : start options value = some number) : number.isFinite = true := by
  unfold start at found
  split at found
  · next finite => cases found; exact finite
  · split at found
    · cases found; rfl
    · cases found

theorem scaled_spec {x : Binary64} (xFinite : x.isFinite = true) (pattern : Pattern)
    (options : Options) : (scaled pattern options x).2.isFinite = true ∧
      (0 ≤ x.value → 0 ≤ (scaled pattern options x).2.value) ∧
      (x.value ≤ 0 → (scaled pattern options x).2.value ≤ 0) := by
  unfold scaled
  split
  · have proper := Scale.proper_of xFinite options.labels.length
    exact ⟨(proper.div_spec xFinite).1, proper.div_sign xFinite⟩
  · exact ⟨xFinite, id, id⟩

theorem shown_spec {x : Binary64} (xFinite : x.isFinite = true) (pattern : Pattern)
    (options : Options) : (shown pattern options x).isFinite = true ∧
      Settled pattern.places (shown pattern options x).value :=
  limited_spec (scaled_spec xFinite pattern options).1 pattern options

/-- The figure of a number is the one of its units, at whatever scale. -/
theorem of_eq_map (pattern : Pattern) (options : Options) (value : Binary64) :
    of pattern options value = (start options value).map fun number =>
      ofUnits pattern (scaled pattern options number).1 (!value.isFinite)
        (decide ((shown pattern options number).value < 0))
        (units pattern.places (shown pattern options number).value) := by
  rw [of]
  cases found : start options value with
  | none => rfl
  | some number =>
    obtain ⟨finite, settled⟩ := shown_spec (isFinite_start found) pattern options
    rw [Option.map_some, Option.map_some, ofShown_eq finite settled]

theorem of_eq_some {x : Binary64} (xFinite : x.isFinite = true) (pattern : Pattern)
    (options : Options) : of pattern options x =
      some (ofUnits pattern (scaled pattern options x).1 false
        (decide ((shown pattern options x).value < 0))
        (units pattern.places (shown pattern options x).value)) := by
  rw [of_eq_map, start, if_pos xFinite, Option.map_some, xFinite]
  rfl

theorem scaled_of_unscaled {pattern : Pattern} {options : Options}
    (scale : options.scale = false) (scaled : pattern.scaled = false) (x : Binary64) :
    Figure.scaled pattern options x = (options.labels.head?.getD "", x) := by
  simp [Figure.scaled, scale, scaled]

theorem of_eq_ofUnits {x : Binary64} (xFinite : x.isFinite = true) {pattern : Pattern}
    {options : Options} (scale : options.scale = false) (scaled : pattern.scaled = false) :
    Figure.of pattern options x = some (ofUnits pattern (options.labels.head?.getD "") false
      (decide ((limited pattern options x).value < 0))
      (units pattern.places (limited pattern options x).value)) := by
  rw [of_eq_some xFinite, shown, scaled_of_unscaled scale scaled]

/-- A sign is shown only before a digit that is not zero. -/
theorem units_ne_zero {x : Binary64} (xFinite : x.isFinite = true) {pattern : Pattern}
    {options : Options} (negative : (limited pattern options x).value < 0) :
    units pattern.places (limited pattern options x).value ≠ 0 := by
  obtain ⟨-, settled⟩ := limited_spec xFinite pattern options
  rw [ne_eq, settled.units_eq_zero_iff]
  exact negative.ne

end Figure
end DigitMask
