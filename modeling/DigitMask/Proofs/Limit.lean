import DigitMask.Proofs.Decimal.Fixed
import DigitMask.Proofs.Rounding
import DigitMask.Proofs.Truncation

/-! Numbers limited to so many decimal places, by rounding or by truncating them. Their whole parts
and their fixed texts are rendered apart, and show the same digits before the decimal point. -/
namespace DigitMask.Binary64

/-- The number with so many decimal places, rounded or else truncated. -/
def limitTo (round : Bool) (places : ℕ) (x : Binary64) : Binary64 :=
  if round then x.roundTo places else x.truncateTo places

theorem limitTo_spec {x : Binary64} (xFinite : x.isFinite = true) (round : Bool) (places : ℕ) :
    (x.limitTo round places).isFinite = true ∧ Settled places (x.limitTo round places).value := by
  cases round with
  | true => exact ⟨(roundTo_spec xFinite places).1, roundTo_settled xFinite places⟩
  | false => exact ⟨isFinite_truncateTo xFinite places, truncateTo_settled xFinite places⟩

/-- Before the decimal point of its fixed text a limited number has the digits of its whole part, so
that none is carried over to them. With those behind the point they are the digits of the text. -/
theorem takeWhile_fixed_limitTo (negative : Bool) (m : Magnitude) (round : Bool) (places : ℕ) :
    let n := (finite negative m).limitTo round places
    (n.abs.fixed places).takeWhile (· != '.') = n.abs.floor.fixed 0 ∧
      (n.abs.fixed places).filterMap Digit.ofChar? =
        n.abs.integerDigits ++ n.abs.fractionDigits places := by
  intro n
  obtain ⟨finite, settled⟩ := limitTo_spec (isFinite_finite negative m) round places
  have whole : units places n.value / tenPow places = ⌊|n.value|⌋₊ := by
    rw [tenPow_eq]
    exact settled.div_units n.isBinary_value
  constructor
  · rw [fixed_abs finite, Decimal.takeWhile_plain_places, whole, fixed_floor_abs finite]
  · rw [fixed_abs finite, Decimal.filterMap_plain_places, whole, integerDigits_abs finite,
      fractionDigits_abs finite]

end DigitMask.Binary64
