import DigitMask.Decimal.Plain
import DigitMask.Proofs.Decimal.Digit
import DigitMask.Proofs.Decimal.Shortest
import DigitMask.Proofs.Numeral.Plain

/-! The plain text of a number reads back as the number. Its digits put together denote the decimal
again, and the shortest decimal is nearest to its magnitude. Only the words for what is not finite
are no numerals. -/
namespace DigitMask

theorem Magnitude.toBinary64_shortest (negative : Bool) (m : Magnitude) :
    m.shortest.toBinary64 negative = .finite negative m := by
  rw [Decimal.toBinary64, m.nearest_shortest]
  rfl

namespace Decimal

theorem fractionDigits_eq (d : Decimal) : d.fractionDigits =
    lastDigits (-d.exponent).toNat (d.coefficient * tenPow d.exponent.toNat) := by
  rcases le_total 0 d.exponent with whole | places
  · rw [fractionDigits, Int.toNat_of_nonpos (z := -d.exponent) (by omega)]
    rfl
  · rw [fractionDigits, Int.toNat_of_nonpos places, tenPow_zero, Nat.mul_one]

theorem length_fractionDigits (d : Decimal) :
    d.fractionDigits.length = (-d.exponent).toNat :=
  length_lastDigits _ _

/-- The digits around the decimal point denote the decimal. -/
theorem value_positional (d : Decimal) :
    value ⟨number (d.integerDigits ++ d.fractionDigits), -d.fractionDigits.length⟩ = d.value := by
  rw [value_places, length_fractionDigits, fractionDigits_eq, integerDigits,
    number_digits_lastDigits, value_eq_div]

/-- The digits are read as the decimal, also where a point stands behind the last of them. -/
theorem ofChars_positional (negative : Bool) (d : Decimal) {point : Bool}
    (pointed : d.fractionDigits ≠ [] → point = true) :
    Binary64.ofChars (plainNumeral negative d.integerDigits point d.fractionDigits) =
      d.toBinary64 negative := by
  have some : d.integerDigits ≠ [] := digits_ne_nil _
  rw [ofChars_plainNumeral pointed (.inl some), toBinary64_congr d.value_positional]

theorem signed_plain (negative : Bool) (d : Decimal) :
    (if negative then ['-'] else []) ++ d.plain =
      plainNumeral negative d.integerDigits (!d.fractionDigits.isEmpty) d.fractionDigits := by
  rw [plain, plainNumeral]
  cases d.fractionDigits <;> rfl

/-- The plain text of a decimal is read as the decimal. -/
theorem ofChars_signed_plain (negative : Bool) (d : Decimal) :
    Binary64.ofChars ((if negative then ['-'] else []) ++ d.plain) = d.toBinary64 negative := by
  rw [signed_plain, ofChars_positional negative d (by simp)]

theorem plain_eq_places (d : Decimal) : d.plain =
    plain ⟨d.coefficient * tenPow d.exponent.toNat, -(-d.exponent).toNat⟩ := by
  have whole (places : Nat) : (-places : Int).toNat = 0 := by omega
  simp only [plain, integerDigits, fractionDigits_eq, whole, tenPow_zero, Nat.mul_one, neg_neg,
    Int.toNat_natCast]

/-- Every number but what is not one is nearest to a decimal. -/
theorem exists_toBinary64_eq {x : Binary64} (number : x.isNaN = false) :
    ∃ (negative : Bool) (d : Decimal), d.toBinary64 negative = x := by
  cases x with
  | nan => cases number
  | infinity negative =>
    have beyond : nearest ⟨1, 342⟩ = none := by decide
    exact ⟨negative, ⟨1, 342⟩, by rw [toBinary64, beyond]; rfl⟩
  | finite negative m => exact ⟨negative, m.shortest, m.toBinary64_shortest negative⟩

end Decimal

namespace Binary64

theorem ofChars_plain_finite (negative : Bool) (m : Magnitude) :
    ofChars (finite negative m).plain = finite negative m := by
  rw [plain, textBy, Decimal.ofChars_signed_plain, m.toBinary64_shortest]

theorem ofText_plain (x : Binary64) :
    ofText (String.ofList x.plain) = if x.isFinite then x else .nan := by
  rw [ofText, String.toList_ofList]
  cases x with
  | nan => decide
  | infinity negative => cases negative <;> decide
  | finite negative m => exact ofChars_plain_finite negative m

end Binary64
end DigitMask
