import DigitMask.Figure
import DigitMask.Proofs.Decimal.Digit
import DigitMask.Proofs.Text.Ends
import DigitMask.Proofs.Units

/-! The text of a finite number with a fixed number of decimal places. It holds the digits of the
units of the last place and no letter, so that the digits are read off it completely. -/
namespace DigitMask

theorem Magnitude.fixed_eq (m : Magnitude) (places : ℕ) :
    m.fixed places = ⟨units places m.value, -places⟩ := by
  have ratio : m.value * 10 ^ places = ((m.quanta * tenPow places : ℕ) : ℚ) / unit := by
    rw [Magnitude.value, Nat.cast_mul, tenPow_cast, div_mul_eq_mul_div]
  rw [Magnitude.fixed, units, abs_of_nonneg m.value_nonneg, ratio, halfEven_div _ unit_pos]

theorem Decimal.plain_places (n places : ℕ) : plain ⟨n, -places⟩ =
    (digits (n / tenPow places)).map Digit.char ++
      if places = 0 then [] else '.' :: (lastDigits places n).map Digit.char := by
  have none : ((lastDigits places n).map Digit.char).isEmpty = decide (places = 0) := by
    rw [List.isEmpty_map, Bool.eq_iff_iff, List.isEmpty_iff_length_eq_zero, length_lastDigits,
      decide_eq_true_iff]
  have whole : (-places : ℤ).toNat = 0 := by omega
  simp only [plain, integerDigits, fractionDigits, neg_neg, Int.toNat_natCast, whole, tenPow_zero,
    Nat.mul_one, none, decide_eq_true_eq]

namespace Decimal

variable (n places : ℕ)

theorem dropWhile_plain_places : (plain ⟨n, -places⟩).dropWhile (· != '.') =
    if places = 0 then [] else '.' :: (lastDigits places n).map Digit.char := by
  have run : ∀ c ∈ (digits (n / tenPow places)).map Digit.char, (c != '.') = true :=
    fun c => bne_of_mem (not_mem_run rfl)
  rw [plain_places]
  apply (takeWhile_append_eq run ?_).2
  split <;> simp

theorem tail_plain_places :
    ((plain ⟨n, -places⟩).dropWhile (· != '.')).tail = (lastDigits places n).map Digit.char := by
  rw [dropWhile_plain_places]
  split
  · next none => rw [none]; rfl
  · rfl

theorem takeWhile_plain_places :
    (plain ⟨n, -places⟩).takeWhile (· != '.') = (digits (n / tenPow places)).map Digit.char := by
  have run : ∀ c ∈ (digits (n / tenPow places)).map Digit.char, (c != '.') = true :=
    fun c => bne_of_mem (not_mem_run rfl)
  rw [plain_places]
  apply (takeWhile_append_eq run ?_).1
  split <;> simp

theorem filterMap_plain_places : (plain ⟨n, -places⟩).filterMap Digit.ofChar? =
    digits (n / tenPow places) ++ lastDigits places n := by
  have point : Digit.ofChar? '.' = none := rfl
  rw [plain_places]
  by_cases whole : places = 0
  · subst whole
    simp [lastDigits, lastDigitsBefore]
  · simp [whole, point]

theorem isDigit_or_point {c : Char} (member : c ∈ plain ⟨n, -places⟩) :
    c.isDigit = true ∨ c = '.' := by
  rw [plain_places] at member
  rcases List.mem_append.1 member with integer | member
  · exact .inl (isDigit_of_mem_run integer)
  · split at member
    · cases member
    · exact (List.mem_cons.1 member).symm.imp_left isDigit_of_mem_run

theorem count_point_plain_le : (plain ⟨n, -places⟩).count '.' ≤ 1 := by
  rw [plain_places, List.count_append, List.count_eq_zero.2 (not_mem_run rfl)]
  split
  · simp
  · rw [List.count_cons_self, List.count_eq_zero.2 (not_mem_run rfl)]

end Decimal

/-- The number that digits around a decimal point denote. -/
def textValue (text : List Char) : ℚ :=
  number (text.filterMap Digit.ofChar?) / 10 ^ (text.dropWhile (· != '.')).tail.length

theorem textValue_plain_places (n places : ℕ) :
    textValue (Decimal.plain ⟨n, -places⟩) = n / 10 ^ places := by
  simp [textValue, Decimal.filterMap_plain_places, Decimal.tail_plain_places,
    number_digits_lastDigits]

namespace Binary64

variable {x : Binary64} (xFinite : x.isFinite = true)
include xFinite

theorem fixed_abs (places : ℕ) :
    x.abs.fixed places = Decimal.plain ⟨units places x.value, -places⟩ := by
  obtain ⟨negative, m, rfl⟩ := exists_of_isFinite xFinite
  rw [← units_abs, abs_value_finite, ← Magnitude.fixed_eq]
  rfl

theorem textValue_fixed_abs (places : ℕ) :
    textValue (x.abs.fixed places) = units places x.value / 10 ^ places := by
  rw [fixed_abs xFinite, textValue_plain_places]

theorem abs_floor_abs : x.abs.floor.abs = x.abs.floor := by
  obtain ⟨negative, m, rfl⟩ := exists_of_isFinite xFinite
  rw [abs, floor, ofQuanta]
  cases Magnitude.nearest (m.quanta / unit * unit) 1 <;> rfl

theorem fixed_floor_abs : x.abs.floor.fixed 0 = (digits ⌊|x.value|⌋₊).map Digit.char := by
  obtain ⟨finite, value⟩ := floor_spec (x := x.abs) (by rwa [isFinite_abs])
  have whole : x.abs.floor.value = (⌊|x.value|⌋₊ : ℕ) := by
    rw [value, value_abs, natCast_floor_eq_intCast_floor (abs_nonneg x.value)]
  have shown : units 0 x.abs.floor.value = ⌊|x.value|⌋₊ := by
    rw [whole, units, pow_zero, mul_one, Nat.abs_cast, halfEven_natCast]
  have text := Decimal.plain_places ⌊|x.value|⌋₊ 0
  rw [← abs_floor_abs xFinite, fixed_abs finite 0, shown, text, tenPow_zero, Nat.div_one,
    if_pos rfl, List.append_nil]

theorem integerDigits_abs : x.abs.integerDigits = digits ⌊|x.value|⌋₊ := by
  rw [integerDigits, fixed_floor_abs xFinite, filterMap_ofChar?]

theorem fractionDigits_abs (places : ℕ) :
    x.abs.fractionDigits places = lastDigits places (units places x.value) := by
  rw [fractionDigits, fixed_abs xFinite, Decimal.tail_plain_places, filterMap_ofChar?]

end Binary64
end DigitMask
