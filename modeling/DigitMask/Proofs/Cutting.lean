import DigitMask.Proofs.Decimal.Plain
import DigitMask.Proofs.Limit
import DigitMask.Proofs.Order

/-! Truncating as it is seen in texts. A truncated number is read from its plain text, cut after so
many places. Where the spacing above the number is no wider than a unit of the last place, what is
read is less than half a unit away from the cut decimal, so that the fixed text shows its digits
again. -/
namespace DigitMask

variable {places : ℕ}

/-- A text with so many digits behind its decimal point: cut after them, or filled up with zeros. -/
def withPlaces (places : ℕ) (text : List Char) : List Char :=
  text.takeWhile (· != '.') ++
    if places = 0 then []
    else
      let fraction := (text.dropWhile (· != '.')).tail
      '.' :: (fraction.take places ++ List.replicate (places - fraction.length) '0')

/-- A text without what stands behind so many digits after its decimal point. -/
def cutText (places : ℕ) (text : List Char) : List Char :=
  text.takeWhile (· != '.') ++
    if places = 0 then [] else (text.dropWhile (· != '.')).take (places + 1)

namespace Decimal

theorem cutText_plain_places (n width places : ℕ) : cutText places (plain ⟨n, -width⟩) =
    plain ⟨n / tenPow (width - places), -(min places width : ℕ)⟩ := by
  have split : width - places + min places width = width := by omega
  have whole : n / tenPow (width - places) / tenPow (min places width) = n / tenPow width := by
    rw [Nat.div_div_eq_div_mul, ← tenPow_add, split]
  simp only [cutText, takeWhile_plain_places, dropWhile_plain_places]
  rw [plain_places, whole, ← take_lastDigits]
  by_cases none : places = 0
  · simp [none]
  · by_cases integer : width = 0
    · simp [none, integer]
    · simp [none, integer]

theorem plain_cut (d : Decimal) (places : ℕ) : (d.cut places).plain = cutText places d.plain := by
  have count : d.coefficient / tenPow ((-d.exponent).toNat - places) *
        tenPow (d.exponent + ((-d.exponent).toNat - places : ℕ)).toNat =
      d.coefficient * tenPow d.exponent.toNat / tenPow ((-d.exponent).toNat - places) := by
    rcases Nat.eq_zero_or_pos ((-d.exponent).toNat - places) with none | some
    · simp [none, tenPow_zero]
    · have integer : d.exponent.toNat = 0 := by omega
      have cut : (d.exponent + ((-d.exponent).toNat - places : ℕ)).toNat = 0 := by omega
      rw [integer, cut, tenPow_zero, Nat.mul_one, Nat.mul_one]
  have width : (-(d.exponent + ((-d.exponent).toNat - places : ℕ))).toNat =
      min places (-d.exponent).toNat := by omega
  rw [plain_eq_places, plain_eq_places d, cutText_plain_places, cut]
  rw [width, count]

theorem withPlaces_plain_places (n width places : ℕ) :
    withPlaces places (plain ⟨n, -width⟩) =
      plain ⟨n * tenPow places / tenPow width, -places⟩ := by
  have zero : Digit.zero.char = '0' := rfl
  have whole : n * tenPow places / tenPow width / tenPow places = n / tenPow width := by
    rw [Nat.div_div_eq_div_mul, Nat.mul_div_mul_right _ _ (tenPow_pos places)]
  simp only [withPlaces, takeWhile_plain_places, tail_plain_places, length_lastDigits,
    List.length_map]
  simp only [plain_places, whole, lastDigits_scaled, List.map_append, List.map_take,
    List.map_replicate, zero]

/-- The digits that are left of a decimal are those of its whole units. -/
theorem withPlaces_plain (d : Decimal) (places : ℕ) :
    withPlaces places d.plain = plain ⟨⌊d.value * 10 ^ places⌋₊, -places⟩ := by
  have count : d.value * 10 ^ places =
      (d.coefficient * tenPow d.exponent.toNat * tenPow places : ℕ) /
        (tenPow (-d.exponent).toNat : ℕ) := by
    rw [value_eq_div, div_mul_eq_mul_div, Nat.cast_mul (_ * _), tenPow_cast, tenPow_cast]
  rw [plain_eq_places, withPlaces_plain_places, count, Nat.floor_div_eq_div]

example : withPlaces 2 "-0.375".toList = "-0.37".toList := by decide

end Decimal

section

variable {k : ℕ} {e : ℤ} (fine : -1022 ≤ e) (inside : (k / 10 ^ places : ℚ) < 2 ^ (e + 1))
include fine inside

theorem isBinary_div_of_equal (equal : 2 ^ (e - 52) * 10 ^ places = (1 : ℚ)) :
    IsBinary (k / 10 ^ places : ℚ) := by
  have size : (10 : ℚ) ^ places ≠ 0 := by positivity
  have grid : (k / 10 ^ places : ℚ) = (k : ℤ) * 2 ^ (e - 52) := by
    rw [div_eq_iff size, mul_assoc, equal, mul_one, Int.cast_natCast]
  have top : (2 : ℚ) ^ (e + 1) = 2 ^ 53 * 2 ^ (e - 52) := zpow_shift 53 (by omega)
  rw [grid, top] at inside
  have few : ((k : ℤ) : ℚ) < 2 ^ 53 := lt_of_mul_lt_mul_right inside (by positivity)
  have few : k < 2 ^ 53 := by exact_mod_cast few
  rw [grid]
  apply isBinary_mul_zpow
  · rw [Nat.abs_cast]
    exact_mod_cast few.le
  · omega

theorem units_binary_div_of_wide (wide : 2 ^ (e - 52) * 10 ^ places ≤ (1 : ℚ)) :
    units places (binary (k / 10 ^ places)) = k := by
  have size : (0 : ℚ) < 10 ^ places := by positivity
  have nonneg : (0 : ℚ) ≤ k / 10 ^ places := by positivity
  rw [units, abs_of_nonneg (binary_nonneg nonneg)]
  rcases wide.eq_or_lt with equal | wider
  · rw [(isBinary_div_of_equal fine inside equal).binary_eq, div_mul_cancel₀ _ size.ne']
    exact halfEven_natCast k
  · apply halfEven_eq (mul_nonneg (binary_nonneg nonneg) size.le)
    have error := abs_binary_sub_le_zpow fine (by rwa [abs_of_nonneg nonneg])
    have error := mul_le_mul_of_nonneg_right error size.le
    rw [abs_sub_comm, abs_div_sub_mul size] at error
    rw [zpow_shift (b := e - 53) 1 (by omega)] at wider
    linarith

end

/-- What is left of a number shows the whole units of its shortest decimal, if the next number is
no farther than a unit away. -/
theorem Magnitude.units_truncated {m next : Magnitude} (larger : m.value < next.value)
    (near : next.value - m.value ≤ 1 / 10 ^ places) :
    units places (m.truncated places) = ⌊m.shortest.value * 10 ^ places⌋₊ := by
  have size : (0 : ℚ) < 10 ^ places := by positivity
  have least := m.truncated_le places
  obtain ⟨e, fine, high, gap⟩ := m.isBinary_value.exists_gap m.value_nonneg
  have step := gap next.value next.isBinary_value larger
  have wide : 2 ^ (e - 52) * 10 ^ places ≤ (1 : ℚ) := by
    rw [← le_div_iff₀ size]
    linarith
  rw [truncated, Decimal.value_cut_eq] at least ⊢
  apply units_binary_div_of_wide fine ?_ wide
  exact lt_of_binary_lt (isBinary_zpow (by omega)) (least.trans_lt high)

namespace Binary64

theorem fixed_abs_truncateTo (negative : Bool) {m next : Magnitude}
    (larger : m.value < next.value) (near : next.value - m.value ≤ 1 / 10 ^ places) :
    ((finite negative m).truncateTo places).abs.fixed places =
      withPlaces places m.shortest.plain := by
  have shown : units places ((finite negative m).truncateTo places).value =
      ⌊m.shortest.value * 10 ^ places⌋₊ := by
    rw [← units_abs, abs_value_truncateTo]
    exact Magnitude.units_truncated larger near
  rw [fixed_abs (isFinite_truncateTo (isFinite_finite negative m) places), shown,
    Decimal.withPlaces_plain]

/-- What is truncated is the text of the number: it is cut, and what is left of it is read. -/
theorem truncateTo_eq_ofChars (negative : Bool) (m : Magnitude) (places : ℕ) :
    (finite negative m).truncateTo places =
      (ofChars (cutText places (finite negative m).plain)).unsignZero := by
  have signed : cutText places ((if negative then ['-'] else []) ++ m.shortest.plain) =
      (if negative then ['-'] else []) ++ (m.shortest.cut places).plain := by
    rw [Decimal.plain_cut]
    cases negative <;> simp [cutText]
  rw [plain, textBy, signed, Decimal.ofChars_signed_plain]
  rfl

/-- Truncating cuts and never grows: no magnitude gets greater, the sign stays or a positive zero is
left, and nothing more is cut the second time. With a number above it that is no farther away than a
unit of the last place, the number shows its own shortest digits up to that place. -/
theorem truncateTo_cuts (negative : Bool) (m : Magnitude) (places : ℕ) :
    let v := finite negative m
    let cut := v.truncateTo places
    cut.abs.le v.abs = true ∧
      (cut = .zero ∨ ∃ n : Magnitude, n.quanta ≠ 0 ∧ cut = finite negative n) ∧
      cut.truncateTo places = cut ∧
      ∀ next : Magnitude, m.value < next.value → next.value - m.value ≤ 1 / 10 ^ places →
        cut.abs.fixed places = withPlaces places v.abs.plain := by
  intro v cut
  have vFinite : v.isFinite = true := isFinite_finite negative m
  have cutFinite : cut.isFinite = true := isFinite_truncateTo vFinite places
  refine ⟨?_, truncateTo_eq_zero_or negative m places, truncateTo_truncateTo vFinite places, ?_⟩
  · rw [le_iff (by rwa [isFinite_abs]) (by rwa [isFinite_abs]), value_abs, value_abs]
    exact v.abs_value_truncateTo_le places
  · intro next larger near
    exact fixed_abs_truncateTo negative larger near

theorem truncateTo_cuts_tenths : ∃ m next : Magnitude,
    m.value = 11 / 4 ∧ next.value = 11 / 4 + 1 / 2 ^ 51 ∧
      ((finite true m).truncateTo 1).abs.fixed 1 = withPlaces 1 (finite true m).abs.plain := by
  have own : IsBinary (11 / 4) := by
    have exact := isBinary_mul_zpow (k := 11) (e := -2) (by decide) (by decide)
    norm_num at exact ⊢
    exact exact
  have following : IsBinary (11 / 4 + 1 / 2 ^ 51) := by
    have exact := isBinary_mul_zpow (k := 11 * 2 ^ 49 + 1) (e := -51) (by decide) (by decide)
    norm_num at exact ⊢
    exact exact
  have small : (11 / 4 + 1 / 2 ^ 51 : ℚ) < 2 ^ 1024 :=
    lt_trans (by norm_num) (pow_lt_limit (n := 2) (by decide))
  obtain ⟨m, value⟩ := Magnitude.exists_value_eq own (by norm_num)
    (lt_trans (by norm_num) small)
  obtain ⟨next, larger⟩ := Magnitude.exists_value_eq following (by norm_num) small
  refine ⟨m, next, value, larger, (truncateTo_cuts true m 1).2.2.2 next ?_ ?_⟩
  · rw [value, larger]
    norm_num
  · rw [value, larger]
    norm_num

end Binary64

end DigitMask
