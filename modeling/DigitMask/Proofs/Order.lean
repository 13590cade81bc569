import DigitMask.Proofs.Display
import DigitMask.Proofs.Figure

/-! The order of numbers. Rounding keeps it across the number from which on nothing is rounded,
and truncating keeps it although it cuts the shortest decimals. So what is displayed is in order,
too. -/
namespace DigitMask

variable {places : ℕ}

namespace Magnitude

/-- Different magnitudes have their shortest decimals in the same order, since these read back. -/
theorem value_shortest_mono {m n : Magnitude} (le : m.value ≤ n.value) :
    m.shortest.value ≤ n.shortest.value := by
  rcases le.eq_or_lt with same | less
  · rw [value_injective same]
  · by_contra above
    have back := binary_mono (not_le.1 above).le
    rw [binary_value_shortest, binary_value_shortest] at back
    exact absurd less (not_lt.2 back)

/-- The magnitude that is left when the shortest decimal is cut. -/
def truncated (places : ℕ) (m : Magnitude) : ℚ := binary (m.shortest.cut places).value

theorem truncated_nonneg (m : Magnitude) (places : ℕ) : 0 ≤ m.truncated places :=
  binary_nonneg (Decimal.value_nonneg _)

theorem truncated_le (m : Magnitude) (places : ℕ) : m.truncated places ≤ m.value := by
  rw [← m.binary_value_shortest]
  exact binary_mono (m.shortest.value_cut_le places)

theorem truncated_mono {m n : Magnitude} (le : m.value ≤ n.value) (places : ℕ) :
    m.truncated places ≤ n.truncated places :=
  binary_mono (Decimal.value_cut_mono (value_shortest_mono le) places)

end Magnitude

/-- A number as it is shown with so many places. -/
def atPlaces (places : ℕ) (q : ℚ) : ℚ :=
  if q < 0 then -(units places q / 10 ^ places) else units places q / 10 ^ places

theorem units_mono {p q : ℚ} (le : |p| ≤ |q|) : units places p ≤ units places q :=
  halfEven_mono (by positivity) (mul_le_mul_of_nonneg_right le (by positivity))

theorem atPlaces_mono {p q : ℚ} (le : p ≤ q) : atPlaces places p ≤ atPlaces places q := by
  have nonneg (r : ℚ) : (0 : ℚ) ≤ units places r / 10 ^ places := by positivity
  have mono {r s : ℚ} (le : |r| ≤ |s|) :
      (units places r / 10 ^ places : ℚ) ≤ units places s / 10 ^ places :=
    div_le_div_of_nonneg_right (by exact_mod_cast units_mono le) (by positivity)
  unfold atPlaces
  split
  · next pNegative =>
    split
    · next qNegative =>
      refine neg_le_neg (mono ?_)
      rw [abs_of_neg pNegative, abs_of_neg qNegative]
      exact neg_le_neg le
    · linarith [nonneg p, nonneg q]
  · next pNonneg =>
    rw [not_lt] at pNonneg
    rw [if_neg (not_lt.2 (pNonneg.trans le))]
    refine mono ?_
    rwa [abs_of_nonneg pNonneg, abs_of_nonneg (pNonneg.trans le)]

namespace Binary64

variable {x y : Binary64} (xFinite : x.isFinite = true) (yFinite : y.isFinite = true)

theorem value_truncateTo (negative : Bool) (m : Magnitude) :
    ((finite negative m).truncateTo places).value =
      if negative then -m.truncated places else m.truncated places :=
  (truncateTo_spec negative m places).2

theorem abs_value_truncateTo_le (x : Binary64) (places : ℕ) :
    |(x.truncateTo places).value| ≤ |x.value| := by
  cases x with
  | finite negative m =>
    rw [abs_value_truncateTo, abs_value_finite]
    exact m.truncated_le places
  | _ => exact le_rfl

include xFinite in
theorem truncateTo_sign (places : ℕ) : (0 ≤ x.value → 0 ≤ (x.truncateTo places).value) ∧
    (x.value ≤ 0 → (x.truncateTo places).value ≤ 0) := by
  obtain ⟨negative, m, rfl⟩ := exists_of_isFinite xFinite
  have least := m.truncated_nonneg places
  have most := m.truncated_le places
  rw [value_truncateTo, value_finite]
  cases negative with
  | false =>
    simp only [Bool.false_eq_true, if_false]
    exact ⟨fun _ => least, most.trans⟩
  | true =>
    simp only [if_true]
    exact ⟨fun nonneg => by linarith, fun _ => by linarith⟩

theorem wholePlaces_mono {v w : ℚ} (le : v ≤ w) : wholePlaces places v ≤ wholePlaces places w := by
  have scaled := binary_mono (mul_le_mul_of_nonneg_right le (power_pos places).le)
  exact Int.floor_mono (by linarith)

section

variable (le : x.value ≤ y.value)
include xFinite yFinite le

theorem truncateTo_mono : (x.truncateTo places).value ≤ (y.truncateTo places).value := by
  obtain ⟨a, m, rfl⟩ := exists_of_isFinite xFinite
  obtain ⟨b, n, rfl⟩ := exists_of_isFinite yFinite
  have mLeft := m.truncated_nonneg places
  have nLeft := n.truncated_nonneg places
  rw [value_truncateTo, value_truncateTo]
  rw [value_finite, value_finite] at le
  cases a <;> cases b <;> simp only [if_true, if_false, Bool.false_eq_true] at le ⊢
  case false.false => exact Magnitude.truncated_mono le places
  case false.true => linarith [m.truncated_le places, n.truncated_le places]
  case true.false => linarith
  case true.true => linarith [Magnitude.truncated_mono (neg_le_neg_iff.1 le) places]

/-- Numbers that are kept lie beyond all those that are rounded, before and after. -/
theorem roundTo_mono : (x.roundTo places).value ≤ (y.roundTo places).value := by
  obtain ⟨-, xKeeps, xRounds⟩ := roundTo_spec xFinite places
  obtain ⟨-, yKeeps, yRounds⟩ := roundTo_spec yFinite places
  by_cases xKept : Kept places x.value <;> by_cases yKept : Kept places y.value
  · rw [xKeeps xKept, yKeeps yKept]
    exact le
  · rw [xKeeps xKept, yRounds yKept]
    have rounded := (abs_le.1 (abs_binary_wholePlaces_div_le yKept)).1
    rw [kept_iff] at xKept yKept
    rcases le_abs.1 xKept with above | below
    · exact absurd ((above.trans le).trans (le_abs_self _)) yKept
    · linarith
  · rw [xRounds xKept, yKeeps yKept]
    have rounded := (abs_le.1 (abs_binary_wholePlaces_div_le xKept)).2
    rw [kept_iff] at xKept yKept
    rcases le_abs.1 yKept with above | below
    · linarith
    · exact absurd ((below.trans (neg_le_neg le)).trans (neg_le_abs _)) xKept
  · rw [xRounds xKept, yRounds yKept]
    refine binary_mono (div_le_div_of_nonneg_right ?_ (power_pos places).le)
    exact_mod_cast wholePlaces_mono le

end

end Binary64

namespace Figure

variable (pattern : Pattern) (options : Options) {x y : Binary64} (xFinite : x.isFinite = true)
include xFinite

theorem limited_mono (yFinite : y.isFinite = true) (le : x.value ≤ y.value) :
    (limited pattern options x).value ≤ (limited pattern options y).value := by
  rw [limited_eq]
  cases rounding pattern options with
  | true => exact Binary64.roundTo_mono xFinite yFinite le
  | false => exact Binary64.truncateTo_mono xFinite yFinite le

theorem limited_sign : (0 ≤ x.value → 0 ≤ (limited pattern options x).value) ∧
    (x.value ≤ 0 → (limited pattern options x).value ≤ 0) := by
  rw [limited_eq]
  cases rounding pattern options with
  | true => exact Binary64.roundTo_sign xFinite pattern.places
  | false => exact Binary64.truncateTo_sign xFinite pattern.places

end Figure

namespace Display

section

variable {pattern : Pattern} {options : Options}
  (plain : ∀ mask, pattern.fraction = some mask →
    ∀ token ∈ mask, token = .digit ∨ token = .optional)
include plain

theorem denoted_ofUnits (label : String) (forced : Bool) (q : ℚ) :
    denoted pattern options
        (.ofUnits pattern label forced (decide (q < 0)) (units pattern.places q)) =
      atPlaces pattern.places q := by
  rw [denoted_eq options (length_lastDigits _ _) plain, Figure.negative_ofUnits,
    Figure.decimal_ofUnits, Decimal.value_places, atPlaces]
  simp only [decide_eq_true_eq]

/-- A number that is not greater is not displayed as a greater one. -/
theorem denoted_mono (scale : options.scale = false) (scaled : pattern.scaled = false)
    {x y : Binary64} (xFinite : x.isFinite = true) (yFinite : y.isFinite = true)
    (le : x.le y = true) : ∃ f g, Shows pattern options x f ∧ Shows pattern options y g ∧
      denoted pattern options f ≤ denoted pattern options g := by
  rw [Binary64.le_iff xFinite yFinite] at le
  refine ⟨_, _, shows (Figure.of_eq_ofUnits xFinite scale scaled),
    shows (Figure.of_eq_ofUnits yFinite scale scaled), ?_⟩
  rw [denoted_ofUnits plain, denoted_ofUnits plain]
  exact atPlaces_mono (Figure.limited_mono pattern options xFinite yFinite le)

end

def amounts : Pattern := { integer := [.optional, .digit], fraction := some [.digit, .optional] }

theorem plain_amounts : ∀ mask, amounts.fraction = some mask →
    ∀ token ∈ mask, token = .digit ∨ token = .optional := by
  intro mask same
  cases same
  simp

/-- Of two neighbours the smaller one is rounded and the greater one is kept. -/
theorem denoted_mono_neighbours : ∃ f g,
    Shows amounts {} (.ofNat 90071992547409) f ∧ Shows amounts {} (.ofNat 90071992547410) g ∧
      denoted amounts {} f ≤ denoted amounts {} g := by
  have smaller := Binary64.ofNat_spec (n := 90071992547409) (by norm_num)
  have greater := Binary64.ofNat_spec (n := 90071992547410) (by norm_num)
  refine denoted_mono plain_amounts rfl rfl smaller.1 greater.1 ?_
  rw [Binary64.le_iff smaller.1 greater.1, smaller.2, greater.2]
  norm_num

end Display
end DigitMask
