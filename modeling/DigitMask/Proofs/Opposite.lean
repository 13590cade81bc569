import DigitMask.Proofs.Rounding

/-! Rounding opposite numbers to decimal places. Halves go up, so opposite numbers are rounded to
opposite ones unless they are tied. If one of them is rounded to one place more, the results are
opposite just if that place is not needed. -/
namespace DigitMask

open Binary64 (power wholePlaces power_pos power_bounds kept_iff le_inv_power abs_mul_power_lt
  abs_wholePlaces_le)

variable {q : ℚ}

theorem abs_binary_sub_le_max (q : ℚ) : |binary q - q| ≤ max (|q| / 2 ^ 53) (2 ^ (-1075 : ℤ)) := by
  rcases le_or_gt (2 ^ (-1022 : ℤ)) |q| with normal | subnormal
  · exact le_max_of_le_left (abs_binary_sub_le_mul normal).1
  · apply le_max_of_le_right
    exact abs_binary_sub_le_zpow le_rfl
      (subnormal.trans (zpow_lt_zpow_right₀ one_lt_two (by decide)))

theorem IsBinary.abs_lt_of_fract (exact : IsBinary q) (broken : Int.fract q ≠ 0) :
    |q| < 2 ^ 52 := by
  by_contra large
  obtain ⟨k, rfl⟩ := exact.whole_of_le (not_lt.1 large)
  exact broken (Int.fract_intCast k)

variable {places : ℕ} {v w : ℚ}

/-- What rounding to decimal places does to the value of a number. -/
def toPlaces (places : ℕ) (v : ℚ) : ℚ :=
  if binary (2 ^ 53 / power places) ≤ |v| then v else binary (wholePlaces places v / power places)

theorem Binary64.value_roundTo {x : Binary64} (xFinite : x.isFinite = true) (places : ℕ) :
    (x.roundTo places).value = toPlaces places x.value := by
  obtain ⟨-, keeps, rounds⟩ := roundTo_spec xFinite places
  rw [kept_iff] at keeps rounds
  unfold toPlaces
  split
  · next kept => exact keeps kept
  · next less => exact rounds less

theorem toPlaces_of_lt (less : |v| < binary (2 ^ 53 / power places)) :
    toPlaces places v = binary (wholePlaces places v / power places) := if_neg (not_le.2 less)

theorem wholePlaces_eq {k : ℤ} (near : |binary (v * power places) - k| < 1 / 2) :
    wholePlaces places v = k := by
  obtain ⟨low, high⟩ := abs_lt.1 near
  exact Int.floor_eq_iff.2 ⟨by linarith, by linarith⟩

/-- Scaled back, a whole number of places is off by a relative error only. -/
theorem abs_binary_div_power_sub_le (places : ℕ) (k : ℤ) :
    |binary (k / power places) * power places - k| ≤ max (|(k : ℚ)| / 2 ^ 53) (1 / 2 ^ 50) := by
  have positive := power_pos places
  have error := mul_le_mul_of_nonneg_right (abs_binary_sub_le_max (k / power places)) positive.le
  rw [abs_sub_comm, abs_div_sub_mul positive, abs_sub_comm] at error
  have least : (2 : ℚ) ^ (-1075 : ℤ) * power places ≤ 1 / 2 ^ 50 := by
    have bound := le_inv_power places
    have steps : (2 : ℚ) ^ (-1025 : ℤ) = 2 ^ 50 * 2 ^ (-1075 : ℤ) := zpow_shift 50 (by decide)
    rw [steps, le_div_iff₀ positive] at bound
    rw [le_div_iff₀ (by positivity)]
    linarith
  apply error.trans
  rw [max_mul_of_nonneg _ _ positive.le, abs_div, abs_of_pos positive, div_right_comm,
    div_mul_cancel₀ _ positive.ne']
  exact max_le_max le_rfl least

/-- A number is rounded by at most half a place, and the errors of the product and of the quotient
are at most a place each. -/
theorem abs_toPlaces_sub_mul_le (places : ℕ) (v : ℚ) :
    |toPlaces places v - v| * power places ≤ 5 / 2 := by
  have positive := power_pos places
  rcases le_or_gt (binary (2 ^ 53 / power places)) |v| with kept | less
  · rw [toPlaces, if_pos kept, sub_self, abs_zero, zero_mul]
    norm_num
  have product : |binary (v * power places) - v * power places| ≤ 1 := by
    have bound : |v * power places| < 2 ^ (53 + 1 : ℤ) :=
      (abs_mul_power_lt less).trans (by norm_num)
    simpa using abs_binary_sub_le_zpow (by decide) bound
  have whole : |(wholePlaces places v : ℚ) - binary (v * power places)| ≤ 1 / 2 :=
    abs_floor_add_half_sub_le _
  have count : |(wholePlaces places v : ℚ)| ≤ 2 ^ 53 := by
    exact_mod_cast abs_wholePlaces_le (kept_iff.not.2 (not_le.2 less))
  have quotient : |binary (wholePlaces places v / power places) * power places -
      wholePlaces places v| ≤ 1 := by
    apply (abs_binary_div_power_sub_le places _).trans
    apply max_le
    · linarith
    · norm_num
  rw [toPlaces_of_lt less, ← abs_of_pos positive, ← abs_mul, abs_of_pos positive, sub_mul]
  calc |binary (wholePlaces places v / power places) * power places - v * power places| ≤
        |binary (wholePlaces places v / power places) * power places - wholePlaces places v| +
          |wholePlaces places v - v * power places| := abs_sub_le _ _ _
    _ ≤ |binary (wholePlaces places v / power places) * power places - wholePlaces places v| +
          (|wholePlaces places v - binary (v * power places)| +
            |binary (v * power places) - v * power places|) := by gcongr; exact abs_sub_le _ _ _
    _ ≤ 5 / 2 := by linarith

section Small

variable (small : |v * power places| < 2 ^ 50)
include small

theorem lt_of_small : |v| < binary (2 ^ 53 / power places) := by
  by_contra kept
  have large := (kept_iff.2 (not_lt.1 kept)).le_mul_power
  rw [abs_mul, abs_of_pos (power_pos places)] at small
  norm_num at small large
  linarith

theorem abs_scaled_sub_le_of_small :
    |binary (v * power places) - v * power places| ≤ 1 / 16 := by
  have bound : |v * power places| < 2 ^ (49 + 1 : ℤ) := by exact_mod_cast small
  have error := abs_binary_sub_le_zpow (by decide) bound
  norm_num at error ⊢
  exact error

theorem abs_toPlaces_mul_sub_le :
    |toPlaces places v * power places - wholePlaces places v| ≤ 1 / 8 := by
  have scaled : |binary (v * power places)| ≤ 2 ^ 50 := by
    rw [← binary_abs]
    exact binary_le (isBinary_pow 50) small.le
  have count : |wholePlaces places v| ≤ 2 ^ 50 := abs_floor_add_half_le (by exact_mod_cast scaled)
  have count : |(wholePlaces places v : ℚ)| ≤ 2 ^ 50 := by exact_mod_cast count
  rw [toPlaces_of_lt (lt_of_small small)]
  apply (abs_binary_div_power_sub_le places _).trans
  apply max_le
  · linarith
  · norm_num

theorem toPlaces_eq_of_near (other : |w * power places| < 2 ^ 50)
    (near : |w * power places - v * power places| ≤ 5 / 18) (fixed : toPlaces places w = w) :
    toPlaces places v = w := by
  have product := abs_scaled_sub_le_of_small small
  have quotient := abs_toPlaces_mul_sub_le other
  rw [fixed] at quotient
  have same : wholePlaces places v = wholePlaces places w := by
    apply wholePlaces_eq
    rw [abs_sub_comm] at near
    linarith [abs_sub_le (binary (v * power places)) (v * power places) (wholePlaces places w),
      abs_sub_le (v * power places) (w * power places) (wholePlaces places w)]
  rw [toPlaces_of_lt (lt_of_small small), same, ← toPlaces_of_lt (lt_of_small other), fixed]

theorem toPlaces_toPlaces (other : |toPlaces places v * power places| < 2 ^ 50) :
    toPlaces places (toPlaces places v) = toPlaces places v := by
  have quotient := abs_toPlaces_mul_sub_le small
  have product := abs_scaled_sub_le_of_small other
  have same : wholePlaces places (toPlaces places v) = wholePlaces places v := by
    apply wholePlaces_eq
    linarith [abs_sub_le (binary (toPlaces places v * power places))
      (toPlaces places v * power places) (wholePlaces places v)]
  rw [toPlaces_of_lt (lt_of_small other), same, ← toPlaces_of_lt (lt_of_small small)]

end Small

section MorePlaces

variable (few : places < 308)
include few

theorem nine_mul_power_le : 9 * power places ≤ power (places + 1) := by
  have upper := (power_bounds places).2
  have lower := (power_bounds (places + 1)).1
  have size : (0 : ℚ) < 10 ^ places := by positivity
  rw [Nat.min_eq_left few.le] at upper
  rw [Nat.min_eq_left few, pow_succ] at lower
  norm_num at upper lower
  linarith

/-- Rounding the opposite of a number to one place more gives the opposite of what the number is
rounded to just if that is rounded to itself. -/
theorem neg_toPlaces_neg_eq_iff (v : ℚ) :
    -toPlaces (places + 1) (-v) = toPlaces places v ↔
      toPlaces places (-toPlaces (places + 1) (-v)) = -toPlaces (places + 1) (-v) := by
  rcases le_or_gt (binary (2 ^ 53 / power (places + 1))) |v| with kept | less
  · have same : toPlaces (places + 1) (-v) = -v := if_pos (by rwa [abs_neg])
    rw [same, neg_neg]
    exact eq_comm
  have positive := power_pos places
  have steps := nine_mul_power_le few
  have near := abs_toPlaces_sub_mul_le (places + 1) (-v)
  have bound := abs_mul_power_lt less
  rw [abs_mul, abs_of_pos (power_pos _)] at bound
  have opposite : |toPlaces (places + 1) (-v) - -v| = |-toPlaces (places + 1) (-v) - v| := by
    rw [← abs_neg]
    congr 1
    ring
  rw [opposite] at near
  generalize -toPlaces (places + 1) (-v) = w at near ⊢
  have near : |w * power places - v * power places| ≤ 5 / 18 := by
    rw [← sub_mul, abs_mul, abs_of_pos positive]
    nlinarith [abs_nonneg (w - v)]
  have small : |v * power places| < 2 ^ 50 - 1 := by
    rw [abs_mul, abs_of_pos positive]
    norm_num at bound ⊢
    nlinarith [abs_nonneg v]
  have other : |w * power places| < 2 ^ 50 := by
    linarith [abs_sub_abs_le_abs_sub (w * power places) (v * power places)]
  have small : |v * power places| < 2 ^ 50 := small.trans (by norm_num)
  constructor
  · rintro rfl
    exact toPlaces_toPlaces small other
  · intro fixed
    exact (toPlaces_eq_of_near small other near fixed).symm

end MorePlaces

section Ties

variable {k : ℤ}

/-- Neighbouring whole numbers of places are still told apart after they are scaled back. -/
theorem binary_div_power_ne (least : -2 ^ 52 ≤ k) (most : k < 2 ^ 52) :
    binary (k / power places) ≠ binary ((k + 1 : ℤ) / power places) := by
  intro same
  have lower := abs_binary_div_power_sub_le places k
  have upper := abs_binary_div_power_sub_le places (k + 1)
  have sum : |k| + |k + 1| < 2 ^ 53 := by
    rcases abs_cases k with ⟨_, _⟩ | ⟨_, _⟩ <;>
      rcases abs_cases (k + 1) with ⟨_, _⟩ | ⟨_, _⟩ <;> omega
  have each : |k| ≤ 2 ^ 52 ∧ |k + 1| ≤ 2 ^ 52 :=
    ⟨abs_le.2 ⟨by omega, by omega⟩, abs_le.2 ⟨by omega, by omega⟩⟩
  have sum : |(k : ℚ)| + |((k + 1 : ℤ) : ℚ)| < 2 ^ 53 := by exact_mod_cast sum
  have first : |(k : ℚ)| ≤ 2 ^ 52 := by exact_mod_cast each.1
  have second : |((k + 1 : ℤ) : ℚ)| ≤ 2 ^ 52 := by exact_mod_cast each.2
  rw [← same] at upper
  have apart : (1 : ℚ) ≤ |binary (k / power places) * power places - k| +
      |binary (k / power places) * power places - (k + 1 : ℤ)| := by
    rw [abs_sub_comm _ (k : ℚ)]
    refine le_trans ?_ (abs_add_le _ _)
    push_cast
    norm_num
  rcases le_max_iff.1 lower with lower | lower <;> rcases le_max_iff.1 upper with upper | upper <;>
    norm_num at sum first second lower upper apart <;> linarith

theorem wholePlaces_neg (apart : Int.fract (binary (v * power places)) ≠ 1 / 2) :
    wholePlaces places (-v) = -wholePlaces places v := by
  have low := Int.floor_le (binary (v * power places) + 1 / 2)
  have high := Int.lt_floor_add_one (binary (v * power places) + 1 / 2)
  have strict : (⌊binary (v * power places) + 1 / 2⌋ : ℚ) ≠ binary (v * power places) + 1 / 2 := by
    intro whole
    apply apart
    rw [Int.fract_eq_iff]
    refine ⟨by norm_num, by norm_num, ⌊binary (v * power places) + 1 / 2⌋ - 1, ?_⟩
    push_cast
    linarith
  have less := lt_of_le_of_ne low strict
  unfold wholePlaces
  rw [neg_mul, binary_neg]
  apply Int.floor_eq_iff.2
  push_cast
  exact ⟨by linarith, by linarith⟩

theorem neg_toPlaces_neg_eq_iff_fract (places : ℕ) (v : ℚ) :
    -toPlaces places (-v) = toPlaces places v ↔
      (|v| < binary (2 ^ 53 / power places) → Int.fract (binary (v * power places)) ≠ 1 / 2) := by
  rcases le_or_gt (binary (2 ^ 53 / power places)) |v| with kept | less
  · have opposite : toPlaces places (-v) = -v := if_pos (by rwa [abs_neg])
    have own : toPlaces places v = v := if_pos kept
    rw [opposite, own, neg_neg]
    exact iff_of_true rfl fun less => absurd less (not_lt.2 kept)
  rw [toPlaces_of_lt less, toPlaces_of_lt (by rwa [abs_neg])]
  constructor
  · intro same _ tie
    have exact := (isBinary_binary (v * power places)).abs_lt_of_fract (by rw [tie]; norm_num)
    obtain ⟨least, most⟩ := abs_lt.1 exact
    have split := Int.fract_add_floor (binary (v * power places))
    rw [tie] at split
    have up : wholePlaces places v = ⌊binary (v * power places)⌋ + 1 :=
      floor_add_half_of_le tie.ge
    have down : wholePlaces places (-v) = -⌊binary (v * power places)⌋ := by
      unfold wholePlaces
      rw [neg_mul, binary_neg]
      apply Int.floor_eq_iff.2
      push_cast
      exact ⟨by linarith, by linarith⟩
    rw [up, down, Int.cast_neg, neg_div, binary_neg, neg_neg] at same
    refine binary_div_power_ne ?_ ?_ same
    · apply Int.le_floor.2
      push_cast
      linarith
    · apply Int.floor_lt.2
      push_cast
      linarith
  · intro apart
    rw [wholePlaces_neg (apart less), Int.cast_neg, neg_div, binary_neg, neg_neg]

end Ties

namespace Binary64

variable {x y : Binary64}

/-- Scaled to decimal places, the number is half way between two whole ones. -/
def Tied (places : ℕ) (x : Binary64) : Prop :=
  Int.fract (x * ten.pow (min places maxPlaces)).value = 1 / 2

theorem value_of_not_isFinite (infinite : ¬ x.isFinite = true) : x.value = 0 := by
  cases x with
  | finite negative m => exact absurd rfl infinite
  | _ => rfl

theorem mul_power_spec (xFinite : x.isFinite = true) (places : ℕ) :
    ((x * ten.pow (min places maxPlaces)).isFinite = true ↔
      |binary (x.value * power places)| < 2 ^ 1024) ∧
    ((x * ten.pow (min places maxPlaces)).isFinite = true →
      (x * ten.pow (min places maxPlaces)).value = binary (x.value * power places)) :=
  mul_spec xFinite (isFinite_power places)

theorem tied_iff (xFinite : x.isFinite = true) (places : ℕ) : x.Tied places ↔
    |x.value| < binary (2 ^ 53 / power places) ∧
      Int.fract (binary (x.value * power places)) = 1 / 2 := by
  obtain ⟨finite, scaled⟩ := mul_power_spec xFinite places
  rcases le_or_gt (binary (2 ^ 53 / power places)) |x.value| with kept | less
  · refine iff_of_false ?_ fun small => absurd small.1 (not_lt.2 kept)
    intro tie
    have broken : Int.fract (x * ten.pow (min places maxPlaces)).value ≠ 0 := by
      rw [tie]
      norm_num
    have inside : (x * ten.pow (min places maxPlaces)).isFinite = true := by
      by_contra infinite
      rw [value_of_not_isFinite infinite, Int.fract_zero] at broken
      exact broken rfl
    have small := (isBinary_value _).abs_lt_of_fract broken
    rw [scaled inside, ← binary_abs, abs_mul, abs_of_pos (power_pos places)] at small
    have large := (kept_iff.2 kept).le_mul_power
    have beyond := le_binary (isBinary_pow 52) (le_trans (by norm_num) large)
    exact absurd small (not_lt.2 beyond)
  · have inside := finite.2 ((abs_scaled_le less).trans_lt (pow_lt_limit (by decide)))
    rw [Tied, scaled inside]
    exact (and_iff_right less).symm

theorem unsignZero_eq_iff (xFinite : x.isFinite = true) (yFinite : y.isFinite = true) :
    x.unsignZero = y.unsignZero ↔ x.value = y.value := by
  constructor
  · intro same
    rw [← value_unsignZero, same, value_unsignZero]
  · exact unsignZero_congr xFinite yFinite

section

variable (x) {places : ℕ}

theorem roundTo_neg_eq_iff (few : places < 308) :
    (x.neg.roundTo (places + 1)).unsignZero = (x.roundTo places).neg.unsignZero ↔
      (x.neg.roundTo (places + 1)).neg.roundTo places =
        (x.neg.roundTo (places + 1)).neg.unsignZero := by
  cases x with
  | nan => exact iff_of_true rfl rfl
  | infinity negative =>
    rw [neg, roundTo_infinity, roundTo_infinity, neg, neg, Bool.not_not, roundTo_infinity]
    exact iff_of_true rfl rfl
  | finite negative m =>
    have own : (finite negative m).isFinite = true := rfl
    generalize finite negative m = x at own
    have opposite : x.neg.isFinite = true := by rwa [isFinite_neg]
    have plain := (roundTo_spec own places).1
    have minus := (roundTo_spec opposite (places + 1)).1
    have mirrored : (x.neg.roundTo (places + 1)).neg.isFinite = true := by rwa [isFinite_neg]
    have again := (roundTo_spec mirrored places).1
    rw [← unsignZero_roundTo (x.neg.roundTo (places + 1)).neg,
      unsignZero_eq_iff minus (by rwa [isFinite_neg]), unsignZero_eq_iff again mirrored,
      value_roundTo mirrored, value_neg, value_neg, value_roundTo opposite, value_roundTo own,
      value_neg, ← neg_toPlaces_neg_eq_iff few, neg_eq_iff_eq_neg]

/-- Halves go up, so only tied numbers are not rounded to opposite ones with their opposites. -/
theorem roundTo_neg_eq_iff_not_tied (places : ℕ) :
    (x.neg.roundTo places).unsignZero = (x.roundTo places).neg.unsignZero ↔
      ¬ x.Tied places := by
  by_cases own : x.isFinite = true
  · have opposite : x.neg.isFinite = true := by rwa [isFinite_neg]
    have plain := (roundTo_spec own places).1
    have minus := (roundTo_spec opposite places).1
    rw [unsignZero_eq_iff minus (by rwa [isFinite_neg]), value_neg, value_roundTo opposite,
      value_roundTo own, value_neg, ← neg_eq_iff_eq_neg, neg_toPlaces_neg_eq_iff_fract,
      tied_iff own, not_and]
  · refine iff_of_true ?_ ?_
    · cases x with
      | nan => rfl
      | infinity negative =>
        rw [neg, roundTo_infinity, roundTo_infinity]
        rfl
      | finite => exact absurd rfl own
    · intro tie
      rw [Tied, value_of_not_isFinite fun finite => own (isFinite_of_mul finite),
        Int.fract_zero] at tie
      norm_num at tie

theorem roundTo_of_le (many : maxPlaces ≤ places) : x.roundTo places = x.roundTo maxPlaces := by
  rw [roundTo, roundTo, Nat.min_eq_right many, Nat.min_self]

end

end Binary64

end DigitMask
