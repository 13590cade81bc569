import DigitMask.Proofs.Binary64.Power
import DigitMask.Proofs.Scale

/-! Which label a number is scaled to: the last one whose power of a thousand it reaches. Before the
last label of all, what is left of the number is less than a thousand. -/
namespace DigitMask

/-- Aligned counts keep the distance of the spacing below a count that is no power of two. -/
theorem Aligned.add_spacing_le {j n : ℕ} (aligned : Aligned j) (own : Aligned n)
    (inside : twoPow n.log2 < n) (less : j < n) : j + spacing n ≤ n := by
  have step {k : ℕ} (grid : spacing n ∣ k) (less : k < n) : k + spacing n ≤ n := by
    have gap := Nat.le_of_dvd (Nat.sub_pos_of_lt less) (Nat.dvd_sub own grid)
    omega
  by_cases above : twoPow n.log2 ≤ j
  · exact step (aligned.spacing_dvd above) less
  · -- Below the power of two the spacing may be narrower, but the power of two lies between.
    have := step (spacing_dvd_twoPow_log2 n) inside
    omega

theorem binary_lt_thousand {q : ℚ} (nonneg : 0 ≤ q) (less : q < 1000 - 1 / 2 ^ 44) :
    binary q < 1000 := by
  have small : |q| < 2 ^ (9 + 1 : ℤ) := by
    rw [abs_of_nonneg nonneg]
    norm_num
    linarith
  have error := abs_binary_sub_le_zpow (by decide) small
  norm_num at error less
  linarith [(abs_le.1 error).2]

namespace Scale

open Binary64

/-- Half the spacing less than a thousand, in units of that half. -/
def roundsBelow : ℕ := 1000 * twoPow 44 - 1

theorem roundsBelow_cast : (roundsBelow : ℚ) = 1000 * 2 ^ 44 - 1 := by
  have positive : 0 < 1000 * twoPow 44 := Nat.mul_pos (by decide) (twoPow_pos 44)
  rw [roundsBelow, Nat.cast_pred positive, Nat.cast_mul, twoPow_cast, Nat.cast_ofNat]

/-- Whether the greatest number before `next`, divided by the magnitude, is rounded to less than a
thousand. -/
def leavesRoom (m : Magnitude) : Binary64 → Bool
  | finite _ next =>
    decide (twoPow next.quanta.log2 < next.quanta) &&
      decide ((next.quanta - spacing next.quanta) * twoPow 44 < roundsBelow * m.quanta)
  | _ => decide (overflow * twoPow 44 < roundsBelow * m.quanta)

theorem lt_of_leavesRoom {m n : Magnitude} {next : Binary64} (room : leavesRoom m next = true)
    (short : next.le (finite false n) = false) :
    n.quanta * twoPow 44 < roundsBelow * m.quanta := by
  have inRange := Nat.mul_lt_mul_of_pos_right n.finite (twoPow_pos 44)
  cases next with
  | nan => exact inRange.trans (of_decide_eq_true room)
  | infinity negative => exact inRange.trans (of_decide_eq_true room)
  | finite negative next =>
    simp only [leavesRoom, Bool.and_eq_true, decide_eq_true_eq] at room
    have less : n.quanta < next.quanta := by
      have above := of_decide_eq_false short
      cases negative <;> simp only [signed, if_true, if_false, Bool.false_eq_true] at above <;> omega
    have gap := n.aligned_quanta.add_spacing_le next.aligned_quanta room.1 less
    have bound : n.quanta ≤ next.quanta - spacing next.quanta := by omega
    exact (Nat.mul_le_mul_right _ bound).trans_lt room.2

theorem value_lt_of_leavesRoom {m n : Magnitude} {next : Binary64} (room : leavesRoom m next = true)
    (short : next.le (finite false n) = false) : n.value < (1000 - 1 / 2 ^ 44) * m.value := by
  have less : (n.quanta * 2 ^ 44 : ℚ) < (1000 * 2 ^ 44 - 1) * m.quanta := by
    rw [← roundsBelow_cast, ← twoPow_cast]
    exact_mod_cast lt_of_leavesRoom room short
  rw [← mul_lt_mul_iff_of_pos_right unit_cast_pos, n.value_mul_unit, mul_assoc, m.value_mul_unit]
  norm_num at less ⊢
  linarith

/-- Whether numbers that do not reach the next power are divided by this one to less than a
thousand. -/
def staysBelow : Binary64 → Bool
  | finite negative m => leavesRoom m (finite negative m * thousand)
  | _ => true

set_option maxRecDepth 10000 in
/-- Behind the hundred and second the powers are infinite. -/
theorem staysBelow_table :
    (∀ i < 103, staysBelow (powers i) = true) ∧ powers 103 = infinity false := by
  decide +kernel

theorem powers_eq_infinity {i : ℕ} (far : 103 ≤ i) : powers i = infinity false := by
  induction i, far using Nat.le_induction with
  | base => exact staysBelow_table.2
  | succ i far ih => rw [powers, ih, infinity_mul_thousand]

theorem staysBelow_powers (i : ℕ) : staysBelow (powers i) = true := by
  rcases Nat.lt_or_ge i 103 with near | far
  · exact staysBelow_table.1 i near
  · rw [powers_eq_infinity far]
    rfl

variable {x y : Binary64}

theorem abs_value_div_lt (xFinite : x.isFinite = true) {labels : ℕ}
    (more : (of x labels).index + 1 < labels) :
    |(x / (of x labels).factor).value| < 1000 := by
  have climbed := climbed_of x labels
  have proper := proper_of xFinite labels
  have positive : 0 < (of x labels).factor.value := zero_lt_one.trans_le proper.one_le
  obtain ⟨negative, n, rfl⟩ := exists_of_isFinite xFinite
  obtain ⟨m, -, factor⟩ := exists_of_pos positive
  have next : powers ((of (finite negative n) labels).index + 1) = finite false m * thousand := by
    rw [powers, ← climbed.factor, factor]
  have short := climbed.stopped (by omega)
  have room := staysBelow_powers (of (finite negative n) labels).index
  rw [next] at short
  rw [← climbed.factor, factor] at room
  rw [(proper.div_spec xFinite).2, ← binary_abs, abs_div, abs_value_finite, factor,
    abs_value_finite]
  apply binary_lt_thousand (div_nonneg n.value_nonneg m.value_nonneg)
  rw [factor] at positive
  apply (div_lt_iff₀ positive).2
  exact value_lt_of_leavesRoom room short

section

variable (xFinite : x.isFinite = true) {i j : ℕ}
include xFinite

theorem le_of_succ_le (reached : (powers (i + 1)).le x = true) : (powers i).le x = true := by
  have above := proper_powers_of_le xFinite reached
  rcases proper_powers_or i with proper | beyond
  · obtain ⟨thousandFinite, value⟩ := thousand_spec
    have one := proper.one_le
    obtain ⟨-, rounds⟩ := mul_spec proper.isFinite thousandFinite
    have grows : (powers i).value ≤ (powers (i + 1)).value := by
      rw [powers, rounds above.isFinite, value]
      apply le_binary (powers i).isBinary_value
      linarith
    rw [le_iff above.isFinite xFinite] at reached
    rw [le_iff proper.isFinite xFinite]
    exact grows.trans reached
  · have infinite := above.isFinite
    rw [powers, beyond, infinity_mul_thousand] at infinite
    cases infinite

theorem le_of_le (le : i ≤ j) (reached : (powers j).le x = true) : (powers i).le x = true := by
  induction le with
  | refl => exact reached
  | step _ ih => exact ih (le_of_succ_le xFinite reached)

end

/-- The labels that a number can be shown with: the first one, and those whose power of a thousand
it reaches. -/
def reachable (labels : ℕ) (x : Binary64) : Set ℕ :=
  {i | i = 0 ∨ i < labels ∧ (powers i).le x.abs = true}

theorem isGreatest_index (xFinite : x.isFinite = true) (labels : ℕ) :
    IsGreatest (reachable labels x) (of x labels).index := by
  have climbed := climbed_of x labels
  have last := climbed.index_le
  constructor
  · by_cases first : (of x labels).index = 0
    · exact .inl first
    · exact .inr ⟨by omega, climbed.reached.resolve_left first⟩
  · intro i member
    rcases member with rfl | ⟨inside, reached⟩
    · exact Nat.zero_le _
    · by_contra above
      have next := le_of_le (by rwa [isFinite_abs]) (not_le.1 above) reached
      rw [climbed.stopped (by omega)] at next
      cases next

theorem index_mono (xFinite : x.isFinite = true) (yFinite : y.isFinite = true)
    (le : x.abs.le y.abs = true) (labels : ℕ) :
    (of x labels).index ≤ (of y labels).index := by
  have finite {z : Binary64} (zFinite : z.isFinite = true) : z.abs.isFinite = true := by
    rwa [isFinite_abs]
  apply (isGreatest_index yFinite labels).2
  rcases (isGreatest_index xFinite labels).1 with first | ⟨inside, reached⟩
  · exact .inl first
  · refine .inr ⟨inside, ?_⟩
    have power := (proper_powers_of_le (finite xFinite) reached).isFinite
    rw [le_iff power (finite xFinite)] at reached
    rw [le_iff (finite xFinite) (finite yFinite)] at le
    rw [le_iff power (finite yFinite)]
    exact reached.trans le

theorem powers_exact {i : ℕ} (few : i ≤ 7) :
    (powers i).isFinite = true ∧ (powers i).value = 1000 ^ i := by
  induction i with
  | zero =>
    rw [powers, pow_zero]
    exact_mod_cast ofNat_spec (n := 1) (by norm_num)
  | succ i ih =>
    obtain ⟨finite, value⟩ := ih (by omega)
    obtain ⟨thousandFinite, thousandValue⟩ := thousand_spec
    obtain ⟨inRange, rounds⟩ := mul_spec finite thousandFinite
    have exact : IsBinary ((1000 : ℚ) ^ (i + 1)) := by
      have ten := isBinary_tenPow (n := 3 * (i + 1)) (by omega)
      rw [pow_mul] at ten
      norm_num at ten
      exact ten
    rw [value, thousandValue, ← pow_succ, exact.binary_eq] at inRange rounds
    have small : |(1000 : ℚ) ^ (i + 1)| < 2 ^ 1024 := by
      rw [abs_of_pos (by positivity)]
      calc (1000 : ℚ) ^ (i + 1) ≤ 1000 ^ 7 := pow_le_pow_right₀ (by norm_num) few
        _ < 2 ^ 70 := by norm_num
        _ < 2 ^ 1024 := pow_lt_limit (by decide)
    exact ⟨inRange.2 small, rounds (inRange.2 small)⟩

theorem one_le_abs_value_div (xFinite : x.isFinite = true) {labels : ℕ}
    (climbs : 0 < (of x labels).index) : 1 ≤ |(x / (of x labels).factor).value| := by
  have climbed := climbed_of x labels
  have proper := proper_of xFinite labels
  have positive : 0 < (of x labels).factor.value := zero_lt_one.trans_le proper.one_le
  have reached := climbed.reached.resolve_left climbs.ne'
  rw [← climbed.factor, le_iff proper.isFinite (by rwa [isFinite_abs]), value_abs] at reached
  rw [(proper.div_spec xFinite).2, ← binary_abs, abs_div, abs_of_pos positive]
  apply le_binary isBinary_one
  rwa [one_le_div positive]

/-- A number is scaled to the last label whose power of a thousand it reaches, whatever its sign,
and a greater one to no earlier label. The quotient keeps the sign; it is at least one behind the
first label, and less than a thousand before the last one. -/
theorem scales_to_last_reached (negative : Bool) (m : Magnitude) (labels : ℕ) :
    let x := finite negative m
    let scale := of x labels
    scale.factor = powers scale.index ∧ IsGreatest (reachable labels x) scale.index ∧
      (powers scale.index).isFinite = true ∧ (∀ i ≤ 7, (powers i).value = 1000 ^ i) ∧
      (∃ n, x / scale.factor = finite negative n ∧ (0 < scale.index → 1 ≤ n.value) ∧
        (scale.index + 1 < labels → n.value < 1000)) ∧
      of x.neg labels = scale ∧
      ∀ y : Binary64, y.isFinite = true → x.abs.le y.abs = true →
        scale.index ≤ (of y labels).index := by
  intro x scale
  have xFinite : x.isFinite = true := rfl
  have climbed := climbed_of x labels
  have proper : scale.Proper := proper_of xFinite labels
  obtain ⟨n, quotient⟩ := proper.exists_div_eq negative m
  have left : |(x / scale.factor).value| = n.value := by rw [quotient, abs_value_finite]
  refine ⟨climbed.factor, isGreatest_index xFinite labels, climbed.factor ▸ proper.isFinite,
    fun i few => (powers_exact few).2, ⟨n, quotient, ?_, ?_⟩, of_neg x labels,
    fun y yFinite le => index_mono xFinite yFinite le labels⟩
  · intro climbs
    rw [← left]
    exact one_le_abs_value_div xFinite climbs
  · intro more
    rw [← left]
    exact abs_value_div_lt xFinite more

theorem scales_to_last_reached_millions :
    ∃ n : Magnitude, Binary64.ofNat 1234567 / (of (.ofNat 1234567) 5).factor = finite false n ∧
      1 ≤ n.value ∧ n.value < 1000 ∧
      (of (.ofNat 1234567) 5).index ≤ (of (Binary64.ofNat 2000000).neg 5).index := by
  have index : (of (.ofNat 1234567) 5).index = 2 := by decide +kernel
  have greater : (Binary64.ofNat 1234567).abs.le (Binary64.ofNat 2000000).neg.abs = true := by
    decide +kernel
  obtain ⟨xFinite, value⟩ := ofNat_spec (n := 1234567) (by norm_num)
  obtain ⟨m, -, number⟩ := exists_of_pos (x := .ofNat 1234567) (by rw [value]; norm_num)
  rw [number] at index greater ⊢
  obtain ⟨-, -, -, -, ⟨n, quotient, least, less⟩, -, monotone⟩ := scales_to_last_reached false m 5
  exact ⟨n, quotient, least (by omega), less (by omega), monotone _ (by decide +kernel) greater⟩

end Scale
end DigitMask
