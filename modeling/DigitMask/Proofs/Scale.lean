import DigitMask.Proofs.Binary64.Whole
import DigitMask.Scale

/-! Scaling by thousands. The factors are the powers of a thousand, every product rounded. A number
climbs to the last one that it reaches, which is finite and at least one; dividing by it leads
neither out of range nor across zero. -/
namespace DigitMask

namespace Binary64

/-- Rounding keeps the sign, also of what is out of range. -/
theorem ofQuanta_cases (negative : Bool) (num den : ℕ) :
    (∃ m, ofQuanta negative num den = finite negative m) ∨
      ofQuanta negative num den = infinity negative := by
  rw [ofQuanta]
  cases Magnitude.nearest num den with
  | some m => exact .inl ⟨m, rfl⟩
  | none => exact .inr rfl

theorem exists_of_pos {x : Binary64} (positive : 0 < x.value) :
    ∃ m : Magnitude, m.quanta ≠ 0 ∧ x = finite false m := by
  cases x with
  | finite negative m =>
    cases negative with
    | false => exact ⟨m, fun none => positive.ne' ((Magnitude.quanta_eq_zero_iff m).1 none), rfl⟩
    | true =>
      have nonneg := m.value_nonneg
      simp only [value_finite, if_true] at positive
      linarith
  | _ => exact absurd positive (lt_irrefl 0)

theorem infinity_le {x : Binary64} (xFinite : x.isFinite = true) :
    (infinity false).le x = false := by
  obtain ⟨negative, m, rfl⟩ := exists_of_isFinite xFinite
  have bound := m.finite
  apply decide_eq_false
  cases negative <;> simp only [signed, if_true, if_false, Bool.false_eq_true] <;> omega

end Binary64

namespace Scale

open Binary64

/-- A scale that every finite number can be divided by. -/
structure Proper (scale : Scale) : Prop where
  isFinite : scale.factor.isFinite = true
  one_le : 1 ≤ scale.factor.value

theorem thousand_spec : thousand.isFinite = true ∧ thousand.value = 1000 := by
  exact_mod_cast ofNat_spec (n := 1000) (by norm_num)

/-- The powers of a thousand, every product rounded; behind the last finite one they are
infinite. -/
def powers : ℕ → Binary64
  | 0 => .ofNat 1
  | i + 1 => powers i * thousand

theorem infinity_mul_thousand : infinity false * thousand = infinity false := by
  obtain ⟨-, value⟩ := thousand_spec
  obtain ⟨m, nonzero, same⟩ := exists_of_pos (x := thousand) (by rw [value]; norm_num)
  rw [same]
  exact if_neg nonzero

variable {scale : Scale} {x magnitude : Binary64}

/-- A step up leads to a factor that is at least one again, or out of range. -/
theorem Proper.step (proper : scale.Proper) :
    Proper ⟨scale.index + 1, scale.factor * thousand⟩ ∨
      scale.factor * thousand = infinity false := by
  have one := proper.one_le
  obtain ⟨thousandFinite, value⟩ := thousand_spec
  obtain ⟨-, rounds⟩ := mul_spec proper.isFinite thousandFinite
  obtain ⟨m, -, factor⟩ := exists_of_pos (x := scale.factor) (by linarith)
  obtain ⟨n, -, thousandSame⟩ := exists_of_pos (x := thousand) (by rw [value]; norm_num)
  have product : scale.factor * thousand = ofQuanta false (m.quanta * n.quanta) unit := by
    rw [factor, thousandSame]
    rfl
  rcases ofQuanta_cases false (m.quanta * n.quanta) unit with ⟨k, inside⟩ | beyond
  · left
    have finite : (scale.factor * thousand).isFinite = true := by
      rw [product, inside]
      rfl
    refine ⟨finite, ?_⟩
    rw [rounds finite, value]
    apply le_binary isBinary_one
    linarith
  · right
    rw [product, beyond]

theorem proper_one : Proper ⟨0, powers 0⟩ := by
  obtain ⟨finite, value⟩ := ofNat_spec (n := 1) (by norm_num)
  refine ⟨finite, ?_⟩
  rw [powers, value]
  norm_num

theorem proper_powers_or (i : ℕ) : Proper ⟨i, powers i⟩ ∨ powers i = infinity false := by
  induction i with
  | zero => exact .inl proper_one
  | succ i ih =>
    rcases ih with proper | beyond
    · exact proper.step
    · right
      rw [powers, beyond, infinity_mul_thousand]

theorem proper_powers_of_le (xFinite : x.isFinite = true) {i : ℕ}
    (reached : (powers i).le x = true) : Proper ⟨i, powers i⟩ := by
  rcases proper_powers_or i with proper | beyond
  · exact proper
  · rw [beyond, infinity_le xFinite] at reached
    cases reached

/-- Where a magnitude ends up that can climb to the label `last`: at a power of a thousand that it
reaches, and at the last label or before a power that it does not reach. -/
structure Climbed (magnitude : Binary64) (last : ℕ) (scale : Scale) : Prop where
  factor : scale.factor = powers scale.index
  index_le : scale.index ≤ last
  reached : scale.index = 0 ∨ (powers scale.index).le magnitude = true
  stopped : scale.index < last → (powers (scale.index + 1)).le magnitude = false

theorem climbed_climb (factor : scale.factor = powers scale.index)
    (reached : scale.index = 0 ∨ (powers scale.index).le magnitude = true) (left : ℕ) :
    Climbed magnitude (scale.index + left) (climb magnitude scale left) := by
  induction left generalizing scale with
  | zero => exact ⟨factor, le_rfl, reached, fun more => absurd more (lt_irrefl _)⟩
  | succ left ih =>
    have next : scale.factor * thousand = powers (scale.index + 1) := by
      rw [factor]
      rfl
    rw [climb]
    split
    · next reaches =>
      have above := @ih ⟨scale.index + 1, scale.factor * thousand⟩ next
        (.inr (next ▸ reaches))
      rwa [Nat.add_right_comm] at above
    · next short =>
      rw [next, Bool.not_eq_true] at short
      exact ⟨factor, Nat.le_add_right _ _, reached, fun _ => short⟩

theorem climbed_of (x : Binary64) (labels : ℕ) : Climbed x.abs (labels - 1) (of x labels) := by
  have climbed := @climbed_climb ⟨0, .ofNat 1⟩ x.abs rfl (.inl rfl) (labels - 1)
  rwa [Nat.zero_add] at climbed

theorem Climbed.proper {last : ℕ} (climbed : Climbed magnitude last scale)
    (finite : magnitude.isFinite = true) : scale.Proper := by
  have proper : Proper ⟨scale.index, powers scale.index⟩ := by
    rcases climbed.reached with first | reached
    · rw [first]
      exact proper_one
    · exact proper_powers_of_le finite reached
  rwa [← climbed.factor] at proper

theorem proper_of (xFinite : x.isFinite = true) (labels : ℕ) : (of x labels).Proper :=
  (climbed_of x labels).proper (by rwa [isFinite_abs])

section

variable (proper : scale.Proper) (xFinite : x.isFinite = true)
include proper xFinite

theorem Proper.div_spec : (x / scale.factor).isFinite = true ∧
    (x / scale.factor).value = binary (x.value / scale.factor.value) := by
  have one := proper.one_le
  obtain ⟨finite, rounds⟩ := Binary64.div_spec xFinite proper.isFinite (by linarith)
  have small : |binary (x.value / scale.factor.value)| < 2 ^ 1024 := by
    rw [← binary_abs, abs_div, abs_of_pos (by linarith : 0 < scale.factor.value)]
    refine (binary_le (isBinary_abs_iff.2 x.isBinary_value) ?_).trans_lt x.abs_value_lt
    exact div_le_self (abs_nonneg _) one
  exact ⟨finite.2 small, rounds (finite.2 small)⟩

theorem Proper.div_sign : (0 ≤ x.value → 0 ≤ (x / scale.factor).value) ∧
    (x.value ≤ 0 → (x / scale.factor).value ≤ 0) := by
  have one := proper.one_le
  rw [(proper.div_spec xFinite).2]
  constructor
  · intro nonneg
    exact binary_nonneg (div_nonneg nonneg (by linarith))
  · intro nonpos
    have positive : 0 ≤ scale.factor.value := by linarith
    have below := binary_mono (div_nonpos_of_nonpos_of_nonneg nonpos positive)
    rwa [binary_zero] at below

end

theorem Proper.exists_div_eq (proper : scale.Proper) (negative : Bool) (m : Magnitude) :
    ∃ n, finite negative m / scale.factor = finite negative n := by
  have one := proper.one_le
  obtain ⟨k, nonzero, factor⟩ := exists_of_pos (x := scale.factor) (by linarith)
  have quotient : finite negative m / scale.factor =
      ofQuanta (negative != false) (m.quanta * unit) k.quanta := by
    rw [factor]
    exact if_neg nonzero
  rw [Bool.bne_false] at quotient
  have inRange := (proper.div_spec (isFinite_finite negative m)).1
  rcases ofQuanta_cases negative (m.quanta * unit) k.quanta with ⟨n, inside⟩ | beyond
  · exact ⟨n, quotient.trans inside⟩
  · rw [quotient, beyond] at inRange
    cases inRange

theorem of_neg (x : Binary64) (labels : ℕ) : of x.neg labels = of x labels := by
  rw [of, abs_neg, ← of]

end Scale
end DigitMask
