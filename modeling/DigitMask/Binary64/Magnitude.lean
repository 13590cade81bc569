import DigitMask.Integer
import DigitMask.Power

/-! The magnitudes of finite binary64 numbers. Each is a whole multiple of the least positive one,
the quantum `2^-1074`, so a magnitude is a count of quanta. `Magnitude.nearest` rounds a ratio of
natural numbers and is the only place where anything is rounded to binary64. -/
namespace DigitMask

/-- The spacing of the magnitudes around `quanta`: a magnitude has 53 significant bits. -/
def spacing (quanta : Nat) : Nat := twoPow (quanta.log2 - 52)

/-- The first power of two beyond the finite magnitudes, `2^1024`, in quanta. -/
def overflow : Nat := twoPow 2098

/-- The number one, in quanta. -/
def unit : Nat := twoPow 1074

theorem spacing_pos (quanta : Nat) : 0 < spacing quanta := twoPow_pos _
theorem overflow_pos : 0 < overflow := twoPow_pos _
theorem unit_pos : 0 < unit := twoPow_pos _

structure Magnitude where
  quanta : Nat
  aligned : quanta % spacing quanta = 0
  finite : quanta < overflow
  deriving DecidableEq

namespace Magnitude

@[ext] theorem ext {m n : Magnitude} (same : m.quanta = n.quanta) : m = n := by
  cases m; cases n; cases same; rfl

/-- At most 53 bits followed by zeros are aligned; `2^53` itself still is. -/
theorem aligned_mul_twoPow {k s : Nat} (small : k ≤ twoPow 53) :
    k * twoPow s % spacing (k * twoPow s) = 0 := by
  apply Nat.mod_eq_zero_of_dvd
  unfold spacing
  by_cases zero : k = 0
  · subst zero; exact ⟨0, by simp⟩
  have positive : k * twoPow s ≠ 0 := Nat.mul_ne_zero zero (Nat.ne_of_gt (twoPow_pos s))
  by_cases top : k = twoPow 53
  · rw [top, ← twoPow_add, log2_twoPow]
    exact twoPow_dvd (by omega)
  · have below : k * twoPow s < twoPow (53 + s) := by
      rw [twoPow_add]
      exact Nat.mul_lt_mul_of_pos_right (by omega) (twoPow_pos s)
    have bits := (log2_lt_iff positive).2 below
    exact Nat.dvd_trans (twoPow_dvd (by omega)) (Nat.dvd_mul_left _ _)

/-- Rounded to the spacing around it, a count of quanta has at most 53 bits or is `2^53`. -/
theorem roundQuotient_le_twoPow (num den : Nat) :
    roundQuotient num (den * spacing (num / den)) ≤ twoPow 53 := by
  refine Nat.le_trans (roundQuotient_le _ _) ?_
  rw [← Nat.div_div_eq_div_mul]
  apply Nat.succ_le_of_lt
  apply Nat.div_lt_of_lt_mul
  unfold spacing
  rw [← twoPow_add]
  exact Nat.lt_of_lt_of_le (lt_twoPow_log2 _) (twoPow_le (by omega))

/-- The magnitude nearest to `num / den` quanta, of two equally near ones the one with an even
significand; none when that is `2^1024` or more. -/
def nearest (num den : Nat) : Option Magnitude :=
  let step := spacing (num / den)
  let quanta := roundQuotient num (den * step) * step
  if finite : quanta < overflow then
    some ⟨quanta, aligned_mul_twoPow (roundQuotient_le_twoPow num den), finite⟩
  else none

def zero : Magnitude := ⟨0, Nat.zero_mod _, overflow_pos⟩

theorem nearest_quanta (m : Magnitude) : nearest m.quanta 1 = some m := by
  have step := Nat.div_add_mod m.quanta (spacing m.quanta)
  rw [m.aligned, Nat.add_zero, Nat.mul_comm] at step
  have exact : roundQuotient m.quanta (spacing m.quanta) * spacing m.quanta = m.quanta := by
    conv => lhs; arg 1; arg 1; rw [← step]
    rw [roundQuotient_mul_self _ (spacing_pos _), step]
  simp [nearest, exact, m.finite]

theorem nearest_eq_zero {num den : Nat} (small : 2 * num < den) : nearest num den = some zero := by
  have floor : num / den = 0 := Nat.div_eq_of_lt (by omega)
  have step : spacing (num / den) = 1 := by rw [floor]; exact twoPow_zero
  have rounded : roundQuotient num den = 0 := by
    rw [roundQuotient, Nat.mod_eq_of_lt (by omega), if_pos (Or.inl small), floor]
  simp [nearest, step, rounded, overflow_pos, zero]

theorem nearest_eq_none {num den : Nat} (positive : 0 < den) (large : overflow * den ≤ num) :
    nearest num den = none := by
  have floor : overflow ≤ num / den := (Nat.le_div_iff_mul_le positive).2 large
  have nonzero : num / den ≠ 0 := Nat.ne_of_gt (Nat.lt_of_lt_of_le overflow_pos floor)
  have bits : 2098 ≤ (num / den).log2 := (le_log2_iff nonzero).2 floor
  have top : twoPow (num / den).log2 ≤ num / den := twoPow_log2_le nonzero
  have split : twoPow (num / den).log2 = twoPow 52 * spacing (num / den) := by
    rw [spacing, ← twoPow_add]; exact congrArg twoPow (by omega)
  have bound : twoPow 52 ≤ roundQuotient num (den * spacing (num / den)) := by
    refine Nat.le_trans ?_ (le_roundQuotient _ _)
    rw [← Nat.div_div_eq_div_mul, Nat.le_div_iff_mul_le (spacing_pos _), ← split]
    exact top
  have beyond : overflow ≤
      roundQuotient num (den * spacing (num / den)) * spacing (num / den) := by
    refine Nat.le_trans (twoPow_le bits) ?_
    rw [split]
    exact Nat.mul_le_mul_right _ bound
  simp [nearest, Nat.not_lt.2 beyond]

end Magnitude

end DigitMask
