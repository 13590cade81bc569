import DigitMask.Binary64.Basic
import DigitMask.Decimal.Digit

/-! Decimals `coefficient * 10^exponent` and the magnitudes nearest to them. -/
namespace DigitMask

structure Decimal where
  coefficient : Nat
  exponent : Int
  deriving DecidableEq

namespace Decimal

/-- The decimal in quanta, as a ratio. -/
def num (d : Decimal) : Nat := d.coefficient * tenPow d.exponent.toNat * unit
def den (d : Decimal) : Nat := tenPow (-d.exponent).toNat

/-- Since `8 ≤ 10`, the bits of the coefficient and three more for each place show this of every
decimal whose exponent leaves the range far behind, without its power of ten. -/
def vanishes (d : Decimal) : Prop :=
  d.coefficient = 0 ∨ d.coefficient.log2 + 1076 ≤ 3 * (-d.exponent).toNat

def overflows (d : Decimal) : Prop :=
  d.coefficient ≠ 0 ∧ 0 ≤ d.exponent ∧ 1024 ≤ d.coefficient.log2 + 3 * d.exponent.toNat

instance (d : Decimal) : Decidable d.vanishes := by unfold vanishes; infer_instance
instance (d : Decimal) : Decidable d.overflows := by unfold overflows; infer_instance

/-- The magnitude nearest to a decimal, none from `2^1024` on. -/
def nearest (d : Decimal) : Option Magnitude :=
  if d.vanishes then some .zero
  else if d.overflows then none
  else Magnitude.nearest d.num d.den

theorem nearest_of_vanishes {d : Decimal} (h : d.vanishes) :
    Magnitude.nearest d.num d.den = some .zero := by
  apply Magnitude.nearest_eq_zero
  by_cases zero : d.coefficient = 0
  · simp [num, den, zero, tenPow_pos]
  · have places := h.resolve_left zero
    have whole : d.exponent.toNat = 0 := by omega
    have bits : d.coefficient < twoPow (d.coefficient.log2 + 1) := lt_twoPow_log2 _
    calc 2 * d.num = twoPow 1 * (d.coefficient * unit) := by
          rw [num, whole, tenPow_zero, Nat.mul_one, twoPow_eq 1]
      _ < twoPow 1 * (twoPow (d.coefficient.log2 + 1) * unit) :=
          Nat.mul_lt_mul_of_pos_left (Nat.mul_lt_mul_of_pos_right bits unit_pos) (twoPow_pos 1)
      _ = twoPow (d.coefficient.log2 + 1076) := by
          rw [unit, ← twoPow_add, ← twoPow_add]; exact congrArg twoPow (by omega)
      _ ≤ twoPow (3 * (-d.exponent).toNat) := twoPow_le places
      _ ≤ d.den := twoPow_le_tenPow _

theorem nearest_of_overflows {d : Decimal} (h : d.overflows) :
    Magnitude.nearest d.num d.den = none := by
  obtain ⟨nonzero, positive, bits⟩ := h
  have whole : (-d.exponent).toNat = 0 := by omega
  have top : twoPow d.coefficient.log2 ≤ d.coefficient := twoPow_log2_le nonzero
  have den_eq : d.den = 1 := by rw [den, whole, tenPow_zero]
  apply Magnitude.nearest_eq_none (by omega)
  rw [den_eq, Nat.mul_one]
  calc overflow ≤ twoPow (d.coefficient.log2 + 3 * d.exponent.toNat) * unit := by
        rw [overflow, unit, ← twoPow_add]; exact twoPow_le (by omega)
    _ ≤ d.num := by
        rw [twoPow_add]
        exact Nat.mul_le_mul_right _ (Nat.mul_le_mul top (twoPow_le_tenPow _))

/-- The early answers are those of the division. -/
theorem nearest_eq (d : Decimal) : d.nearest = Magnitude.nearest d.num d.den := by
  unfold nearest
  split
  · next h => exact (nearest_of_vanishes h).symm
  · split
    · next h => exact (nearest_of_overflows h).symm
    · rfl

def toBinary64 (negative : Bool) (d : Decimal) : Binary64 := .ofNearest negative d.nearest

theorem toBinary64_eq (negative : Bool) (d : Decimal) :
    d.toBinary64 negative = .ofQuanta negative d.num d.den := by
  rw [toBinary64, Binary64.ofQuanta, nearest_eq]

def integerDigits (d : Decimal) : List Digit :=
  digits (d.coefficient * tenPow d.exponent.toNat / tenPow (-d.exponent).toNat)

/-- The digits after the decimal point in positional form, as many as the exponent has places. -/
def fractionDigits (d : Decimal) : List Digit := lastDigits (-d.exponent).toNat d.coefficient

def cut (places : Nat) (d : Decimal) : Decimal :=
  let extra := (-d.exponent).toNat - places
  ⟨d.coefficient / tenPow extra, d.exponent + extra⟩

end Decimal
end DigitMask
