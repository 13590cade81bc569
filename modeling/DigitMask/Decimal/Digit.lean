import DigitMask.Power

/-! Decimal digits, most significant first. `number_digits` and `number_lastDigits` say which
number a run of digits denotes. -/
namespace DigitMask

abbrev Digit := Fin 10

namespace Digit

def zero : Digit := ⟨0, by decide⟩

def char (d : Digit) : Char := Char.ofNat (48 + d.val)

def ofChar? (c : Char) : Option Digit :=
  if range : 48 ≤ c.toNat ∧ c.toNat < 58 then some ⟨c.toNat - 48, by omega⟩ else none

theorem toNat_char (d : Digit) : d.char.toNat = 48 + d.val := by
  revert d; decide

@[simp] theorem ofChar?_char (d : Digit) : ofChar? d.char = some d := by
  revert d; decide

theorem char_of_ofChar? {c : Char} {d : Digit} (read : ofChar? c = some d) : d.char = c := by
  unfold ofChar? at read
  split at read
  · next range =>
    cases read
    apply Char.toNat_inj.1
    rw [toNat_char]
    show 48 + (c.toNat - 48) = c.toNat
    omega
  · cases read

end Digit

def lastDigit (n : Nat) : Digit := ⟨n % 10, Nat.mod_lt n (by decide)⟩

/-- Writes the digits of `n` in front of `tail`. -/
def digitsBefore (tail : List Digit) (n : Nat) : List Digit :=
  if n < 10 then lastDigit n :: tail else digitsBefore (lastDigit n :: tail) (n / 10)

/-- The digits of a number, without a leading zero unless it is zero. -/
def digits (n : Nat) : List Digit := digitsBefore [] n

def lastDigitsBefore (tail : List Digit) (n : Nat) : Nat → List Digit
  | 0 => tail
  | width + 1 => lastDigitsBefore (lastDigit n :: tail) (n / 10) width

/-- The last `width` digits of a number, with leading zeros as needed. -/
def lastDigits (width n : Nat) : List Digit := lastDigitsBefore [] n width

def number (digits : List Digit) : Nat := digits.foldl (fun n d => 10 * n + d.val) 0

@[simp] theorem number_nil : number [] = 0 := rfl

@[simp] theorem number_append_singleton (front : List Digit) (d : Digit) :
    number (front ++ [d]) = 10 * number front + d.val := by
  simp [number]

theorem digitsBefore_eq (tail : List Digit) (n : Nat) :
    digitsBefore tail n = digits n ++ tail := by
  unfold digits
  induction n using Nat.strongRecOn generalizing tail with
  | ind n ih =>
    rw [digitsBefore.eq_def tail, digitsBefore.eq_def []]
    by_cases small : n < 10
    · simp [small]
    · rw [if_neg small, if_neg small, ih (n / 10) (by omega), ih (n / 10) (by omega) [lastDigit n]]
      simp

theorem digits_eq (n : Nat) :
    digits n = if n < 10 then [lastDigit n] else digits (n / 10) ++ [lastDigit n] := by
  rw [digits, digitsBefore]
  split
  · rfl
  · exact digitsBefore_eq _ _

theorem digits_ne_nil (n : Nat) : digits n ≠ [] := by
  rw [digits_eq]; split <;> simp

@[simp] theorem number_digits (n : Nat) : number (digits n) = n := by
  induction n using Nat.strongRecOn with
  | ind n ih =>
    rw [digits_eq]
    split
    · next small => simp [number, lastDigit, Nat.mod_eq_of_lt small]
    · next large =>
      rw [number_append_singleton, ih (n / 10) (by omega)]
      simp only [lastDigit]; omega

theorem lastDigitsBefore_eq (tail : List Digit) (n width : Nat) :
    lastDigitsBefore tail n width = lastDigits width n ++ tail := by
  unfold lastDigits
  induction width generalizing tail n with
  | zero => rfl
  | succ width ih =>
    rw [lastDigitsBefore, ih, lastDigitsBefore, ih [lastDigit n]]
    simp

theorem lastDigits_succ (width n : Nat) :
    lastDigits (width + 1) n = lastDigits width (n / 10) ++ [lastDigit n] := by
  rw [lastDigits, lastDigitsBefore, lastDigitsBefore_eq]

@[simp] theorem length_lastDigits (width n : Nat) : (lastDigits width n).length = width := by
  induction width generalizing n with
  | zero => rfl
  | succ width ih => simp [lastDigits_succ, ih]

theorem number_lastDigits (width n : Nat) :
    number (lastDigits width n) = n % tenPow width := by
  induction width generalizing n with
  | zero => rw [tenPow_zero, Nat.mod_one]; rfl
  | succ width ih =>
    rw [lastDigits_succ, number_append_singleton, ih, tenPow_succ, Nat.mod_mul]
    simp only [lastDigit]; omega

end DigitMask
