import DigitMask.Decimal.Digit
import Mathlib.Data.List.Induction
import Mathlib.Data.Set.List
import Mathlib.Tactic.Ring

/-! Runs of digits put together: what zeros at their ends and digits behind them do to the number
that they denote. -/
namespace DigitMask

theorem isDigit_char (d : Digit) : d.char.isDigit = true := by
  revert d; decide

theorem isDigit_iff (c : Char) : c.isDigit = true ↔ ∃ d : Digit, d.char = c := by
  constructor
  · intro digit
    simp only [Char.isDigit, Bool.and_eq_true, decide_eq_true_eq, UInt32.le_iff_toNat_le] at digit
    have range : 48 ≤ c.toNat ∧ c.toNat < 58 := ⟨digit.1, Nat.lt_succ_of_le digit.2⟩
    have read : Digit.ofChar? c = some ⟨c.toNat - 48, by omega⟩ := dif_pos range
    exact ⟨_, Digit.char_of_ofChar? read⟩
  · rintro ⟨d, rfl⟩
    exact isDigit_char d

theorem Digit.char_ne {c : Char} (other : c.isDigit = false) (d : Digit) : d.char ≠ c := by
  rintro rfl
  rw [isDigit_char] at other
  cases other

section Run

variable {run : List Digit} {c : Char}

theorem isDigit_of_mem_run (member : c ∈ run.map Digit.char) : c.isDigit = true := by
  obtain ⟨d, -, rfl⟩ := List.mem_map.1 member
  exact isDigit_char d

theorem not_mem_run (other : c.isDigit = false) : c ∉ run.map Digit.char := by
  intro member
  rw [isDigit_of_mem_run member] at other
  cases other

end Run

theorem exists_map_char {text : List Char} (digits : ∀ c ∈ text, c.isDigit = true) :
    ∃ run : List Digit, run.map Digit.char = text := by
  have range : text ∈ Set.range (List.map Digit.char) := by
    rw [Set.range_list_map]
    exact fun c member => (isDigit_iff c).1 (digits c member)
  exact range

theorem filterMap_ofChar? (digits : List Digit) :
    (digits.map Digit.char).filterMap Digit.ofChar? = digits := by
  induction digits with
  | nil => rfl
  | cons d digits ih => simp [ih]

theorem number_append (front back : List Digit) :
    number (front ++ back) = number front * tenPow back.length + number back := by
  induction back using List.reverseRecOn with
  | nil => simp [tenPow_zero]
  | append_singleton back d ih =>
    rw [← List.append_assoc, number_append_singleton, number_append_singleton, ih,
      List.length_append, List.length_singleton, tenPow_succ]
    ring

theorem number_replicate_zero (count : Nat) : number (List.replicate count Digit.zero) = 0 := by
  induction count with
  | zero => rfl
  | succ count ih => rw [List.replicate_succ', number_append_singleton, ih]; rfl

theorem number_zeros_append (count : Nat) (digits : List Digit) :
    number (List.replicate count Digit.zero ++ digits) = number digits := by
  rw [number_append, number_replicate_zero, Nat.zero_mul, Nat.zero_add]

theorem number_append_zeros (digits : List Digit) (count : Nat) :
    number (digits ++ List.replicate count Digit.zero) = number digits * tenPow count := by
  rw [number_append, number_replicate_zero, List.length_replicate, Nat.add_zero]

/-- The digits of a number, cut before its last places, make up the number again. -/
theorem number_digits_lastDigits (places n : Nat) :
    number (digits (n / tenPow places) ++ lastDigits places n) = n := by
  rw [number_append, number_digits, number_lastDigits, length_lastDigits, Nat.mul_comm,
    Nat.div_add_mod]

theorem number_eq_zero_iff (digits : List Digit) :
    number digits = 0 ↔ ∀ d ∈ digits, d = Digit.zero := by
  induction digits using List.reverseRecOn with
  | nil => simp
  | append_singleton front d ih =>
    have last : d.val = 0 ↔ d = Digit.zero := Fin.val_eq_zero_iff
    rw [number_append_singleton, List.forall_mem_append, List.forall_mem_singleton, ← ih, ← last]
    omega

/-- There is no zero in front but the one of zero. -/
theorem digits_of_head_zero {n : Nat} (leads : (digits n).head? = some Digit.zero) :
    digits n = [Digit.zero] := by
  induction n using Nat.strongRecOn with
  | ind n ih =>
    rw [digits_eq] at leads ⊢
    split at leads
    · next small =>
      rw [if_pos small]
      exact congrArg (fun d => [d]) (Option.some_inj.1 leads)
    · next large =>
      have front : (digits (n / 10)).head? = some Digit.zero := by
        rw [← leads, List.head?_append, List.head?_eq_some_head (digits_ne_nil _), Option.some_or]
      have none := congrArg number (ih (n / 10) (by omega) front)
      rw [number_digits] at none
      have none : n / 10 = 0 := none
      omega

theorem lastDigits_add (front back n : Nat) :
    lastDigits (front + back) n = lastDigits front (n / tenPow back) ++ lastDigits back n := by
  induction back generalizing n with
  | zero => simp [tenPow_zero, lastDigits, lastDigitsBefore]
  | succ back ih =>
    rw [← Nat.add_assoc, lastDigits_succ, lastDigits_succ, ih, Nat.div_div_eq_div_mul,
      ← tenPow_succ, List.append_assoc]

theorem lastDigits_mul_tenPow (width n : Nat) :
    lastDigits width (n * tenPow width) = List.replicate width Digit.zero := by
  induction width with
  | zero => rfl
  | succ width ih =>
    have shift : n * tenPow (width + 1) = n * tenPow width * 10 := by rw [tenPow_succ]; ring
    have last : lastDigit (n * tenPow width * 10) = Digit.zero := Fin.ext (Nat.mul_mod_left _ 10)
    rw [lastDigits_succ, shift, Nat.mul_div_cancel _ (by decide), ih, last, List.replicate_succ']

theorem take_lastDigits (places width n : Nat) : (lastDigits width n).take places =
    lastDigits (min places width) (n / tenPow (width - places)) := by
  rcases Nat.le_total places width with fewer | more
  · obtain ⟨extra, rfl⟩ := Nat.exists_eq_add_of_le fewer
    rw [lastDigits_add, List.take_left' (length_lastDigits _ _), Nat.min_eq_left fewer,
      Nat.add_sub_cancel_left]
  · rw [List.take_of_length_le (by simpa using more), Nat.min_eq_right more,
      Nat.sub_eq_zero_of_le more, tenPow_zero, Nat.div_one]

/-- Where the decimal point moves, digits are cut off or zeros appended. -/
theorem lastDigits_scaled (places width n : Nat) :
    lastDigits places (n * tenPow places / tenPow width) =
      (lastDigits width n).take places ++ List.replicate (places - width) Digit.zero := by
  rcases Nat.le_total places width with fewer | more
  · obtain ⟨extra, rfl⟩ := Nat.exists_eq_add_of_le fewer
    have cut : n * tenPow places / tenPow (places + extra) = n / tenPow extra := by
      rw [tenPow_add, Nat.mul_comm n, Nat.mul_div_mul_left _ _ (tenPow_pos places)]
    rw [cut, take_lastDigits, Nat.min_eq_left fewer, Nat.add_sub_cancel_left,
      Nat.sub_eq_zero_of_le fewer, List.replicate_zero, List.append_nil]
  · obtain ⟨extra, rfl⟩ := Nat.exists_eq_add_of_le more
    have filled : n * tenPow (width + extra) / tenPow width = n * tenPow extra := by
      rw [tenPow_add, Nat.mul_left_comm, Nat.mul_div_cancel_left _ (tenPow_pos width)]
    rw [filled, lastDigits_add, Nat.mul_div_cancel _ (tenPow_pos extra), lastDigits_mul_tenPow,
      List.take_of_length_le (by simp), Nat.add_sub_cancel_left]

end DigitMask
