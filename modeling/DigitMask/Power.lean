/-! Powers of two and of ten. They are sealed, so that large ones are not computed while a proof
is checked; the lemmas here open them. -/
namespace DigitMask

@[irreducible] def twoPow (n : Nat) : Nat := Nat.pow 2 n

theorem twoPow_eq (n : Nat) : twoPow n = Nat.pow 2 n := by unfold twoPow; rfl
theorem twoPow_zero : twoPow 0 = 1 := twoPow_eq 0
theorem twoPow_pos (n : Nat) : 0 < twoPow n := twoPow_eq n ▸ Nat.two_pow_pos n
theorem twoPow_add (m n : Nat) : twoPow (m + n) = twoPow m * twoPow n := by
  simp only [twoPow_eq]; exact Nat.pow_add 2 m n
theorem twoPow_dvd {m n : Nat} (le : m ≤ n) : twoPow m ∣ twoPow n := by
  simp only [twoPow_eq]; exact Nat.pow_dvd_pow 2 le
theorem twoPow_le {m n : Nat} (le : m ≤ n) : twoPow m ≤ twoPow n :=
  Nat.le_of_dvd (twoPow_pos n) (twoPow_dvd le)
theorem log2_twoPow (n : Nat) : (twoPow n).log2 = n := by rw [twoPow_eq]; exact Nat.log2_two_pow
theorem twoPow_log2_le {n : Nat} (nonzero : n ≠ 0) : twoPow n.log2 ≤ n := by
  rw [twoPow_eq]; exact Nat.log2_self_le nonzero
theorem lt_twoPow_log2 (n : Nat) : n < twoPow (n.log2 + 1) := by
  rw [twoPow_eq]; exact Nat.lt_log2_self
theorem log2_lt_iff {n k : Nat} (nonzero : n ≠ 0) : n.log2 < k ↔ n < twoPow k := by
  rw [twoPow_eq]; exact Nat.log2_lt nonzero
theorem le_log2_iff {n k : Nat} (nonzero : n ≠ 0) : k ≤ n.log2 ↔ twoPow k ≤ n := by
  rw [twoPow_eq]; exact Nat.le_log2 nonzero

@[irreducible] def tenPow (n : Nat) : Nat := Nat.pow 10 n

theorem tenPow_eq (n : Nat) : tenPow n = Nat.pow 10 n := by unfold tenPow; rfl
theorem tenPow_zero : tenPow 0 = 1 := tenPow_eq 0
theorem tenPow_pos (n : Nat) : 0 < tenPow n := tenPow_eq n ▸ Nat.pow_pos (by decide)
theorem tenPow_add (m n : Nat) : tenPow (m + n) = tenPow m * tenPow n := by
  simp only [tenPow_eq]; exact Nat.pow_add 10 m n
theorem tenPow_succ (n : Nat) : tenPow (n + 1) = 10 * tenPow n := by
  simp only [tenPow_eq]; exact Nat.mul_comm _ _

/-- Since `8 ≤ 10`. -/
theorem twoPow_le_tenPow (n : Nat) : twoPow (3 * n) ≤ tenPow n := by
  induction n with
  | zero => exact Nat.le_of_eq (by rw [tenPow_zero, Nat.mul_zero, twoPow_zero])
  | succ n ih =>
    rw [tenPow_succ, Nat.mul_add, twoPow_add, Nat.mul_comm]
    have eight : twoPow (3 * 1) ≤ 10 := by simp [twoPow_eq]
    exact Nat.mul_le_mul eight ih

end DigitMask
