import DigitMask.Proofs.Binary64.Nearest
import Mathlib.Data.Int.Log

/-! Rounding of rational numbers to 53 significant bits and at least a quantum, for both signs.
All arithmetic on binary64 numbers is exact arithmetic followed by this rounding. -/
namespace DigitMask

/-- The binary number nearest to `q`, of two equally near ones the one with an even significand. -/
def binary (q : ℚ) : ℚ :=
  if q < 0 then -(rounded (-q * unit) / unit) else rounded (q * unit) / unit

/-- A number that rounding keeps. -/
def IsBinary (q : ℚ) : Prop := ∃ n, Aligned n ∧ |q| * unit = n

theorem abs_div_sub_mul {c : ℚ} (size : 0 < c) (a b : ℚ) : |a / c - b| * c = |a - b * c| := by
  rw [← abs_of_pos size, ← abs_mul, abs_of_pos size, sub_mul, div_mul_cancel₀ _ size.ne']

theorem unit_cast : (unit : ℚ) = 2 ^ (1074 : ℤ) := by
  rw [unit, twoPow_cast]; exact (zpow_natCast 2 1074).symm

theorem unit_cast_pos : (0 : ℚ) < unit := by exact_mod_cast unit_pos

theorem zpow_shift {a b : ℤ} (n : ℕ) (shift : a = b + n) : (2 : ℚ) ^ a = 2 ^ n * 2 ^ b := by
  rw [shift, add_comm, zpow_add₀ two_ne_zero, zpow_natCast]

/-- Powers of two in quanta. -/
theorem zpow_mul_unit {e : ℤ} {s : ℕ} (shift : e + 1074 = s) : (2 : ℚ) ^ e * unit = 2 ^ s := by
  rw [unit_cast, ← zpow_add₀ two_ne_zero, shift, zpow_natCast]

variable {p q r : ℚ}

theorem binary_of_nonneg (nonneg : 0 ≤ q) : binary q = rounded (q * unit) / unit :=
  if_neg (not_lt.2 nonneg)

theorem rounded_zero : rounded 0 = 0 := by
  simpa using rounded_of_aligned (n := 0) (Nat.dvd_zero _)

@[simp] theorem binary_zero : binary 0 = 0 := by
  rw [binary_of_nonneg le_rfl, zero_mul, rounded_zero]; simp

@[simp] theorem binary_neg (q : ℚ) : binary (-q) = -binary q := by
  rcases lt_trichotomy q 0 with less | rfl | greater
  · rw [binary_of_nonneg (by linarith), binary, if_pos less, neg_neg]
  · simp
  · rw [binary, if_pos (by linarith), neg_neg, binary_of_nonneg greater.le]

theorem binary_nonneg (nonneg : 0 ≤ q) : 0 ≤ binary q := by
  rw [binary_of_nonneg nonneg]; positivity

theorem binary_abs (q : ℚ) : binary |q| = |binary q| := by
  rcases abs_cases q with ⟨same, nonneg⟩ | ⟨same, less⟩
  · rw [same, abs_of_nonneg (binary_nonneg nonneg)]
  · have nonneg := binary_nonneg (q := -q) (by linarith)
    rw [same, binary_neg] at *
    rw [abs_of_nonpos (by linarith)]

theorem abs_binary_ite (negative : Bool) (nonneg : 0 ≤ q) :
    |binary (if negative then -q else q)| = binary q := by
  cases negative <;> simp [abs_of_nonneg (binary_nonneg nonneg)]

theorem binary_mono (le : p ≤ q) : binary p ≤ binary q := by
  have size := unit_cast_pos
  have up {p q : ℚ} (nonneg : 0 ≤ p) (le : p ≤ q) : binary p ≤ binary q := by
    rw [binary_of_nonneg nonneg, binary_of_nonneg (nonneg.trans le)]
    have scaled : p * unit ≤ q * unit := mul_le_mul_of_nonneg_right le size.le
    refine div_le_div_of_nonneg_right ?_ size.le
    exact_mod_cast rounded_mono (mul_nonneg nonneg size.le) scaled
  rcases le_total 0 p with nonneg | nonpos
  · exact up nonneg le
  · have lower := binary_nonneg (q := -p) (by linarith)
    rw [binary_neg] at lower
    rcases le_total 0 q with nonneg | nonpos
    · linarith [binary_nonneg nonneg]
    · have mirrored := up (p := -q) (q := -p) (by linarith) (by linarith)
      rw [binary_neg, binary_neg] at mirrored
      linarith

theorem isBinary_neg (binary : IsBinary q) : IsBinary (-q) := by
  obtain ⟨n, aligned, same⟩ := binary
  exact ⟨n, aligned, by rw [abs_neg, same]⟩

theorem isBinary_abs_iff : IsBinary |q| ↔ IsBinary q := by
  simp [IsBinary]

theorem isBinary_binary (q : ℚ) : IsBinary (binary q) := by
  have size := unit_cast_pos
  rw [← isBinary_abs_iff, ← binary_abs, binary_of_nonneg (abs_nonneg q)]
  refine ⟨rounded (|q| * unit), rounded_aligned (by positivity), ?_⟩
  rw [abs_of_nonneg (by positivity), div_mul_cancel₀ _ size.ne']

theorem IsBinary.binary_eq (exact : IsBinary q) : binary q = q := by
  have size := unit_cast_pos
  have kept {q : ℚ} (nonneg : 0 ≤ q) (exact : IsBinary q) : binary q = q := by
    obtain ⟨n, aligned, same⟩ := exact
    rw [abs_of_nonneg nonneg] at same
    rw [binary_of_nonneg nonneg, same, rounded_of_aligned aligned, ← same,
      mul_div_cancel_right₀ _ size.ne']
  rcases le_total 0 q with nonneg | nonpos
  · exact kept nonneg exact
  · have mirrored := kept (q := -q) (by linarith) (isBinary_neg exact)
    rw [binary_neg] at mirrored
    linarith

theorem binary_le (exact : IsBinary r) (le : q ≤ r) : binary q ≤ r :=
  exact.binary_eq ▸ binary_mono le

theorem le_binary (exact : IsBinary r) (le : r ≤ q) : r ≤ binary q :=
  exact.binary_eq ▸ binary_mono le

theorem lt_of_binary_lt (exact : IsBinary r) (less : binary q < r) : q < r := by
  by_contra le
  exact absurd (le_binary exact (not_lt.1 le)) (not_le.2 less)

/-- No binary number is nearer. -/
theorem abs_binary_sub_le (exact : IsBinary r) : |binary q - q| ≤ |r - q| := by
  have size := unit_cast_pos
  have near {q r : ℚ} (nonneg : 0 ≤ q) (exact : IsBinary r) : |binary q - q| ≤ |r - q| := by
    obtain ⟨n, aligned, same⟩ := exact
    have quanta := abs_rounded_sub_le_abs (mul_nonneg nonneg size.le) aligned
    rw [← abs_div_sub_mul size, ← abs_div_sub_mul size, ← same,
      mul_div_cancel_right₀ _ size.ne', ← binary_of_nonneg nonneg] at quanta
    refine (le_of_mul_le_mul_right quanta size).trans ?_
    -- On the other side of zero numbers are farther away.
    rcases le_total 0 r with positive | negative
    · rw [abs_of_nonneg positive]
    · rw [abs_of_nonpos negative, abs_of_nonpos (a := r - q) (by linarith)]
      exact abs_le.2 ⟨by linarith, by linarith⟩
  rcases le_total 0 q with nonneg | nonpos
  · exact near nonneg exact
  · have mirrored := near (q := -q) (r := -r) (by linarith) (isBinary_neg exact)
    rwa [binary_neg, neg_sub_neg, neg_sub_neg, abs_sub_comm, abs_sub_comm q] at mirrored

theorem isBinary_mul_zpow {k e : ℤ} (small : |k| ≤ 2 ^ 53) (fine : -1074 ≤ e) :
    IsBinary (k * 2 ^ e) := by
  obtain ⟨s, shift⟩ := Int.eq_ofNat_of_zero_le (a := e + 1074) (by omega)
  refine ⟨k.natAbs * twoPow s, aligned_mul_twoPow ?_ s, ?_⟩
  · rw [twoPow_eq, ← Int.ofNat_le, Int.natCast_natAbs]
    exact_mod_cast small
  · rw [abs_mul, abs_of_pos (a := (2 : ℚ) ^ e) (zpow_pos two_pos e), mul_assoc,
      zpow_mul_unit shift, Nat.cast_mul, twoPow_cast, Nat.cast_natAbs]
    push_cast
    rfl

theorem isBinary_intCast {k : ℤ} (small : |k| ≤ 2 ^ 53) : IsBinary k := by
  simpa using isBinary_mul_zpow (e := 0) small (by decide)

theorem isBinary_zpow {e : ℤ} (fine : -1074 ≤ e) : IsBinary (2 ^ e) := by
  simpa using isBinary_mul_zpow (k := 1) (by decide) fine

theorem isBinary_pow (n : ℕ) : IsBinary (2 ^ n) := by
  rw [← zpow_natCast]
  exact isBinary_zpow (by omega)

/-- From `2^e` on, binary numbers are multiples of `2^(e - 52)`. -/
theorem IsBinary.exists_eq {e : ℤ} (exact : IsBinary q) (fine : -1022 ≤ e) (large : 2 ^ e ≤ |q|) :
    ∃ k : ℤ, q = k * 2 ^ (e - 52) := by
  obtain ⟨n, aligned, same⟩ := exact
  obtain ⟨s, shift⟩ := Int.eq_ofNat_of_zero_le (a := e + 1022) (by omega)
  have bits : twoPow (s + 52) ≤ n := by
    have : (2 : ℚ) ^ (s + 52) ≤ n := by
      rw [← same, ← zpow_mul_unit (e := e) (by omega)]
      gcongr
    rw [← twoPow_cast] at this
    exact_mod_cast this
  have grid : twoPow s ∣ n := by
    refine Nat.dvd_trans ?_ aligned
    have log := (le_log2_iff (Nat.ne_of_gt (Nat.lt_of_lt_of_le (twoPow_pos _) bits))).2 bits
    exact twoPow_dvd (by omega)
  obtain ⟨k, rfl⟩ := grid
  have value : |q| = k * 2 ^ (e - 52) := by
    have size := unit_cast_pos
    rw [← mul_right_cancel_iff_of_pos size, same, mul_assoc,
      zpow_mul_unit (e := e - 52) (s := s) (by omega), Nat.cast_mul, twoPow_cast, mul_comm]
  rcases abs_cases q with ⟨positive, -⟩ | ⟨negative, -⟩
  · exact ⟨k, by rw [← positive, value]; push_cast; rfl⟩
  · exact ⟨-k, by push_cast; linarith⟩

theorem abs_binary_sub_le_zpow {e : ℤ} (fine : -1022 ≤ e) (small : |q| < 2 ^ (e + 1)) :
    |binary q - q| ≤ 2 ^ (e - 53) := by
  have size := unit_cast_pos
  have near {q : ℚ} (nonneg : 0 ≤ q) (small : q < 2 ^ (e + 1)) : |binary q - q| ≤ 2 ^ (e - 53) := by
    obtain ⟨s, shift⟩ := Int.eq_ofNat_of_zero_le (a := e + 1022) (by omega)
    have below : ⌊q * unit⌋₊ < twoPow (s + 53) := by
      rw [Nat.floor_lt (by positivity), twoPow_cast, ← zpow_mul_unit (e := e + 1) (by omega)]
      gcongr
    have step : spacing ⌊q * unit⌋₊ ≤ twoPow s := by
      refine twoPow_le ?_
      by_cases zero : ⌊q * unit⌋₊ = 0
      · rw [zero, Nat.log2_zero]; omega
      · have := (log2_lt_iff zero).2 below; omega
    have step : (spacing ⌊q * unit⌋₊ : ℚ) ≤ 2 ^ s := by rw [← twoPow_cast]; exact_mod_cast step
    have quanta := abs_rounded_sub_le (x := q * unit) (by positivity)
    rw [binary_of_nonneg nonneg, ← mul_le_mul_iff_of_pos_right size]
    calc |(rounded (q * unit) : ℚ) / unit - q| * unit = |(rounded (q * unit) : ℚ) - q * unit| :=
          abs_div_sub_mul size _ _
      _ ≤ 2 ^ s / 2 := by linarith
      _ = 2 ^ (e - 53) * unit := by
        rw [← zpow_mul_unit (e := e - 52) (s := s) (by omega),
          zpow_shift (a := e - 52) (b := e - 53) 1 (by omega)]
        ring
  rcases abs_cases q with ⟨same, nonneg⟩ | ⟨same, less⟩
  · exact near nonneg (same ▸ small)
  · have mirrored := near (q := -q) (by linarith) (same ▸ small)
    rwa [binary_neg, neg_sub_neg, abs_sub_comm] at mirrored

theorem exists_zpow_between {b : ℤ} {r : ℚ} (large : 2 ^ b ≤ r) :
    ∃ e : ℤ, b ≤ e ∧ 2 ^ e ≤ r ∧ r < 2 ^ (e + 1) := by
  have positive : 0 < r := lt_of_lt_of_le (zpow_pos two_pos b) large
  refine ⟨Int.log 2 r, ?_, ?_, ?_⟩
  · exact (Int.zpow_le_iff_le_log (b := 2) (by decide) positive).1 (by exact_mod_cast large)
  · exact_mod_cast Int.zpow_log_le_self (b := 2) (by decide) positive
  · exact_mod_cast Int.lt_zpow_succ_log_self (b := 2) (by decide) r

/-- A number and what it is rounded to share a power of two below them, and the error is small
against it. -/
theorem exists_zpow_le (large : 2 ^ (-1022 : ℤ) ≤ |q|) : ∃ e : ℤ, -1022 ≤ e ∧
    2 ^ e ≤ |q| ∧ 2 ^ e ≤ |binary q| ∧ |q| < 2 ^ (e + 1) ∧ |binary q - q| ≤ 2 ^ (e - 53) := by
  obtain ⟨e, fine, low, high⟩ := exists_zpow_between large
  refine ⟨e, fine, low, ?_, high, abs_binary_sub_le_zpow fine high⟩
  rw [← binary_abs]
  exact le_binary (isBinary_zpow (by omega)) low

theorem abs_binary_sub_le_mul (large : 2 ^ (-1022 : ℤ) ≤ |q|) :
    |binary q - q| ≤ |q| / 2 ^ 53 ∧ |binary q - q| ≤ |binary q| / 2 ^ 53 := by
  obtain ⟨e, -, low, rounded, -, error⟩ := exists_zpow_le large
  rw [zpow_sub₀ two_ne_zero] at error
  exact ⟨error.trans (div_le_div_of_nonneg_right low (by positivity)),
    error.trans (div_le_div_of_nonneg_right rounded (by positivity))⟩

/-- What is nearer than half the spacing is rounded to the number. Below a power of two the spacing
is narrower, so the number has to lie above it. -/
theorem IsBinary.binary_eq_of_near {e : ℤ} (exact : IsBinary r) (fine : -1022 ≤ e)
    (above : 2 ^ e < r) (near : |q - r| < 2 ^ (e - 53)) : binary q = r := by
  have size : (0 : ℚ) < 2 ^ (e - 52) := by positivity
  have half : (2 : ℚ) ^ (e - 52) = 2 ^ 1 * 2 ^ (e - 53) := zpow_shift 1 (by omega)
  have bottom : (2 : ℚ) ^ e = 2 ^ 52 * 2 ^ (e - 52) := zpow_shift 52 (by omega)
  obtain ⟨j, own⟩ := exact.exists_eq fine (above.le.trans (le_abs_self r))
  -- The number is a step above the power of two, so what is near lies above it, too.
  have step : 2 ^ e + 2 ^ (e - 52) ≤ r := by
    rw [own, bottom] at above ⊢
    have next : (2 : ℚ) ^ 52 < j := lt_of_mul_lt_mul_right above size.le
    have next : 2 ^ 52 + 1 ≤ j := by exact_mod_cast next
    have next : (2 ^ 52 + 1 : ℚ) ≤ j := by exact_mod_cast next
    nlinarith
  have low : 2 ^ e ≤ binary q := by
    apply le_binary (isBinary_zpow (by omega))
    linarith [(abs_lt.1 near).1]
  obtain ⟨k, found⟩ := (isBinary_binary q).exists_eq fine (low.trans (le_abs_self _))
  have apart : |binary q - r| < 2 ^ (e - 52) := by
    have nearer := abs_binary_sub_le (q := q) exact
    rw [abs_sub_comm r] at nearer
    linarith [abs_sub_le (binary q) q r]
  rw [found, own, ← sub_mul, abs_mul, abs_of_pos size] at apart
  have apart : |(k : ℚ) - j| < 1 := lt_of_mul_lt_mul_right (by linarith) size.le
  have same : k - j = 0 := Int.abs_lt_one_iff.1 (by exact_mod_cast apart)
  rw [found, own, sub_eq_zero.1 same]

/-- The spacing at a number: no greater one is nearer. -/
theorem IsBinary.exists_gap (exact : IsBinary q) (nonneg : 0 ≤ q) : ∃ e : ℤ, -1022 ≤ e ∧
    q < 2 ^ (e + 1) ∧ ∀ r, IsBinary r → q < r → q + 2 ^ (e - 52) ≤ r := by
  by_cases normal : 2 ^ (-1022 : ℤ) ≤ q
  · obtain ⟨e, fine, low, high⟩ := exists_zpow_between normal
    refine ⟨e, fine, high, ?_⟩
    intro r other less
    have size : (0 : ℚ) < 2 ^ (e - 52) := by positivity
    obtain ⟨j, own⟩ := exact.exists_eq fine (low.trans (le_abs_self q))
    obtain ⟨k, found⟩ := other.exists_eq fine ((low.trans less.le).trans (le_abs_self r))
    rw [own, found] at less ⊢
    have next : j + 1 ≤ k := by exact_mod_cast lt_of_mul_lt_mul_right less size.le
    have next : (j : ℚ) + 1 ≤ k := by exact_mod_cast next
    nlinarith
  · have below : (2 : ℚ) ^ (-1022 : ℤ) < 2 ^ (-1022 + 1 : ℤ) :=
      zpow_lt_zpow_right₀ one_lt_two (by decide)
    refine ⟨-1022, le_rfl, (not_le.1 normal).trans below, ?_⟩
    -- Down there all numbers are whole counts of quanta.
    rintro r ⟨k, -, found⟩ less
    obtain ⟨j, -, own⟩ := exact
    have size := unit_cast_pos
    have quantum : (2 : ℚ) ^ (-1022 - 52 : ℤ) * unit = 2 ^ 0 := zpow_mul_unit (by decide)
    have scaled : q * unit < r * unit := mul_lt_mul_of_pos_right less size
    rw [abs_of_nonneg nonneg] at own
    rw [abs_of_nonneg (nonneg.trans less.le)] at found
    rw [own, found] at scaled
    have next : j + 1 ≤ k := by exact_mod_cast scaled
    rw [← mul_le_mul_iff_of_pos_right size, add_mul, quantum, pow_zero, own, found]
    exact_mod_cast next

end DigitMask
