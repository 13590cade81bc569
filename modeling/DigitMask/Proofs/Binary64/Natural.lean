import DigitMask.Proofs.Binary64.Rational

/-! Rounding natural numbers with more than 53 bits. Bits that are put behind such a number do not
change what its own are rounded to, unless they decide a tie. -/
namespace DigitMask

/-- A number half way between two neighbours of which the lower one has the even significand. -/
def HalfwayAboveEven (n : ℕ) : Prop := 2 * (n % spacing n) = spacing n ∧ n / spacing n % 2 = 0

theorem rounded_natCast (n : ℕ) : rounded n = roundQuotient n (spacing n) * spacing n := by
  simpa using rounded_div n one_pos

theorem exists_spacing_eq {n : ℕ} (large : twoPow 53 ≤ n) : ∃ half, spacing n = 2 * half := by
  have nonzero : n ≠ 0 := (lt_of_lt_of_le (twoPow_pos 53) large).ne'
  have bits := (le_log2_iff nonzero).2 large
  refine ⟨twoPow (n.log2 - 53), ?_⟩
  have double : 2 * twoPow (n.log2 - 53) = twoPow (1 + (n.log2 - 53)) := by
    rw [twoPow_add, twoPow_eq 1]
  rw [double, spacing]
  congr 1
  omega

section Append

variable {p t k : ℕ} (less : t < twoPow k)
include less

theorem append_div (g : ℕ) : (p * twoPow k + t) / (g * twoPow k) = p / g := by
  rw [Nat.mul_comm g, ← Nat.div_div_eq_div_mul, Nat.mul_comm p,
    Nat.mul_add_div (twoPow_pos k), Nat.div_eq_of_lt less, Nat.add_zero]

theorem append_mod (g : ℕ) :
    (p * twoPow k + t) % (g * twoPow k) = p % g * twoPow k + t := by
  have whole := Nat.div_add_mod (p * twoPow k + t) (g * twoPow k)
  have front := Nat.div_add_mod p g
  rw [append_div less] at whole
  nlinarith

theorem append_lt_iff {h : ℕ} : p * twoPow k + t < h * twoPow k ↔ p < h := by
  have quotient := append_div (p := p) less 1
  rw [Nat.one_mul, Nat.div_one] at quotient
  rw [← Nat.div_lt_iff_lt_mul (twoPow_pos k), quotient]

theorem append_eq_iff {h : ℕ} : p * twoPow k + t = h * twoPow k ↔ p = h ∧ t = 0 := by
  constructor
  · intro same
    have quotient := append_div (p := p) less 1
    rw [Nat.one_mul, Nat.div_one, same, Nat.mul_div_cancel _ (twoPow_pos k)] at quotient
    subst quotient
    exact ⟨rfl, by omega⟩
  · rintro ⟨rfl, rfl⟩
    rfl

theorem log2_append (nonzero : p ≠ 0) : (p * twoPow k + t).log2 = p.log2 + k := by
  have positive : p * twoPow k + t ≠ 0 := by
    have := Nat.mul_pos (Nat.pos_of_ne_zero nonzero) (twoPow_pos k)
    omega
  apply Nat.le_antisymm
  · apply Nat.lt_succ_iff.1
    have split : twoPow (p.log2 + k).succ = twoPow (p.log2 + 1) * twoPow k := by
      rw [← twoPow_add]
      congr 1
      omega
    rw [log2_lt_iff positive, split, append_lt_iff less]
    exact lt_twoPow_log2 p
  · rw [le_log2_iff positive, twoPow_add]
    exact (Nat.mul_le_mul_right _ (twoPow_log2_le nonzero)).trans (Nat.le_add_right _ _)

variable (large : twoPow 53 ≤ p)
include large

theorem spacing_append : spacing (p * twoPow k + t) = spacing p * twoPow k := by
  have nonzero : p ≠ 0 := (lt_of_lt_of_le (twoPow_pos 53) large).ne'
  have bits := (le_log2_iff nonzero).2 large
  rw [spacing, spacing, log2_append less nonzero, ← twoPow_add]
  congr 1
  omega

/-- The place between the neighbours is the same, and a tie is one without the bits behind it. -/
theorem append_mod_spacing : ∃ half, spacing p = 2 * half ∧
    (p * twoPow k + t) % spacing (p * twoPow k + t) = p % spacing p * twoPow k + t ∧
    (p * twoPow k + t) / spacing (p * twoPow k + t) = p / spacing p ∧
    spacing (p * twoPow k + t) = 2 * (half * twoPow k) := by
  obtain ⟨half, double⟩ := exists_spacing_eq large
  rw [spacing_append less large]
  exact ⟨half, double, append_mod less _, append_div less _, by rw [double, Nat.mul_assoc]⟩

theorem halfwayAboveEven_append_iff :
    HalfwayAboveEven (p * twoPow k + t) ↔ HalfwayAboveEven p ∧ t = 0 := by
  obtain ⟨half, double, rest, quotient, steps⟩ := append_mod_spacing less large
  have tie := append_eq_iff (p := p % spacing p) (h := half) less
  rw [HalfwayAboveEven, HalfwayAboveEven, rest, quotient, steps]
  omega

theorem rounded_append (apart : HalfwayAboveEven p → t = 0) :
    rounded (p * twoPow k + t : ℕ) = rounded p * twoPow k := by
  obtain ⟨half, double, rest, quotient, steps⟩ := append_mod_spacing less large
  have tie := append_eq_iff (p := p % spacing p) (h := half) less
  have below := append_lt_iff (p := p % spacing p) (h := half) less
  have same : roundQuotient (p * twoPow k + t) (spacing (p * twoPow k + t)) =
      roundQuotient p (spacing p) := by
    unfold HalfwayAboveEven at apart
    rw [roundQuotient, roundQuotient, rest, quotient, steps]
    congr 1
    rw [eq_iff_iff]
    omega
  rw [rounded_natCast, rounded_natCast, same, spacing_append less large, Nat.mul_assoc]

theorem rounded_append_of_halfway (halfway : HalfwayAboveEven p) (more : t ≠ 0) :
    rounded (p * twoPow k + t : ℕ) = (rounded p + spacing p) * twoPow k := by
  obtain ⟨half, double, rest, quotient, steps⟩ := append_mod_spacing less large
  have tie := append_eq_iff (p := p % spacing p) (h := half) less
  have below := append_lt_iff (p := p % spacing p) (h := half) less
  have next : roundQuotient (p * twoPow k + t) (spacing (p * twoPow k + t)) =
      roundQuotient p (spacing p) + 1 := by
    unfold HalfwayAboveEven at halfway
    rw [roundQuotient, roundQuotient, rest, quotient, steps, if_neg (by omega),
      if_pos (.inr halfway)]
  rw [rounded_natCast, rounded_natCast, next, spacing_append less large]
  ring

end Append

theorem aligned_of_le {n : ℕ} (small : n ≤ twoPow 53) : Aligned n := by
  simpa [twoPow_zero] using aligned_mul_twoPow small 0

/-- Natural numbers are rounded to 53 bits like counts of quanta. -/
theorem binary_natCast (n : ℕ) : binary n = rounded n := by
  have size := unit_cast_pos
  rcases le_or_gt (twoPow 53) n with large | small
  · have scaled := rounded_append (t := 0) (twoPow_pos 1074) large fun _ => rfl
    rw [Nat.add_zero, ← unit, Nat.cast_mul] at scaled
    rw [binary_of_nonneg n.cast_nonneg, scaled, Nat.cast_mul, mul_div_cancel_right₀ _ size.ne']
  · have exact := isBinary_intCast (k := n) (by
      rw [twoPow_eq] at small
      rw [Nat.abs_cast]
      exact_mod_cast small.le)
    rw [rounded_of_aligned (aligned_of_le small.le)]
    exact_mod_cast exact.binary_eq

theorem Aligned.mul_twoPow {n : ℕ} (aligned : Aligned n) (k : ℕ) : Aligned (n * twoPow k) := by
  rcases Nat.eq_zero_or_pos n with rfl | positive
  · exact ⟨0, by simp⟩
  have bits := log2_append (p := n) (twoPow_pos k) positive.ne'
  rw [Nat.add_zero] at bits
  refine Nat.dvd_trans ?_ (Nat.mul_dvd_mul_right aligned (twoPow k))
  rw [spacing, spacing, bits, ← twoPow_add]
  exact twoPow_dvd (by omega)

theorem Aligned.binary_eq {n : ℕ} (aligned : Aligned n) : binary n = n := by
  rw [binary_natCast, rounded_of_aligned aligned]

theorem Aligned.not_halfway {n : ℕ} (aligned : Aligned n) : ¬ HalfwayAboveEven n := by
  rintro ⟨tie, -⟩
  rw [Nat.mod_eq_zero_of_dvd aligned] at tie
  exact (spacing_pos n).ne tie

theorem twoPow_le_rounded {n k : ℕ} (large : twoPow k ≤ n) : twoPow k ≤ rounded n := by
  have kept := rounded_mono (Nat.cast_nonneg (twoPow k)) (Nat.cast_le.2 large)
  rwa [rounded_of_aligned (by simpa using (aligned_of_le (twoPow_pos 53)).mul_twoPow k)] at kept

theorem HalfwayAboveEven.rounded_eq {n : ℕ} (halfway : HalfwayAboveEven n) :
    rounded n = n / spacing n * spacing n := by
  rw [rounded_natCast, roundQuotient, if_pos (.inr halfway)]

theorem HalfwayAboveEven.le {n : ℕ} (halfway : HalfwayAboveEven n) : twoPow 53 ≤ n := by
  by_contra small
  exact (aligned_of_le (not_le.1 small).le).not_halfway halfway

end DigitMask
