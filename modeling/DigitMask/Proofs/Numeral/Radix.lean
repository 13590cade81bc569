import DigitMask.Proofs.Binary64.Natural
import DigitMask.Proofs.Binary64.Whole
import DigitMask.Proofs.Numeral.Value

/-! Numerals with a marked base. Taking in a digit is exact up to 53 bits. The first digit beyond
them is rounded in, and those behind it are lost; so the number read is the nearest one unless they
had to decide a tie. -/
namespace DigitMask

namespace Binary64

variable {x : Binary64} {n : ℕ}

section IsRounded

variable {negative : Bool} {q r : ℚ} (read : x.IsRounded negative q)
include read

theorem IsRounded.congr (same : binary q = binary r) : x.IsRounded negative r := by
  unfold IsRounded at read ⊢
  rwa [← same]

theorem IsRounded.congr_of_le (large : 2 ^ 1024 ≤ binary q) (beyond : 2 ^ 1024 ≤ binary r) :
    x.IsRounded negative r := by
  rcases read with ⟨small, -⟩ | ⟨-, same⟩
  · exact absurd small (not_lt.2 large)
  · exact .inr ⟨beyond, same⟩

theorem IsRounded.binary_eq (other : x.IsRounded negative r) (small : binary q < 2 ^ 1024) :
    binary q = binary r := by
  rcases read with ⟨-, m, rfl, found⟩ | ⟨large, -⟩
  · rcases other with ⟨-, n, same, value⟩ | ⟨-, same⟩
    · cases same
      rw [← found, ← value]
    · cases same
  · exact absurd small (not_lt.2 large)

end IsRounded

theorem isRounded_ofQuanta (negative : Bool) (num : ℕ) {den : ℕ} (positive : 0 < den) :
    (ofQuanta negative num den).IsRounded negative (num / (den * unit)) := by
  rw [ofQuanta]
  cases found : Magnitude.nearest num den with
  | none => exact .inr ⟨(Magnitude.nearest_eq_none_iff_binary num positive).1 found, rfl⟩
  | some m =>
    have rounds := (Magnitude.nearest_eq_some_iff_binary num positive m).1 found
    exact .inl ⟨rounds ▸ m.value_lt, m, rfl, rounds.symm⟩

theorem exists_ofNat_eq (small : n ≤ 2 ^ 53) :
    ∃ m : Magnitude, ofNat n = finite false m ∧ m.value = n := by
  obtain ⟨isFinite, value⟩ := ofNat_spec small
  obtain ⟨m, found⟩ : ∃ m, Magnitude.nearest (n * unit) 1 = some m := by
    rw [← Option.ne_none_iff_exists']
    intro none
    rw [ofNat, ofQuanta, none] at isFinite
    cases isFinite
  have same : ofNat n = finite false m := by rw [ofNat, ofQuanta, found, ofNearest]
  refine ⟨m, same, ?_⟩
  rw [← value, same]
  rfl

theorem finite_add_finite (m n : Magnitude) :
    finite false m + finite false n = ofQuanta false (m.quanta + n.quanta) 1 := by
  have sum : finite false m + finite false n = if (m.quanta + n.quanta : ℤ) = 0 then
      zero else ofQuanta (decide ((m.quanta + n.quanta : ℤ) < 0))
        (m.quanta + n.quanta : ℤ).natAbs 1 := rfl
  rw [sum]
  split
  · next none =>
    obtain none : m.quanta + n.quanta = 0 := by exact_mod_cast none
    rw [none]
    exact (ofQuanta_quanta false .zero).symm
  · have nonneg : ¬ (m.quanta + n.quanta : ℤ) < 0 := by omega
    rw [decide_eq_false nonneg]
    rfl

theorem IsRounded.mul_ofNat {base : ℕ} (read : x.IsRounded false n) (aligned : Aligned n)
    (positive : 0 < base) (small : base ≤ 2 ^ 53) :
    (x * ofNat base).IsRounded false (n * base : ℕ) := by
  obtain ⟨b, same, value⟩ := exists_ofNat_eq small
  rcases read with ⟨-, m, rfl, found⟩ | ⟨large, rfl⟩
  · have product : finite false m * finite false b = ofQuanta false (m.quanta * b.quanta) unit :=
      rfl
    have exact := isRounded_ofQuanta false (m.quanta * b.quanta) unit_pos
    have factors : ((m.quanta * b.quanta : ℕ) : ℚ) / (unit * unit) = m.value * b.value := by
      rw [Nat.cast_mul, mul_div_mul_comm]
      rfl
    rw [factors, found, value, aligned.binary_eq] at exact
    rw [same, product, Nat.cast_mul]
    exact exact
  · have nonzero : ¬ b.quanta = 0 := by
      rw [Magnitude.quanta_eq_zero_iff, value]
      exact_mod_cast positive.ne'
    have product : infinity false * finite false b = infinity false := if_neg nonzero
    rw [same, product]
    refine .inr ⟨large.trans (binary_mono ?_), rfl⟩
    exact_mod_cast Nat.le_mul_of_pos_right n positive

theorem IsRounded.add_ofNat {digit : ℕ} (read : x.IsRounded false n) (aligned : Aligned n)
    (small : digit ≤ 2 ^ 53) : (x + ofNat digit).IsRounded false (n + digit : ℕ) := by
  obtain ⟨d, same, value⟩ := exists_ofNat_eq small
  rcases read with ⟨-, m, rfl, found⟩ | ⟨large, rfl⟩
  · have exact := isRounded_ofQuanta false (m.quanta + d.quanta) one_pos
    have terms : ((m.quanta + d.quanta : ℕ) : ℚ) / ((1 : ℕ) * unit) = m.value + d.value := by
      rw [Nat.cast_add, Nat.cast_one, one_mul, add_div]
      rfl
    rw [terms, found, value, aligned.binary_eq] at exact
    rw [same, finite_add_finite, Nat.cast_add]
    exact exact
  · have sum : infinity false + finite false d = infinity false := rfl
    rw [same, sum]
    refine .inr ⟨large.trans (binary_mono ?_), rfl⟩
    exact_mod_cast Nat.le_add_right n digit

end Binary64

namespace Radix

variable (radix : Radix) {digits front rest : List ℕ}

/-- How many bits a digit has. -/
def bits : Radix → ℕ
  | hexadecimal => 4
  | octal => 3
  | binary => 1

theorem base_pow (n : ℕ) : radix.base ^ n = twoPow (radix.bits * n) := by
  rw [twoPow_eq]
  cases radix <;> simp [base, bits, Nat.pow_mul]

theorem base_eq : radix.base = twoPow radix.bits := by
  simpa using radix.base_pow 1

theorem base_pos : 0 < radix.base := radix.base_eq ▸ twoPow_pos _

theorem base_le_twoPow : radix.base ≤ 2 ^ 53 := radix.base_le.trans (by norm_num)

theorem lt_base_of_mem {radix : Radix} {text : List Char}
    (written : List.Forall₂ radix.Writes text digits) : ∀ digit ∈ digits, digit < radix.base := by
  induction written with
  | nil => simp
  | cons writes _ ih =>
    rw [List.forall_mem_cons]
    exact ⟨writes.1, ih⟩

theorem forall_mem_concat {p : ℕ → Prop} {digit : ℕ} :
    (∀ d ∈ front ++ [digit], p d) ↔ (∀ d ∈ front, p d) ∧ p digit := by
  rw [List.forall_mem_append, List.forall_mem_singleton]

@[simp] theorem number_nil : radix.number [] = 0 := rfl

theorem number_append_singleton (front : List ℕ) (digit : ℕ) :
    radix.number (front ++ [digit]) = radix.base * radix.number front + digit := by
  simp [number]

theorem number_append (front rest : List ℕ) :
    radix.number (front ++ rest) = radix.number front * radix.base ^ rest.length +
      radix.number rest := by
  induction rest using List.reverseRecOn with
  | nil => simp
  | append_singleton rest digit ih =>
    rw [← List.append_assoc, number_append_singleton, number_append_singleton, ih,
      List.length_append, List.length_singleton]
    ring

theorem number_eq_zero_iff : radix.number digits = 0 ↔ ∀ digit ∈ digits, digit = 0 := by
  have positive := radix.base_pos
  induction digits using List.reverseRecOn with
  | nil => simp
  | append_singleton front digit ih =>
    rw [number_append_singleton, Nat.add_eq_zero_iff, Nat.mul_eq_zero]
    simp [positive.ne', ih, or_imp, forall_and]

theorem number_lt (below : ∀ digit ∈ digits, digit < radix.base) :
    radix.number digits < twoPow (radix.bits * digits.length) := by
  rw [← base_pow]
  induction digits using List.reverseRecOn with
  | nil => simp
  | append_singleton front digit ih =>
    obtain ⟨frontBelow, last⟩ := forall_mem_concat.1 below
    have front := ih frontBelow
    rw [number_append_singleton, List.length_append, List.length_singleton, pow_succ]
    nlinarith

/-- The digits taken in one by one, as if there were no greatest number. -/
def taken (digits : List ℕ) : ℕ :=
  digits.foldl (fun sum digit => rounded (sum * radix.base + digit : ℕ)) 0

theorem taken_append_singleton (front : List ℕ) (digit : ℕ) :
    radix.taken (front ++ [digit]) = rounded (radix.taken front * radix.base + digit : ℕ) := by
  simp [taken]

theorem aligned_taken (digits : List ℕ) : Aligned (radix.taken digits) := by
  induction digits using List.reverseRecOn with
  | nil => exact Nat.dvd_zero _
  | append_singleton front digit _ =>
    rw [taken_append_singleton]
    exact rounded_aligned (Nat.cast_nonneg _)

theorem isRounded_accumulate (below : ∀ digit ∈ digits, digit < radix.base) :
    (Numeral.accumulate radix.base digits).IsRounded false (radix.taken digits) := by
  induction digits using List.reverseRecOn with
  | nil => exact .inl ⟨by simp [taken], .zero, rfl, by simp [taken]⟩
  | append_singleton front digit ih =>
    obtain ⟨frontBelow, last⟩ := forall_mem_concat.1 below
    have small := last.le.trans radix.base_le_twoPow
    have shifted : Aligned (radix.taken front * radix.base) := by
      rw [base_eq]
      exact (radix.aligned_taken front).mul_twoPow _
    have sum := ((ih frontBelow).mul_ofNat (radix.aligned_taken front) radix.base_pos
      radix.base_le_twoPow).add_ofNat shifted small
    have unfolded : Numeral.accumulate radix.base (front ++ [digit]) =
        Numeral.accumulate radix.base front * .ofNat radix.base + .ofNat digit := by
      simp [Numeral.accumulate]
    rw [unfolded]
    apply sum.congr
    rw [(radix.aligned_taken _).binary_eq, taken_append_singleton, binary_natCast]

/-- Up to 53 bits nothing is lost. -/
theorem taken_of_le (small : radix.number digits ≤ twoPow 53) :
    radix.taken digits = radix.number digits := by
  induction digits using List.reverseRecOn with
  | nil => rfl
  | append_singleton front digit ih =>
    have aligned := aligned_of_le small
    have positive := radix.base_pos
    rw [number_append_singleton] at small aligned
    have frontSmall : radix.number front ≤ twoPow 53 := by nlinarith
    rw [taken_append_singleton, ih frontSmall, number_append_singleton,
      Nat.mul_comm _ radix.base, rounded_of_aligned aligned]

/-- The first digits with more than 53 bits are rounded once. -/
theorem exists_front (large : twoPow 53 ≤ radix.number digits) : ∃ front rest,
    digits = front ++ rest ∧ twoPow 53 ≤ radix.number front ∧
      radix.taken front = rounded (radix.number front) := by
  induction digits using List.reverseRecOn with
  | nil => exact absurd large (not_le.2 (twoPow_pos 53))
  | append_singleton front digit ih =>
    rcases le_or_gt (twoPow 53) (radix.number front) with early | small
    · obtain ⟨first, rest, rfl, firstLarge, once⟩ := ih early
      exact ⟨first, rest ++ [digit], by simp, firstLarge, once⟩
    · refine ⟨front ++ [digit], [], by simp, large, ?_⟩
      rw [taken_append_singleton, radix.taken_of_le small.le, number_append_singleton,
        Nat.mul_comm radix.base]

/-- Behind a number with 53 bits digits are lost. -/
theorem taken_append (large : twoPow 53 ≤ radix.taken front)
    (below : ∀ digit ∈ rest, digit < radix.base) :
    radix.taken (front ++ rest) = radix.taken front * twoPow (radix.bits * rest.length) := by
  rw [← base_pow]
  induction rest using List.reverseRecOn with
  | nil => simp
  | append_singleton rest digit ih =>
    obtain ⟨restBelow, last⟩ := forall_mem_concat.1 below
    have aligned := radix.aligned_taken (front ++ rest)
    have above : twoPow 53 ≤ radix.taken (front ++ rest) := by
      rw [ih restBelow]
      exact large.trans (Nat.le_mul_of_pos_right _ (pow_pos radix.base_pos _))
    rw [base_eq] at last
    -- Shifted, the sum so far is still a binary number, so the digit cannot decide a tie.
    rw [← List.append_assoc, taken_append_singleton, base_eq,
      rounded_append last above fun halfway => absurd halfway aligned.not_halfway,
      rounded_of_aligned aligned, ih restBelow, List.length_append, List.length_singleton,
      pow_succ, base_eq, Nat.mul_assoc]

/-- Some first digits are half way above an even neighbour, and what stands behind them is lost
although it is not zero. -/
def LosesTie (digits : List ℕ) : Prop := ∃ front rest, digits = front ++ rest ∧
  HalfwayAboveEven (radix.number front) ∧ ∃ digit ∈ rest, digit ≠ 0

section Below

variable (below : ∀ digit ∈ digits, digit < radix.base)
include below

/-- Rounding on the way never takes a number below a power of two. -/
theorem twoPow_le_taken {k : ℕ} (large : twoPow k ≤ radix.number digits) :
    twoPow k ≤ radix.taken digits := by
  induction digits using List.reverseRecOn generalizing k with
  | nil => exact absurd large (not_le.2 (twoPow_pos k))
  | append_singleton front digit ih =>
    rcases le_or_gt (radix.number (front ++ [digit])) (twoPow 53) with small | more
    · rwa [radix.taken_of_le small]
    obtain ⟨frontBelow, last⟩ := forall_mem_concat.1 below
    have shift := twoPow_add radix.bits (k - radix.bits)
    -- With fewer bits before it the digit would not lead up to the power.
    have frontLarge : twoPow (k - radix.bits) ≤ radix.number front := by
      by_contra less
      have all : radix.number (front ++ [digit]) < twoPow (radix.bits + (k - radix.bits)) := by
        rw [shift, ← base_eq, number_append_singleton]
        nlinarith
      rcases le_total radix.bits k with le | le
      · rw [Nat.add_sub_cancel' le] at all
        omega
      · have few : twoPow (radix.bits + (k - radix.bits)) ≤ twoPow 53 :=
          twoPow_le (by cases radix <;> simp only [bits] at le ⊢ <;> omega)
        omega
    have frontTaken := ih frontBelow frontLarge
    rw [taken_append_singleton]
    apply twoPow_le_rounded
    calc twoPow k ≤ twoPow (radix.bits + (k - radix.bits)) := twoPow_le (by omega)
      _ = twoPow (k - radix.bits) * radix.base := by rw [shift, ← base_eq, Nat.mul_comm]
      _ ≤ radix.taken front * radix.base := Nat.mul_le_mul_right _ frontTaken
      _ ≤ radix.taken front * radix.base + digit := Nat.le_add_right _ _

theorem taken_eq_rounded (kept : ¬ radix.LosesTie digits) :
    radix.taken digits = rounded (radix.number digits) := by
  rcases le_or_gt (twoPow 53) (radix.number digits) with large | small
  · obtain ⟨front, rest, rfl, frontLarge, once⟩ := radix.exists_front large
    have restBelow := (List.forall_mem_append.1 below).2
    have apart : HalfwayAboveEven (radix.number front) → radix.number rest = 0 := by
      intro halfway
      rw [number_eq_zero_iff]
      by_contra behind
      push Not at behind
      exact kept ⟨front, rest, rfl, halfway, behind⟩
    rw [radix.taken_append (once ▸ twoPow_le_rounded frontLarge) restBelow, number_append,
      base_pow, rounded_append (radix.number_lt restBelow) frontLarge apart, once]
  · rw [radix.taken_of_le small.le, rounded_of_aligned (aligned_of_le small.le)]

theorem not_losesTie (halfway : HalfwayAboveEven (radix.number digits)) :
    ¬ radix.LosesTie digits := by
  rintro ⟨front, rest, rfl, inner, digit, mem, nonzero⟩
  have less := radix.number_lt (List.forall_mem_append.1 below).2
  rw [number_append, base_pow, halfwayAboveEven_append_iff less inner.le,
    number_eq_zero_iff] at halfway
  exact nonzero (halfway.2 digit mem)

theorem taken_append_of_halfway (split : digits = front ++ rest)
    (halfway : HalfwayAboveEven (radix.number front)) :
    radix.taken digits = rounded (radix.number front) * twoPow (radix.bits * rest.length) := by
  subst split
  obtain ⟨frontBelow, restBelow⟩ := List.forall_mem_append.1 below
  rw [radix.taken_append (radix.twoPow_le_taken frontBelow halfway.le) restBelow,
    radix.taken_eq_rounded frontBelow (radix.not_losesTie frontBelow halfway)]

/-- The number taken in is below the digits, and the one nearest to them above. -/
theorem taken_lt_rounded (lost : radix.LosesTie digits) :
    radix.taken digits ≤ radix.number digits ∧
      radix.taken digits < rounded (radix.number digits) := by
  obtain ⟨front, rest, split, halfway, behind⟩ := lost
  have down : rounded (radix.number front) ≤ radix.number front := by
    rw [halfway.rounded_eq]
    exact Nat.div_mul_le_self _ _
  have taken := radix.taken_append_of_halfway below split halfway
  subst split
  have less := radix.number_lt (List.forall_mem_append.1 below).2
  have nonzero : radix.number rest ≠ 0 := by
    rw [ne_eq, number_eq_zero_iff]
    push Not
    exact behind
  have nearest := rounded_append_of_halfway less halfway.le halfway nonzero
  rw [number_append, base_pow, taken, nearest]
  constructor
  · exact (Nat.mul_le_mul_right _ down).trans (Nat.le_add_right _ _)
  · have step := spacing_pos (radix.number front)
    exact Nat.mul_lt_mul_of_pos_right (by omega) (twoPow_pos _)

end Below

end Radix

namespace Numeral

variable {text : String} {radix : Radix} {digits : List ℕ}

theorem Spells.lt_base {inner : List Char} (spells : Spells inner (.whole radix digits)) :
    ∀ digit ∈ digits, digit < radix.base := by
  cases spells with
  | whole _ _ written => exact Radix.lt_base_of_mem written

/-- A numeral with a marked base is read as the number nearest to it unless it loses a tie within
the range. Behind a tie its digits count as zeros. -/
theorem isRounded_ofText_iff (spells : Spells (trim text.toList) (.whole radix digits)) :
    ((Binary64.ofText text).IsRounded false (radix.number digits) ↔
      (radix.LosesTie digits → 2 ^ 1024 ≤ radix.number digits)) ∧
    ∀ front rest, digits = front ++ rest → HalfwayAboveEven (radix.number front) →
      (Binary64.ofText text).IsRounded false
        (radix.number front * radix.base ^ rest.length : ℕ) := by
  have below := spells.lt_base
  have read : (Binary64.ofText text).IsRounded false (radix.taken digits) := by
    rw [Binary64.ofText, ofChars_of_spells spells]
    exact radix.isRounded_accumulate below
  have exact := (radix.aligned_taken digits).binary_eq
  refine ⟨⟨?_, ?_⟩, ?_⟩
  · intro nearest lost
    by_contra small
    obtain ⟨down, less⟩ := radix.taken_lt_rounded below lost
    have inside : ((radix.taken digits : ℕ) : ℚ) < 2 ^ 1024 := by
      exact_mod_cast down.trans_lt (not_le.1 small)
    have same := read.binary_eq nearest (by rwa [exact])
    rw [exact, binary_natCast] at same
    exact less.ne (by exact_mod_cast same)
  · intro kept
    by_cases lost : radix.LosesTie digits
    · have large : (2 : ℚ) ^ 1024 ≤ radix.number digits := by exact_mod_cast kept lost
      refine read.congr_of_le ?_ (le_binary (isBinary_pow 1024) large)
      rw [← twoPow_cast] at large ⊢
      rw [exact]
      exact_mod_cast radix.twoPow_le_taken below (by exact_mod_cast large)
    · apply read.congr
      rw [exact, radix.taken_eq_rounded below lost, binary_natCast]
  · intro front rest split halfway
    have zeros := rounded_append (t := 0) (twoPow_pos (radix.bits * rest.length)) halfway.le
      fun _ => rfl
    apply read.congr
    rw [exact, radix.taken_append_of_halfway below split halfway, binary_natCast,
      radix.base_pow, ← zeros, Nat.add_zero]

/-- The tie is `2^60 + 2^7`, and one is added to it; the numeral is read as `2^60`. -/
theorem isRounded_ofText_lost_tie : ∃ digits,
    Spells (trim "0x1000000000000081".toList) (.whole .hexadecimal digits) ∧
      Radix.hexadecimal.number digits = 2 ^ 60 + 129 ∧
      (Binary64.ofText "0x1000000000000081").IsRounded false (2 ^ 60 : ℕ) ∧
      ¬ (Binary64.ofText "0x1000000000000081").IsRounded false (2 ^ 60 + 129 : ℕ) := by
  have spells : Spells (trim "0x1000000000000081".toList)
      (.whole .hexadecimal (1 :: List.replicate 13 0 ++ [8] ++ [1])) :=
    read?_eq_some_iff.1 (by decide +kernel)
  have number : Radix.hexadecimal.number (1 :: List.replicate 13 0 ++ [8] ++ [1]) =
      2 ^ 60 + 129 := by decide
  have halfway :
      HalfwayAboveEven (Radix.hexadecimal.number (1 :: List.replicate 13 0 ++ [8])) := by
    unfold HalfwayAboveEven
    decide +kernel
  obtain ⟨nearest, behind⟩ := isRounded_ofText_iff spells
  refine ⟨_, spells, number, ?_, ?_⟩
  · refine (behind _ _ rfl halfway).congr ?_
    rw [binary_natCast, binary_natCast, rounded_natCast, rounded_natCast, Nat.cast_inj]
    decide +kernel
  · rw [← number, nearest]
    intro small
    exact absurd (small ⟨_, _, rfl, halfway, 1, by decide, by decide⟩) (by
      rw [number]
      decide +kernel)

end Numeral

end DigitMask
