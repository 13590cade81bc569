import DigitMask.Display
import Mathlib.Algebra.Order.Floor.Semifield
import Mathlib.Data.Rat.Floor
import Mathlib.Tactic

/-! Groups of digits. The separators of a grouped run cut it into blocks. Counted from the right
every block is full, so that only the first one may be shorter; put together they are the run. -/
namespace DigitMask.Display

variable {α : Type} {width : ℕ} {separator a : α} {run first : List α} {rest : List (List α)}

/-- One separator is written for every full group to the right of the first digit. -/
theorem length_grouped (width : ℕ) (separator : α) (run : List α) :
    (grouped width separator run).length = run.length + (run.length - 1) / width := by
  fun_induction grouped width separator run with
  | case1 => simp
  | case2 a => simp
  | case3 a rest more separated ih =>
    obtain ⟨b, rest, rfl⟩ := List.exists_cons_of_ne_nil more
    simp only [List.length_cons] at separated
    simp [ih, Nat.succ_div, Nat.dvd_of_mod_eq_zero separated]
    omega
  | case4 a rest more joined ih =>
    obtain ⟨b, rest, rfl⟩ := List.exists_cons_of_ne_nil more
    simp only [List.length_cons] at joined
    simp [ih, Nat.succ_div, Nat.dvd_iff_mod_eq_zero, joined]
    omega

theorem head?_grouped (width : ℕ) (separator : α) (run : List α) :
    (grouped width separator run).head? = run.head? := by
  fun_cases grouped width separator run <;> rfl

theorem getLast?_grouped (width : ℕ) (separator : α) (run : List α) :
    (grouped width separator run).getLast? = run.getLast? := by
  fun_induction grouped width separator run with
  | case1 => rfl
  | case2 a => rfl
  | case3 a rest more separated ih =>
    simp [List.getLast?_cons, ih, List.getLast?_eq_some_getLast more]
  | case4 a rest more joined ih => simp [List.getLast?_cons, ih]

/-- Counted from the right, a separator comes before each digit that begins another group. -/
theorem reverse_grouped (width : ℕ) (separator : α) (run : List α) :
    (grouped width separator run).reverse = run.reverse.zipIdx.flatMap fun (a, count) =>
      if 0 < count ∧ count % width = 0 then [separator, a] else [a] := by
  fun_induction grouped width separator run with
  | case1 => rfl
  | case2 a => simp
  | case3 a rest more separated ih =>
    simp [List.zipIdx_append, ih, separated, List.length_pos_iff.2 more]
  | case4 a rest more joined ih =>
    simp [List.zipIdx_append, ih, joined]

/-- The blocks of a run: all of them are full but for the first, which has a digit at least. -/
structure Blocks (width : ℕ) (run first : List α) (rest : List (List α)) : Prop where
  joined : first ++ rest.flatten = run
  nonempty : 0 < first.length
  fits : first.length ≤ width
  full : ∀ block ∈ rest, block.length = width

namespace Blocks

theorem length (blocks : Blocks width run first rest) :
    run.length = first.length + width * rest.length := by
  have flatten : rest.flatten.length = width * rest.length := by
    rw [List.length_flatten, List.sum_eq_card_nsmul _ width]
    · simp [mul_comm]
    · simpa using blocks.full
  rw [← blocks.joined, List.length_append, flatten]

theorem count (blocks : Blocks width run first rest) :
    rest.length + 1 = ⌈(run.length / width : ℚ)⌉₊ := by
  have positive : 0 < width := blocks.nonempty.trans_le blocks.fits
  have size : (0 : ℚ) < width := by exact_mod_cast positive
  have nonempty : (0 : ℚ) < first.length := by exact_mod_cast blocks.nonempty
  have fits : (first.length : ℚ) ≤ width := by exact_mod_cast blocks.fits
  have length : (run.length : ℚ) = first.length + width * rest.length := by
    exact_mod_cast blocks.length
  symm
  rw [Nat.ceil_eq_iff (Nat.succ_ne_zero _), lt_div_iff₀ size, div_le_iff₀ size, length]
  push_cast
  constructor <;> linarith

theorem cons_of_eq (blocks : Blocks width run first rest) (complete : first.length = width)
    (a : α) : Blocks width (a :: run) [a] (first :: rest) where
  joined := by simp [blocks.joined]
  nonempty := by simp
  fits := blocks.nonempty.trans_le blocks.fits
  full := by simpa [complete] using blocks.full

theorem cons_of_lt (blocks : Blocks width run first rest) (room : first.length < width) (a : α) :
    Blocks width (a :: run) (a :: first) rest where
  joined := by simp [blocks.joined]
  nonempty := by simp
  fits := room
  full := blocks.full

theorem mod_eq_zero_iff (blocks : Blocks width run first rest) :
    run.length % width = 0 ↔ first.length = width := by
  rw [blocks.length, Nat.add_mul_mod_self_left]
  constructor
  · intro none
    by_contra short
    have fits := blocks.fits
    rw [Nat.mod_eq_of_lt (by omega)] at none
    exact blocks.nonempty.ne' none
  · intro complete
    simp [complete]

end Blocks

section Split

variable [BEq α] [LawfulBEq α]

theorem splitOn_cons_of_ne (other : a ≠ separator) (split : run.splitOn separator = first :: rest) :
    (a :: run).splitOn separator = (a :: first) :: rest := by
  simp [List.splitOn_cons_eq_if_modifyHead, other, split]

theorem exists_splitOn_grouped (positive : 0 < width) (more : run ≠ []) (free : separator ∉ run) :
    ∃ first rest, (grouped width separator run).splitOn separator = first :: rest ∧
      Blocks width run first rest := by
  fun_induction grouped width separator run with
  | case1 => exact absurd rfl more
  | case2 a =>
    have other : a ≠ separator := by rintro rfl; simp at free
    exact ⟨[a], [], splitOn_cons_of_ne other (List.splitOn_nil _),
      by simp, by simp, positive, by simp⟩
  | case3 a rest others separated ih =>
    simp only [List.mem_cons, not_or] at free
    obtain ⟨first, blocks, split, cut⟩ := ih others free.2
    refine ⟨[a], first :: blocks, ?_, cut.cons_of_eq (cut.mod_eq_zero_iff.1 separated) a⟩
    apply splitOn_cons_of_ne (Ne.symm free.1)
    simp [List.splitOn_cons_eq_if_modifyHead, split]
  | case4 a rest others joined ih =>
    simp only [List.mem_cons, not_or] at free
    obtain ⟨first, blocks, split, cut⟩ := ih others free.2
    refine ⟨a :: first, blocks, splitOn_cons_of_ne (Ne.symm free.1) split, ?_⟩
    have short := mt cut.mod_eq_zero_iff.2 joined
    exact cut.cons_of_lt (lt_of_le_of_ne cut.fits short) a

/-- Cut at the separators, a grouped run is its blocks, as many as it takes; no separator stands at
an end. Without a width, or with none of it, the run is left as it is. -/
theorem grouped_reversible (more : run ≠ []) (free : separator ∉ run) (width : Option ℕ) :
    (0 < width.getD 0 → ∃ first rest,
      (grouped (width.getD 0) separator run).splitOn separator = first :: rest ∧
      Blocks (width.getD 0) run first rest ∧
      rest.length + 1 = ⌈(run.length / width.getD 0 : ℚ)⌉₊ ∧
      (grouped (width.getD 0) separator run).head? ≠ some separator ∧
      (grouped (width.getD 0) separator run).getLast? ≠ some separator ∧
      (grouped (width.getD 0) separator run).length =
        run.length + (run.length - 1) / width.getD 0) ∧
    (width = none ∨ width = some 0 → grouped (width.getD 0) separator run = run) := by
  constructor
  · intro positive
    obtain ⟨first, rest, split, blocks⟩ := exists_splitOn_grouped positive more free
    refine ⟨first, rest, split, blocks, blocks.count, ?_, ?_, length_grouped _ separator run⟩
    · intro leads
      rw [head?_grouped] at leads
      exact free (List.mem_of_mem_head? leads)
    · intro trails
      rw [getLast?_grouped] at trails
      exact free (List.mem_of_getLast? trails)
  · rintro (rfl | rfl) <;> exact grouped_zero separator run

end Split

theorem grouped_reversible_million : ∃ first rest,
    (grouped 3 ',' "1234567".toList).splitOn ',' = first :: rest ∧
      Blocks 3 "1234567".toList first rest ∧
      rest.length + 1 = ⌈("1234567".toList.length / (3 : ℕ) : ℚ)⌉₊ ∧
      (grouped 3 ',' "1234567".toList).head? ≠ some ',' ∧
      (grouped 3 ',' "1234567".toList).getLast? ≠ some ',' ∧
      (grouped 3 ',' "1234567".toList).length =
        "1234567".toList.length + ("1234567".toList.length - 1) / 3 :=
  (grouped_reversible (by decide) (by decide) (some 3)).1 (by decide)

end DigitMask.Display
