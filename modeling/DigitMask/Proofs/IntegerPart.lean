import DigitMask.Proofs.Finite
import DigitMask.Proofs.Grouping

/-! The digits before the decimal point as they are written. All of them are, in their groups and
behind as many zeros as the mask asks for; only a zero that was not forced is left out, where the
mask ends in an optional digit. -/
namespace DigitMask.Display

section

variable {α : Type} {width : ℕ} {separator : α} {run : List α}

theorem grouped_ne_nil (more : run ≠ []) : grouped width separator run ≠ [] := by
  intro none
  have head := head?_grouped width separator run
  simp only [none, List.head?_nil] at head
  exact more (List.head?_eq_none_iff.1 head.symm)

end

theorem leastWidth_eq (mask : List Token) :
    leastWidth mask = mask.length - mask.idxOf .digit := by
  unfold leastWidth
  induction mask with
  | nil => rfl
  | cons token mask ih =>
    by_cases digit : token = .digit
    · simp [digit]
    · simp [digit, ih]

section

variable {α : Type} (glyphs : Glyphs α) {pattern : Pattern} {figure : Figure}

theorem leavesOut_iff : leavesOut pattern figure = true ↔
    figure.integer = [Digit.zero] ∧ pattern.integer.getLast? = some .optional ∧
      figure.forced = false := by
  simp [leavesOut, and_assoc]

theorem integer_of_leavesOut (out : leavesOut pattern figure = true) :
    integer glyphs pattern figure = [] :=
  if_pos out

section Written

variable (written : leavesOut pattern figure = false)
include written

theorem integer_of_written : integer glyphs pattern figure =
    padded (pattern.integer.length - pattern.integer.idxOf .digit) (glyphs.digit Digit.zero)
      (grouped (pattern.groupWidth.getD 0) glyphs.group (figure.integer.map glyphs.digit)) := by
  simp [integer, written, leastWidth_eq]

theorem length_integer : (integer glyphs pattern figure).length =
    max (grouped (pattern.groupWidth.getD 0) glyphs.group
      (figure.integer.map glyphs.digit)).length
        (pattern.integer.length - pattern.integer.idxOf .digit) := by
  rw [integer_of_written glyphs written, length_padded, max_comm]

theorem grouped_suffix_integer :
    grouped (pattern.groupWidth.getD 0) glyphs.group (figure.integer.map glyphs.digit) <:+
      integer glyphs pattern figure := by
  rw [integer_of_written glyphs written]
  exact List.suffix_append _ _

theorem exists_filter_integer [BEq α] [LawfulBEq α] (apart : ∀ d, glyphs.digit d ≠ glyphs.group) :
    ∃ zeros, (integer glyphs pattern figure).filter (· != glyphs.group) =
      List.replicate zeros (glyphs.digit Digit.zero) ++ figure.integer.map glyphs.digit := by
  have free : glyphs.group ∉ figure.integer.map glyphs.digit := by simp [apart]
  rw [integer_of_written glyphs written, padded, List.filter_append, filter_grouped _ free]
  simp [apart]

theorem integer_ne_nil (more : figure.integer ≠ []) : integer glyphs pattern figure ≠ [] := by
  intro none
  have suffix := grouped_suffix_integer glyphs written
  rw [none, List.suffix_nil] at suffix
  exact grouped_ne_nil (by simpa using more) suffix

end Written

/-- A zero in place of no digits where the mask ends in one that is always written. -/
def integerOrZero (glyphs : Glyphs α) (pattern : Pattern) (figure : Figure) : List α :=
  let integer := integer glyphs pattern figure
  if integer.isEmpty && pattern.integer.getLast? == some .digit then [glyphs.digit Digit.zero]
  else integer

/-- There always are digits where the mask ends in one that is always written. -/
theorem integerOrZero_eq (more : figure.integer ≠ []) :
    integerOrZero glyphs pattern figure = integer glyphs pattern figure := by
  unfold integerOrZero
  cases written : leavesOut pattern figure with
  | true => simp [(leavesOut_iff.1 written).2.1]
  | false => simp [integer_ne_nil glyphs written more]

end

/-- A zero is left out that was not forced, where the mask ends in an optional digit. -/
def Omits (pattern : Pattern) (value : Binary64) (digits : List Char) : Prop :=
  digits = ['0'] ∧ pattern.integer.getLast? = some .optional ∧ value.isFinite = true

/-- What is written of the digits before the decimal point. -/
structure IntegerPortion (pattern : Pattern) (symbols : Symbols) (value : Binary64)
    (digits portion : List Char) : Prop where
  omitted : Omits pattern value digits → portion = []
  ne_nil : ¬ Omits pattern value digits → portion ≠ []
  filter : ¬ Omits pattern value digits → ∃ zeros,
    portion.filter (· != symbols.group) = List.replicate zeros '0' ++ digits
  /-- Separators count as well. A mask without a `0` asks for no width. -/
  length : ¬ Omits pattern value digits →
    portion.length = max (grouped (pattern.groupWidth.getD 0) symbols.group digits).length
      (pattern.integer.length - pattern.integer.idxOf .digit)
  suffix : ¬ Omits pattern value digits →
    grouped (pattern.groupWidth.getD 0) symbols.group digits <:+ portion

/-- The digits before the decimal point are written in groups and behind zeros up to the width that
the mask asks for, or left out altogether. Where they are left out the mask does not end in a digit
that is always written, so that there is no need of another zero. -/
theorem integerPortion_of_display {pattern : Pattern} {symbols : Symbols} {options : Options}
    {value : Binary64} (apart : symbols.group.isDigit = false)
    (displayed : display pattern symbols options value ≠ none) :
    ∃ number figure, Figure.start options value = some number ∧
      Shows pattern options value figure ∧
      IntegerPortion pattern symbols value
        ((Figure.shown pattern options number).abs.floor.fixed 0)
        (integer symbols.glyphs pattern figure) ∧
      integerOrZero symbols.glyphs pattern figure = integer symbols.glyphs pattern figure := by
  cases found : Figure.start options value with
  | none => simp [display, Figure.of, found] at displayed
  | some number =>
    let figure := Figure.ofShown pattern (Figure.scaled pattern options number).1 (!value.isFinite)
      (Figure.shown pattern options number)
    have numeric : Figure.Numeric pattern options number figure :=
      Figure.numeric (Figure.isFinite_start found) pattern options _ _
    have more := numeric.integer_ne_nil
    refine ⟨number, figure, rfl, shows (by rw [Figure.of, found]; rfl), ?_,
      integerOrZero_eq symbols.glyphs more⟩
    have digit (d : Digit) : symbols.glyphs.digit d ≠ symbols.glyphs.group := d.char_ne apart
    have digits : (Figure.shown pattern options number).abs.floor.fixed 0 =
        figure.integer.map symbols.glyphs.digit := numeric.integer
    have zero : figure.integer.map symbols.glyphs.digit = ['0'] ↔ figure.integer = [Digit.zero] :=
      (List.map_injective_iff.2 (injective_digit symbols)).eq_iff' rfl
    have out : leavesOut pattern figure = true ↔
        Omits pattern value (figure.integer.map symbols.glyphs.digit) := by
      rw [leavesOut_iff, Omits, zero]
      simp [figure, Figure.ofShown]
    rw [digits]
    have written (kept : ¬ Omits pattern value (figure.integer.map symbols.glyphs.digit)) :
        leavesOut pattern figure = false := by
      simpa using mt out.1 kept
    exact {
      omitted := fun left => integer_of_leavesOut symbols.glyphs (out.2 left)
      ne_nil := fun kept => integer_ne_nil symbols.glyphs (written kept) more
      filter := fun kept => exists_filter_integer symbols.glyphs (written kept) digit
      length := fun kept => length_integer symbols.glyphs (written kept)
      suffix := fun kept => grouped_suffix_integer symbols.glyphs (written kept) }

def threes : Pattern := { integer := [.optional, .separator, .digit, .digit, .digit] }

theorem integerPortion_of_display_twelve :
    display threes {} {} (.ofNat 12) = some "012" ∧
      ∃ number figure, Figure.start {} (.ofNat 12) = some number ∧
        Shows threes {} (.ofNat 12) figure ∧
        IntegerPortion threes {} (.ofNat 12) ((Figure.shown threes {} number).abs.floor.fixed 0)
          (integer (Symbols.glyphs {}) threes figure) ∧
        integerOrZero (Symbols.glyphs {}) threes figure =
          integer (Symbols.glyphs {}) threes figure := by
  have text : display threes {} {} (.ofNat 12) = some "012" := by decide +kernel
  exact ⟨text, integerPortion_of_display (by decide) (by simp [text])⟩

end DigitMask.Display
