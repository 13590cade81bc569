import DigitMask.Figure
import DigitMask.Symbols

/-! The written form of a figure. It is put together from glyphs, which are the characters of a
locale when a text is wanted. -/
namespace DigitMask

structure Glyphs (α : Type) where
  char : Char → α
  decimal : α
  group : α
  negative : α

namespace Glyphs

variable {α : Type} (glyphs : Glyphs α)

def digit (d : Digit) : α := glyphs.char d.char

def text (text : String) : List α := text.toList.map glyphs.char

end Glyphs

def Symbols.glyphs (symbols : Symbols) : Glyphs Char where
  char := id
  decimal := symbols.decimal
  group := symbols.group
  negative := symbols.negative

namespace Display

section

variable {α : Type}

/-- Separates a run into groups of `width` from the right; a width of zero separates none. -/
def grouped (width : Nat) (separator : α) : List α → List α
  | [] => []
  | [a] => [a]
  | a :: rest =>
    if rest.length % width = 0 then a :: separator :: grouped width separator rest
    else a :: grouped width separator rest

theorem filter_grouped [BEq α] [LawfulBEq α] (width : Nat) {separator : α} {run : List α}
    (free : separator ∉ run) :
    (grouped width separator run).filter (· != separator) = run := by
  fun_induction grouped width separator run with
  | case1 => rfl
  | case2 a =>
    have other : a ≠ separator := fun same => free (same ▸ List.mem_singleton_self a)
    simp [other]
  | case3 a rest _ _ ih =>
    rw [List.mem_cons, not_or] at free
    simp [ih free.2, Ne.symm free.1]
  | case4 a rest _ _ ih =>
    rw [List.mem_cons, not_or] at free
    simp [ih free.2, Ne.symm free.1]

theorem grouped_zero (separator : α) (run : List α) : grouped 0 separator run = run := by
  fun_induction grouped 0 separator run with
  | case1 => rfl
  | case2 a => rfl
  | case3 a rest more separated ih => exact absurd (by simpa using separated) more
  | case4 a rest _ _ ih => rw [ih]

/-- Fills up with `zero` on the left, where separators count as well. -/
def padded (width : Nat) (zero : α) (written : List α) : List α :=
  List.replicate (width - written.length) zero ++ written

theorem length_padded (width : Nat) (zero : α) (written : List α) :
    (padded width zero written).length = max width written.length := by
  simp only [padded, List.length_append, List.length_replicate]; omega

end

/-- The width that the first `0` of an integer mask asks for. -/
def leastWidth (mask : List Token) : Nat := (mask.dropWhile (· != .digit)).length

def leavesOut (pattern : Pattern) (figure : Figure) : Bool :=
  figure.integer == [Digit.zero] && pattern.integer.getLast? == some .optional && !figure.forced

/-- How many digits there are up to the last one that is not zero. -/
def significant (digits : List Digit) : Nat := (digits.reverse.dropWhile (· == Digit.zero)).length

/-- The places of a fraction that are written: all up to the last digit that is not zero, and
then up to the first optional digit. -/
def writtenPlaces (mask : List Token) (digits : List Digit) : List (Token × Digit) :=
  let places := mask.zip digits
  places.take (significant digits) ++
    (places.drop (significant digits)).takeWhile fun place => place.1 != .optional

/-- A separator or a literal takes up the digit of its place. -/
def shownDigit : Token × Digit → Option Digit
  | (.digit, d) | (.optional, d) => some d
  | _ => none

def fractionDigits (mask : List Token) (digits : List Digit) : List Digit :=
  (writtenPlaces mask digits).filterMap shownDigit

section

variable {α : Type} (glyphs : Glyphs α) (pattern : Pattern)

def integer (figure : Figure) : List α :=
  if leavesOut pattern figure then []
  else
    padded (leastWidth pattern.integer) (glyphs.digit Digit.zero)
      (grouped (pattern.groupWidth.getD 0) glyphs.group (figure.integer.map glyphs.digit))

def fraction (figure : Figure) : List α :=
  match pattern.fraction with
  | some mask => (fractionDigits mask figure.fraction).map glyphs.digit
  | none => []

/-- The digits and the label, without the sign and the text around them. -/
def body (options : Options) (figure : Figure) : List α :=
  let integer := integer glyphs pattern figure
  let fraction := fraction glyphs pattern figure
  let label := glyphs.text figure.label
  if options.labelAsPoint && !label.isEmpty then integer ++ label ++ fraction
  else
    let point := if !fraction.isEmpty || options.pointAlways then [glyphs.decimal] else []
    integer ++ point ++ fraction ++ label

/-- A whole figure. The sign goes before the leading text only if there is such a text. -/
def layout (options : Options) (figure : Figure) : List α :=
  let leading := glyphs.text pattern.leading
  let body := body glyphs pattern options figure
  let signed :=
    if figure.negative then
      if pattern.signFirst && !leading.isEmpty then glyphs.negative :: leading ++ body
      else leading ++ glyphs.negative :: body
    else leading ++ body
  signed ++ glyphs.text pattern.trailing

end

end Display

def display (pattern : Pattern) (symbols : Symbols) (options : Options) (value : Binary64) :
    Option String :=
  (Figure.of pattern options value).map fun figure =>
    String.ofList (Display.layout symbols.glyphs pattern options figure)

end DigitMask
