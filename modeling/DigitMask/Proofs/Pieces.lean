import DigitMask.Display
import Mathlib.Logic.ExistsUnique
import Mathlib.Tactic.Simps.Basic

/-! Displayed text with names in place of the symbols of a locale. The symbols have no part in
what is put together; they can be written last, and every locale shows the same digits, as many
zeros and separators, and the sign at the same place. -/
namespace DigitMask

variable {α β : Type}

inductive Piece where
  | char (c : Char)
  | decimal
  | group
  | negative
  deriving DecidableEq

namespace Piece

def digit (d : Digit) : Piece := char d.char

def ofText (text : String) : List Piece := text.toList.map char

/-- The character of a piece in a locale. -/
def write (symbols : Symbols) : Piece → Char
  | char c => c
  | decimal => symbols.decimal
  | group => symbols.group
  | negative => symbols.negative

@[simp] theorem digit_ne_group (d : Digit) : digit d ≠ .group := by simp [digit]

/-- Two locales without a common symbol tell any two pieces apart. -/
theorem eq_of_write {p q : Piece} (same : ∀ symbols, p.write symbols = q.write symbols) :
    p = q := by
  have points := same ⟨'.', ',', '-'⟩
  have letters := same ⟨'d', 'g', 'n'⟩
  cases p <;> cases q <;> grind [write]

theorem eq_of_map_write {l k : List Piece}
    (same : ∀ symbols, l.map (write symbols) = k.map (write symbols)) : l = k := by
  induction l generalizing k with
  | nil =>
    have none := same {}
    exact (List.map_eq_nil_iff.1 none.symm).symm
  | cons p l ih =>
    cases k with
    | nil => cases same {}
    | cons q k =>
      simp only [List.map_cons, List.cons.injEq] at same
      rw [eq_of_write fun symbols => (same symbols).1, ih fun symbols => (same symbols).2]

end Piece

namespace Glyphs

@[simps] def pieces : Glyphs Piece where
  char := .char
  decimal := .decimal
  group := .group
  negative := .negative

@[simp] theorem pieces_digit : pieces.digit = Piece.digit := rfl

@[simp] theorem pieces_text : pieces.text = Piece.ofText := rfl

def map (f : α → β) (glyphs : Glyphs α) : Glyphs β where
  char c := f (glyphs.char c)
  decimal := f glyphs.decimal
  group := f glyphs.group
  negative := f glyphs.negative

theorem map_write_pieces (symbols : Symbols) :
    pieces.map (Piece.write symbols) = symbols.glyphs := rfl

theorem map_text (f : α → β) (glyphs : Glyphs α) (text : String) :
    (glyphs.text text).map f = (glyphs.map f).text text := by
  rw [Glyphs.text, List.map_map]; rfl

theorem map_digits (f : α → β) (glyphs : Glyphs α) (digits : List Digit) :
    (digits.map glyphs.digit).map f = digits.map (glyphs.map f).digit := by
  rw [List.map_map]; rfl

end Glyphs

namespace Display

theorem injective_digit (symbols : Symbols) : Function.Injective symbols.glyphs.digit := by
  intro d e same
  have same : Digit.ofChar? d.char = Digit.ofChar? e.char := congrArg Digit.ofChar? same
  rwa [Digit.ofChar?_char, Digit.ofChar?_char, Option.some_inj] at same

theorem map_grouped (f : α → β) (width : Nat) (separator : α) (run : List α) :
    (grouped width separator run).map f = grouped width (f separator) (run.map f) := by
  fun_induction grouped width separator run with
  | case1 => rfl
  | case2 a => rfl
  | case3 a rest more separated ih =>
    have more : rest.map f ≠ [] := fun none => more (List.map_eq_nil_iff.1 none)
    rw [List.map_cons, List.map_cons, List.map_cons, ih, grouped.eq_3 _ _ _ _ more,
      List.length_map, if_pos separated]
  | case4 a rest more joined ih =>
    have more : rest.map f ≠ [] := fun none => more (List.map_eq_nil_iff.1 none)
    rw [List.map_cons, List.map_cons, ih, grouped.eq_3 _ _ _ _ more, List.length_map,
      if_neg joined]

theorem map_padded (f : α → β) (width : Nat) (zero : α) (written : List α) :
    (padded width zero written).map f = padded width (f zero) (written.map f) := by
  rw [padded, padded, List.map_append, List.map_replicate, List.length_map]

section

variable (f : α → β) (glyphs : Glyphs α) (pattern : Pattern) (options : Options) (figure : Figure)

theorem map_integer :
    (integer glyphs pattern figure).map f = integer (glyphs.map f) pattern figure := by
  unfold integer
  split
  · rfl
  · rw [map_padded, map_grouped, Glyphs.map_digits]; rfl

theorem map_fraction :
    (fraction glyphs pattern figure).map f = fraction (glyphs.map f) pattern figure := by
  unfold fraction
  cases pattern.fraction with
  | none => rfl
  | some mask => exact Glyphs.map_digits f glyphs _

theorem map_body :
    (body glyphs pattern options figure).map f = body (glyphs.map f) pattern options figure := by
  simp only [body, ← map_integer, ← map_fraction, ← Glyphs.map_text, List.isEmpty_map]
  split
  · rw [List.map_append, List.map_append]
  · rw [List.map_append, List.map_append, List.map_append]
    split <;> rfl

/-- Only what glyphs there are is looked at, and never a glyph itself. -/
theorem map_layout : (layout glyphs pattern options figure).map f =
    layout (glyphs.map f) pattern options figure := by
  simp only [layout, ← map_body, ← Glyphs.map_text, List.isEmpty_map, List.map_append]
  split
  · split
    · rw [List.map_append, List.map_cons]; rfl
    · rw [List.map_append, List.map_cons]; rfl
  · rw [List.map_append]

end

end Display

theorem display_eq (pattern : Pattern) (symbols : Symbols) (options : Options) (value : Binary64) :
    display pattern symbols options value =
      (Figure.of pattern options value).map fun figure =>
        String.ofList ((Display.layout .pieces pattern options figure).map
          (Piece.write symbols)) := by
  rw [display]
  congr 1
  funext figure
  rw [Display.map_layout, Glyphs.map_write_pieces]

/-- The figure of a number, with the pieces that every locale writes in its own symbols. -/
structure Display.Shows (pattern : Pattern) (options : Options) (value : Binary64)
    (figure : Figure) : Prop where
  found : Figure.of pattern options value = some figure
  text (symbols : Symbols) : display pattern symbols options value =
    some (String.ofList ((layout .pieces pattern options figure).map (Piece.write symbols)))

theorem Display.shows {pattern : Pattern} {options : Options} {value : Binary64}
    {figure : Figure} (found : Figure.of pattern options value = some figure) :
    Shows pattern options value figure where
  found
  text symbols := by rw [display_eq, found, Option.map_some]

/-- A number is shown in no locale, or there is one sequence of pieces that every locale writes
with its own symbols. -/
theorem display_eq_none_or_existsUnique (pattern : Pattern) (options : Options)
    (value : Binary64) :
    (∀ symbols, display pattern symbols options value = none) ∨
      ∃! pieces : List Piece, ∀ symbols, display pattern symbols options value =
        some (String.ofList (pieces.map (Piece.write symbols))) := by
  cases found : Figure.of pattern options value with
  | none => exact .inl fun symbols => by rw [display, found, Option.map_none]
  | some figure =>
    have shows := Display.shows found
    refine .inr ⟨_, shows.text, fun others written => Piece.eq_of_map_write fun symbols => ?_⟩
    have same := written symbols
    rw [shows.text, Option.some_inj, String.ofList_inj] at same
    exact same.symm

end DigitMask
