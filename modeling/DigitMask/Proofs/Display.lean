import DigitMask.Proofs.Decimal.Value
import DigitMask.Proofs.Numeral.Plain
import DigitMask.Proofs.Pieces

/-! What a layout spells to a reader who passes over group separators and literal text: a sign,
digits and a decimal point. Padding adds zeros in front and the fraction leaves out zeros at its
end, so the digits denote the decimal of the figure. -/
namespace DigitMask

namespace Piece

/-- What a reader takes from a piece. -/
def spell : Piece → Option Char
  | char c => if c.isDigit then some c else none
  | decimal => some '.'
  | group => none
  | negative => some '-'

theorem spell_digit (d : Digit) : (digit d).spell = some d.char := by
  rw [digit, spell, if_pos (isDigit_char d)]

theorem filterMap_spell_digits (digits : List Digit) :
    (digits.map digit).filterMap spell = digits.map Digit.char := by
  induction digits with
  | nil => rfl
  | cons d digits ih => simp [spell_digit, ih]

theorem filterMap_spell_ofText {text : String} (quiet : ∀ c ∈ text.toList, c.isDigit = false) :
    (ofText text).filterMap spell = [] := by
  rw [List.filterMap_eq_nil_iff]
  intro piece char
  obtain ⟨c, member, rfl⟩ := List.mem_map.1 char
  rw [spell, quiet c member]
  rfl

def digit? : Piece → Option Digit
  | char c => Digit.ofChar? c
  | _ => none

def digits (pieces : List Piece) : List Digit := pieces.filterMap digit?

theorem digits_append (front back : List Piece) :
    digits (front ++ back) = digits front ++ digits back :=
  List.filterMap_append

@[simp] theorem digits_map_digit (run : List Digit) : digits (run.map digit) = run := by
  have same : digit? ∘ digit = Digit.ofChar? ∘ Digit.char := rfl
  rw [digits, List.filterMap_map, same, ← List.filterMap_map, filterMap_ofChar?]

/-- Group separators hold no digit. -/
theorem digits_filter (pieces : List Piece) :
    digits (pieces.filter (· != group)) = digits pieces := by
  unfold digits
  induction pieces with
  | nil => rfl
  | cons piece pieces ih => cases piece <;> simp [List.filterMap_cons, digit?, ih]

theorem filterMap_spell_filter (pieces : List Piece) :
    (pieces.filter (· != group)).filterMap spell = pieces.filterMap spell := by
  induction pieces with
  | nil => rfl
  | cons piece pieces ih => cases piece <;> simp [List.filterMap_cons, spell, ih]

end Piece

namespace Display

def IsNumber (piece : Piece) : Prop := piece = .decimal ∨ piece = .group ∨ ∃ d, piece = .digit d

theorem mem_grouped {α : Type} {width : Nat} {separator a : α} {run : List α}
    (member : a ∈ grouped width separator run) : a = separator ∨ a ∈ run := by
  fun_induction grouped width separator run with
  | case1 => cases member
  | case2 b => exact .inr member
  | case3 b rest more separated ih =>
    rcases List.mem_cons.1 member with rfl | member
    · exact .inr List.mem_cons_self
    · rcases List.mem_cons.1 member with here | member
      · exact .inl here
      · exact (ih member).imp_right (List.mem_cons_of_mem b)
  | case4 b rest more joined ih =>
    rcases List.mem_cons.1 member with rfl | member
    · exact .inr List.mem_cons_self
    · exact (ih member).imp_right (List.mem_cons_of_mem b)

theorem group_not_mem (digits : List Digit) : Piece.group ∉ digits.map .digit := by
  simp

def front {α : Type} (glyphs : Glyphs α) (pattern : Pattern) (figure : Figure) : List α :=
  if figure.negative then
    if pattern.signFirst && !(glyphs.text pattern.leading).isEmpty then
      glyphs.negative :: glyphs.text pattern.leading
    else glyphs.text pattern.leading ++ [glyphs.negative]
  else glyphs.text pattern.leading

theorem layout_eq {α : Type} (glyphs : Glyphs α) (pattern : Pattern) (options : Options)
    (figure : Figure) : layout glyphs pattern options figure =
      front glyphs pattern figure ++ body glyphs pattern options figure ++
        glyphs.text pattern.trailing := by
  simp only [layout, front]
  split
  · split <;> simp
  · rfl

def shownInteger (pattern : Pattern) (figure : Figure) : List Digit :=
  if leavesOut pattern figure then []
  else
    List.replicate (leastWidth pattern.integer -
      (grouped (pattern.groupWidth.getD 0) Piece.group (figure.integer.map .digit)).length)
        Digit.zero ++ figure.integer

def shownFraction (pattern : Pattern) (figure : Figure) : List Digit :=
  match pattern.fraction with
  | some mask => fractionDigits mask figure.fraction
  | none => []

def showsPoint (pattern : Pattern) (options : Options) (figure : Figure) : Bool :=
  !(shownFraction pattern figure).isEmpty || options.pointAlways

section

variable (pattern : Pattern) (options : Options) (figure : Figure)

theorem filter_integer :
    (integer .pieces pattern figure).filter (· != .group) =
      (shownInteger pattern figure).map .digit := by
  unfold integer shownInteger
  split
  · rfl
  · rw [padded, List.filter_append, Glyphs.pieces_digit, Glyphs.pieces_group,
      filter_grouped _ (group_not_mem _), List.map_append, List.map_replicate,
      List.filter_replicate_of_pos (by decide)]

theorem fraction_eq :
    fraction .pieces pattern figure = (shownFraction pattern figure).map .digit := by
  unfold fraction shownFraction
  cases pattern.fraction <;> rfl

theorem body_eq (unlabelled : figure.label = "") : body .pieces pattern options figure =
    integer .pieces pattern figure ++
      (if showsPoint pattern options figure then [.decimal] else []) ++
        (shownFraction pattern figure).map .digit := by
  have blank : Piece.ofText figure.label = [] := by rw [unlabelled]; rfl
  rw [body, Glyphs.pieces_text, blank, ← fraction_eq]
  simp [showsPoint, fraction_eq]

variable {pattern figure} in
theorem mem_integer {piece : Piece} (member : piece ∈ integer .pieces pattern figure) :
    piece = .group ∨ ∃ d, piece = .digit d := by
  unfold integer at member
  split at member
  · cases member
  · rcases List.mem_append.1 member with zero | member
    · exact .inr ⟨_, List.eq_of_mem_replicate zero⟩
    · refine (mem_grouped member).imp_right fun digit => ?_
      obtain ⟨d, -, rfl⟩ := List.mem_map.1 digit
      exact ⟨d, rfl⟩

theorem isNumber_of_mem_body (unlabelled : figure.label = "") {piece : Piece}
    (member : piece ∈ body .pieces pattern options figure) : IsNumber piece := by
  rw [body_eq pattern options figure unlabelled] at member
  rcases List.mem_append.1 member with member | member
  · rcases List.mem_append.1 member with member | member
    · exact .inr (mem_integer member)
    · split at member
      · exact .inl (List.mem_singleton.1 member)
      · cases member
  · obtain ⟨d, -, rfl⟩ := List.mem_map.1 member
    exact .inr (.inr ⟨d, rfl⟩)

/-- What a figure without a label spells. -/
def numeral : List Char :=
  plainNumeral figure.negative (shownInteger pattern figure) (showsPoint pattern options figure)
    (shownFraction pattern figure)

theorem filterMap_spell_body (unlabelled : figure.label = "") :
    (body .pieces pattern options figure).filterMap Piece.spell =
      plainNumeral false (shownInteger pattern figure) (showsPoint pattern options figure)
        (shownFraction pattern figure) := by
  rw [body_eq pattern options figure unlabelled, List.filterMap_append, List.filterMap_append,
    ← Piece.filterMap_spell_filter (integer .pieces pattern figure), filter_integer,
    Piece.filterMap_spell_digits, Piece.filterMap_spell_digits, plainNumeral]
  cases showsPoint pattern options figure <;> simp [Piece.spell]

theorem digits_integer :
    Piece.digits (integer .pieces pattern figure) = shownInteger pattern figure := by
  rw [← Piece.digits_filter, filter_integer, Piece.digits_map_digit]

theorem digits_fraction :
    Piece.digits (fraction .pieces pattern figure) = shownFraction pattern figure := by
  rw [fraction_eq, Piece.digits_map_digit]

theorem negative_not_mem_ofText (text : String) : Piece.negative ∉ Piece.ofText text := by
  simp [Piece.ofText]

theorem negative_not_mem_body : Piece.negative ∉ body .pieces pattern options figure := by
  have integer : Piece.negative ∉ integer .pieces pattern figure := by
    intro member
    rcases mem_integer member with same | ⟨d, same⟩ <;> cases same
  have fraction : Piece.negative ∉ fraction .pieces pattern figure := by
    rw [fraction_eq]
    simp [Piece.digit]
  have label := negative_not_mem_ofText figure.label
  intro member
  simp only [body] at member
  split at member
  · simp [integer, fraction, label] at member
  · split at member <;> simp [integer, fraction, label] at member

/-- The sign is the only negative symbol. -/
theorem count_negative_layout : (layout .pieces pattern options figure).count .negative =
    if figure.negative then 1 else 0 := by
  have leading := List.count_eq_zero.2 (negative_not_mem_ofText pattern.leading)
  have trailing := List.count_eq_zero.2 (negative_not_mem_ofText pattern.trailing)
  have body := List.count_eq_zero.2 (negative_not_mem_body pattern options figure)
  rw [layout_eq, List.count_append, List.count_append, front, Glyphs.pieces_text,
    Glyphs.pieces_negative, body, trailing]
  split
  · split
    · rw [List.count_cons_self, leading]
    · rw [List.count_append, leading, List.count_singleton_self]
  · rw [leading]

theorem negative_mem_layout_iff :
    Piece.negative ∈ layout .pieces pattern options figure ↔ figure.negative = true := by
  rw [← List.count_pos_iff, count_negative_layout]
  cases figure.negative <;> simp

theorem filterMap_spell_layout (unlabelled : figure.label = "")
    (leading : ∀ c ∈ pattern.leading.toList, c.isDigit = false)
    (trailing : ∀ c ∈ pattern.trailing.toList, c.isDigit = false) :
    (layout .pieces pattern options figure).filterMap Piece.spell =
      numeral pattern options figure := by
  have sign : (front .pieces pattern figure).filterMap Piece.spell =
      if figure.negative then ['-'] else [] := by
    have quiet := Piece.filterMap_spell_ofText leading
    unfold front
    split
    · split
      · simp [Piece.spell, quiet]
      · simp [Piece.spell, quiet]
    · exact quiet
  rw [layout_eq, Glyphs.pieces_text, List.filterMap_append, List.filterMap_append, sign,
    filterMap_spell_body pattern options figure unlabelled,
    Piece.filterMap_spell_ofText trailing, List.append_nil]
  rfl

end

theorem filterMap_shownDigit (places : List (Token × Digit)) :
    places.filterMap shownDigit =
      (places.filter fun place => place.1 = .digit ∨ place.1 = .optional).map Prod.snd := by
  induction places with
  | nil => rfl
  | cons place places ih =>
    obtain ⟨token, d⟩ := place
    cases token <;> simp [List.filterMap_cons, shownDigit, ih]

/-- Behind the significant digits there are zeros only. -/
theorem eq_zero_of_mem_drop {mask : List Token} {digits : List Digit} {place : Token × Digit}
    (member : place ∈ (mask.zip digits).drop (significant digits)) : place.2 = Digit.zero := by
  have split := @List.rdropWhile_append_rtakeWhile _ (· == Digit.zero) digits
  have length : significant digits = (digits.rdropWhile (· == Digit.zero)).length :=
    List.length_reverse.symm
  have behind : place.2 ∈ digits.drop (significant digits) := by
    rw [List.zip, List.drop_zipWith] at member
    exact (List.of_mem_zip member).2
  have tail : digits.drop (significant digits) = digits.rtakeWhile (· == Digit.zero) := by
    conv => lhs; arg 2; rw [← split]
    rw [length]
    exact List.drop_left
  rw [tail] at behind
  simpa using List.mem_rtakeWhile_imp behind

/-- The places that are not written hold zeros. -/
theorem exists_eq_fractionDigits {mask : List Token} {digits : List Digit}
    (length : mask.length = digits.length)
    (places : ∀ token ∈ mask, token = .digit ∨ token = .optional) :
    ∃ count, digits = fractionDigits mask digits ++ List.replicate count Digit.zero := by
  obtain ⟨rest, whole, zeros⟩ : ∃ rest, mask.zip digits = writtenPlaces mask digits ++ rest ∧
      ∀ place ∈ rest, place.2 = Digit.zero := by
    refine ⟨((mask.zip digits).drop (significant digits)).dropWhile fun place =>
      place.1 != .optional, ?_, fun place member => ?_⟩
    · rw [writtenPlaces, List.append_assoc, List.takeWhile_append_dropWhile,
        List.take_append_drop]
    · exact eq_zero_of_mem_drop ((List.dropWhile_suffix _).mem member)
  have written : fractionDigits mask digits = (writtenPlaces mask digits).map Prod.snd := by
    rw [fractionDigits, filterMap_shownDigit, List.filter_eq_self.2]
    intro place member
    have inside : place ∈ mask.zip digits := by rw [whole]; exact List.mem_append_left _ member
    simpa using places _ (List.of_mem_zip inside).1
  have second := congrArg (List.map Prod.snd) whole
  rw [List.map_snd_zip (by omega), List.map_append, ← written] at second
  refine ⟨rest.length, second.trans (congrArg _ ?_)⟩
  refine List.eq_replicate_iff.2 ⟨by rw [List.length_map], fun d member => ?_⟩
  obtain ⟨place, inside, rfl⟩ := List.mem_map.1 member
  exact zeros place inside

theorem exists_eq_shownFraction {pattern : Pattern} {figure : Figure}
    (length : figure.fraction.length = pattern.places)
    (places : ∀ mask, pattern.fraction = some mask →
      ∀ token ∈ mask, token = .digit ∨ token = .optional) :
    ∃ count, figure.fraction =
      shownFraction pattern figure ++ List.replicate count Digit.zero := by
  unfold shownFraction
  unfold Pattern.places at length
  cases same : pattern.fraction with
  | none =>
    rw [same] at length
    exact ⟨0, List.length_eq_zero_iff.1 length⟩
  | some mask =>
    rw [same] at length
    exact exists_eq_fractionDigits length.symm (places mask same)

theorem number_shownInteger (pattern : Pattern) (figure : Figure) :
    number (shownInteger pattern figure) = number figure.integer := by
  unfold shownInteger
  split
  · next out =>
    simp only [leavesOut, Bool.and_eq_true, beq_iff_eq] at out
    rw [out.1.1]
    rfl
  · exact number_zeros_append _ _

/-- Zeros behind the last decimal place do not change the value. -/
theorem value_append_zeros (integer fraction : List Digit) (count : ℕ) :
    (⟨number (integer ++ (fraction ++ List.replicate count Digit.zero)),
      -(fraction ++ List.replicate count Digit.zero).length⟩ : Decimal).value =
      (⟨number (integer ++ fraction), -fraction.length⟩ : Decimal).value := by
  have size : (10 : ℚ) ^ count ≠ 0 := by positivity
  rw [← List.append_assoc, number_append_zeros, List.length_append, List.length_replicate,
    Decimal.value_places, Decimal.value_places, Nat.cast_mul, tenPow_cast, pow_add,
    mul_div_mul_right _ _ size]

/-- The digits that are shown denote the decimal of the figure. -/
theorem value_shown {pattern : Pattern} {figure : Figure}
    (length : figure.fraction.length = pattern.places)
    (places : ∀ mask, pattern.fraction = some mask →
      ∀ token ∈ mask, token = .digit ∨ token = .optional) :
    (⟨number (shownInteger pattern figure ++ shownFraction pattern figure),
      -(shownFraction pattern figure).length⟩ : Decimal).value = figure.decimal.value := by
  obtain ⟨count, whole⟩ := exists_eq_shownFraction length places
  rw [Figure.decimal, whole, value_append_zeros, number_append, number_append figure.integer,
    number_shownInteger]

/-- The number that is displayed: its sign, the digits of the integer portion and, behind the
decimal point, those of the fraction. -/
def denoted (pattern : Pattern) (options : Options) (figure : Figure) : ℚ :=
  let fraction := Piece.digits (fraction .pieces pattern figure)
  let magnitude : Decimal :=
    ⟨number (Piece.digits (integer .pieces pattern figure) ++ fraction), -fraction.length⟩
  if .negative ∈ layout .pieces pattern options figure then -magnitude.value else magnitude.value

theorem denoted_eq {pattern : Pattern} (options : Options) {figure : Figure}
    (length : figure.fraction.length = pattern.places)
    (places : ∀ mask, pattern.fraction = some mask →
      ∀ token ∈ mask, token = .digit ∨ token = .optional) :
    denoted pattern options figure =
      if figure.negative then -figure.decimal.value else figure.decimal.value := by
  rw [denoted, digits_integer, digits_fraction, value_shown length places]
  simp only [negative_mem_layout_iff]

end Display
end DigitMask
