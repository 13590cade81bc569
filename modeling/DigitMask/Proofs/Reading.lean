import DigitMask.Proofs.Display
import DigitMask.Proofs.Locale.Builtin
import DigitMask.Pattern.Parser
import DigitMask.Proofs.Rounding

/-! Reading a displayed text. Whatever text surrounds the number, the reader is left with what the
layout spells; a percent sign at the end is seen only if the trailing text ends in one. -/
namespace DigitMask

theorem replace_same {α : Type} [BEq α] [LawfulBEq α] (a : α) (l : List α) :
    l.replace a a = l := by
  induction l with
  | nil => rfl
  | cons b l ih =>
    rw [List.replace_cons, ih]
    split
    · next same => rw [beq_iff_eq.1 same]
    · rfl

theorem getLast?_replace_iff {α : Type} [BEq α] [LawfulBEq α] {a b c : α} {l : List α}
    (old : c ≠ a) (new : c ≠ b) : (l.replace a b).getLast? = some c ↔ l.getLast? = some c := by
  induction l using List.reverseRecOn with
  | nil => exact Iff.rfl
  | append_singleton l d _ =>
    rw [List.replace_append]
    split
    · simp
    · rw [List.replace_singleton]
      split
      · next same =>
        have first : a = d := by simpa using same
        simp [← first, old.symm, new.symm]
      · simp

namespace Symbols

variable {symbols : Symbols} {pieces : List Piece}

/-- Literal text that can be told from a number. -/
def Literal (c : Char) : Prop := c ≠ '.' ∧ c ≠ ',' ∧ c ≠ '-'

theorem Distinct.ne_decimal (distinct : symbols.Distinct) {c : Char} (literal : Literal c) :
    c ≠ symbols.decimal := by
  rcases distinct.decimal with same | same <;> rw [same]
  · exact literal.1
  · exact literal.2.1

theorem isNumeric_of_literal {c : Char} (literal : Literal c) : isNumeric c = c.isDigit := by
  rw [Bool.eq_iff_iff, isNumeric_iff]
  simp [literal.1, literal.2.2]

/-- What is taken from a piece behind the first decimal symbol: another one is passed over, unless
it is the point itself. -/
def spellLater (symbols : Symbols) : Piece → Option Char
  | .decimal => if symbols.decimal = '.' then some '.' else none
  | piece => piece.spell

theorem filterMap_spellLater (pointless : .decimal ∉ pieces) :
    pieces.filterMap symbols.spellLater = pieces.filterMap Piece.spell := by
  refine List.filterMap_congr fun piece member => ?_
  cases piece with
  | decimal => exact absurd member pointless
  | _ => rfl

theorem filter_write (distinct : symbols.Distinct) (piece : Piece)
    (literal : ∀ c, piece = .char c → Literal c) :
    ([piece.write symbols].filter (· != symbols.group)).filter isNumeric =
      (symbols.spellLater piece).toList := by
  cases piece with
  | char c =>
    have numeric := isNumeric_of_literal (literal c rfl)
    by_cases same : c = symbols.group
    · simp [Piece.write, spellLater, Piece.spell, same, distinct.group_not_digit]
    · by_cases digit : c.isDigit <;>
        simp [Piece.write, spellLater, Piece.spell, same, numeric, digit]
  | decimal =>
    have other := distinct.group_ne_decimal.symm
    rcases distinct.decimal with point | point <;> rw [point] at other <;>
      simp [Piece.write, spellLater, point, other, isNumeric]
  | group => simp [Piece.write, spellLater, Piece.spell]
  | negative =>
    have other := distinct.group_ne_negative.symm
    simp [Piece.write, spellLater, Piece.spell, distinct.negative, other, isNumeric]

theorem filter_pieces (distinct : symbols.Distinct)
    (literal : ∀ c, .char c ∈ pieces → Literal c) :
    ((pieces.map (Piece.write symbols)).filter (· != symbols.group)).filter isNumeric =
      pieces.filterMap symbols.spellLater := by
  induction pieces with
  | nil => rfl
  | cons piece pieces ih =>
    have ih := ih fun c member => literal c (List.mem_cons_of_mem _ member)
    have first := filter_write distinct piece
      (fun c same => literal c (same ▸ List.mem_cons_self))
    rw [List.map_cons, ← List.singleton_append, List.filter_append, List.filter_append, first, ih]
    cases spelled : symbols.spellLater piece <;> simp [spelled]

theorem decimal_not_mem (distinct : symbols.Distinct)
    (literal : ∀ c, .char c ∈ pieces → Literal c) (pointless : .decimal ∉ pieces) :
    symbols.decimal ∉ (pieces.map (Piece.write symbols)).filter (· != symbols.group) := by
  intro member
  obtain ⟨member, kept⟩ := List.mem_filter.1 member
  obtain ⟨piece, member, same⟩ := List.mem_map.1 member
  cases piece with
  | char c => exact distinct.ne_decimal (literal c member) same
  | decimal => exact pointless member
  | group => rw [← same] at kept; simp [Piece.write] at kept
  | negative =>
    rw [Piece.write, distinct.negative] at same
    rcases distinct.decimal with point | point <;> rw [point] at same <;> cases same

/-- The first decimal symbol becomes the point. -/
theorem filter_normalize_append (distinct : symbols.Distinct) {before after : List Piece}
    (literal : ∀ c, .char c ∈ before ++ .decimal :: after → Literal c)
    (clear : .decimal ∉ before) :
    (symbols.normalize ((before ++ .decimal :: after).map (Piece.write symbols))).filter isNumeric =
      before.filterMap Piece.spell ++ '.' :: after.filterMap symbols.spellLater := by
  have literalBefore (c : Char) (member : .char c ∈ before) : Literal c :=
    literal c (List.mem_append_left _ member)
  have literalAfter (c : Char) (member : .char c ∈ after) : Literal c :=
    literal c (List.mem_append_right _ (List.mem_cons_of_mem _ member))
  have kept (rest : List Char) : (symbols.decimal :: rest).filter (· != symbols.group) =
      symbols.decimal :: rest.filter (· != symbols.group) :=
    List.filter_cons_of_pos (bne_iff_ne.2 distinct.group_ne_decimal.symm)
  rw [normalize, distinct.negative, replace_same, List.map_append, List.map_cons,
    List.filter_append, Piece.write, kept,
    List.replace_append_right (decimal_not_mem distinct literalBefore clear),
    List.replace_cons_self, List.filter_append, filter_pieces distinct literalBefore,
    filterMap_spellLater clear, List.filter_cons_of_pos (by decide),
    filter_pieces distinct literalAfter]

theorem filter_normalize (distinct : symbols.Distinct)
    (literal : ∀ c, .char c ∈ pieces → Literal c) (once : pieces.count .decimal ≤ 1) :
    (symbols.normalize (pieces.map (Piece.write symbols))).filter isNumeric =
      pieces.filterMap Piece.spell := by
  by_cases point : .decimal ∈ pieces
  · obtain ⟨before, after, rfl⟩ := List.append_of_mem point
    rw [List.count_append, List.count_cons_self] at once
    have clear : .decimal ∉ before := List.count_eq_zero.1 (by omega)
    have last : .decimal ∉ after := List.count_eq_zero.1 (by omega)
    rw [filter_normalize_append distinct literal clear, filterMap_spellLater last,
      List.filterMap_append]
    rfl
  · rw [normalize, distinct.negative, replace_same,
      List.replace_of_not_mem (decimal_not_mem distinct literal point),
      filter_pieces distinct literal, filterMap_spellLater point]

theorem getLast?_normalize (distinct : symbols.Distinct) {text : List Char} :
    (symbols.normalize text).getLast? = some '%' ↔
      (text.filter (· != symbols.group)).getLast? = some '%' := by
  have other : '%' ≠ symbols.decimal := by
    rcases distinct.decimal with same | same <;> rw [same] <;> decide
  rw [normalize, distinct.negative, replace_same]
  exact getLast?_replace_iff other (by decide)

/-- The pieces of a number but the group separators are written as other characters than a
percent sign. -/
theorem write_isNumber (distinct : symbols.Distinct) {piece : Piece}
    (part : Display.IsNumber piece) : piece = .group ∨
      piece.write symbols ≠ symbols.group ∧ piece.write symbols ≠ '%' := by
  rcases part with rfl | rfl | ⟨d, rfl⟩
  · refine .inr ⟨distinct.group_ne_decimal.symm, ?_⟩
    rcases distinct.decimal with same | same <;> rw [Piece.write, same] <;> decide
  · exact .inl rfl
  · exact .inr ⟨d.char_ne distinct.group_not_digit, d.char_ne rfl⟩

variable {pattern : Pattern} {options : Options} {figure : Figure}

/-- Where the number spells something, a percent sign at the end is one of the trailing text. -/
theorem body_eq_nil_of_percent (distinct : symbols.Distinct) (unlabelled : figure.label = "")
    {front : List Char}
    (percent : (front ++ ((Display.body .pieces pattern options figure).map
      (Piece.write symbols)).filter (· != symbols.group)).getLast? = some '%') :
    (Display.body .pieces pattern options figure).filterMap Piece.spell = [] := by
  have part (piece : Piece) (member : piece ∈ Display.body .pieces pattern options figure) :=
    Display.isNumber_of_mem_body pattern options figure unlabelled member
  generalize Display.body .pieces pattern options figure = body at percent part ⊢
  rw [List.filterMap_eq_nil_iff]
  intro piece member
  rcases write_isNumber distinct (part _ member) with rfl | ⟨kept, -⟩
  · rfl
  have some : (body.map (Piece.write symbols)).filter (· != symbols.group) ≠ [] :=
    List.ne_nil_of_mem (List.mem_filter.2 ⟨List.mem_map_of_mem member, bne_iff_ne.2 kept⟩)
  rw [List.getLast?_append_of_ne_nil _ some] at percent
  obtain ⟨last, shown⟩ := List.mem_filter.1 (List.mem_of_getLast? percent)
  obtain ⟨other, member, same⟩ := List.mem_map.1 last
  rcases write_isNumber distinct (part _ member) with rfl | ⟨-, free⟩
  · rw [← same] at shown; simp [Piece.write] at shown
  · exact absurd same free

end Symbols

theorem Binary64.ofPercent_zero (length : Nat) : zero.ofPercent length = zero := by
  obtain ⟨finite, value⟩ := ofNat_spec (n := 100) (by norm_num)
  obtain ⟨quotientFinite, quotient⟩ := div_spec (x := zero) rfl finite (by rw [value]; norm_num)
  rw [value_zero, zero_div, binary_zero] at quotientFinite quotient
  have finite := quotientFinite.2 (by rw [abs_zero]; positivity)
  exact roundTo_of_value_zero finite (quotient finite) _

/-- Around the mask there is text that cannot be taken for a part of the number. -/
structure Pattern.Quiet (pattern : Pattern) : Prop where
  leading : ∀ c ∈ pattern.leading.toList, isMaskChar c = false ∧ c.isDigit = false
  trailing : ∀ c ∈ pattern.trailing.toList, isMaskChar c = false ∧ c.isDigit = false

namespace Display

variable {pattern : Pattern} {options : Options} {figure : Figure}

theorem literal_of_not_mask {c : Char} (outside : isMaskChar c = false) : Symbols.Literal c := by
  simp only [isMaskChar, Bool.or_eq_false_iff, beq_eq_false_iff_ne, ne_eq] at outside
  exact ⟨outside.1.2, outside.1.1.2, outside.1.1.1.2⟩

theorem literal_of_isDigit {c : Char} (digit : c.isDigit = true) : Symbols.Literal c := by
  refine ⟨?_, ?_, ?_⟩ <;> rintro rfl <;> cases digit

theorem mem_front {piece : Piece} (member : piece ∈ front .pieces pattern figure) :
    piece = .negative ∨ piece ∈ Piece.ofText pattern.leading := by
  unfold front at member
  split at member
  · split at member
    · exact List.mem_cons.1 member
    · rcases List.mem_append.1 member with text | sign
      · exact .inr text
      · exact .inl (List.mem_singleton.1 sign)
  · exact .inr member

theorem literal_of_mem_layout (quiet : pattern.Quiet) (unlabelled : figure.label = "") (c : Char)
    (member : .char c ∈ layout .pieces pattern options figure) : Symbols.Literal c := by
  rw [layout_eq] at member
  rcases List.mem_append.1 member with member | trailing
  · rcases List.mem_append.1 member with front | body
    · rcases mem_front front with sign | leading
      · cases sign
      · obtain ⟨d, inside, same⟩ := List.mem_map.1 leading
        cases same
        exact literal_of_not_mask (quiet.leading c inside).1
    · rcases isNumber_of_mem_body pattern options figure unlabelled body with h | h | ⟨d, same⟩
      · cases h
      · cases h
      · cases same
        exact literal_of_isDigit (isDigit_char d)
  · obtain ⟨d, inside, same⟩ := List.mem_map.1 trailing
    cases same
    exact literal_of_not_mask (quiet.trailing c inside).1

theorem count_ofText (text : String) : (Piece.ofText text).count .decimal = 0 := by
  refine List.count_eq_zero.2 fun member => ?_
  obtain ⟨c, -, same⟩ := List.mem_map.1 member
  cases same

theorem count_digits (digits : List Digit) : (digits.map Piece.digit).count .decimal = 0 := by
  refine List.count_eq_zero.2 fun member => ?_
  obtain ⟨d, -, same⟩ := List.mem_map.1 member
  cases same

/-- One decimal point at the most is written. -/
theorem count_decimal_layout (unlabelled : figure.label = "") :
    (layout .pieces pattern options figure).count .decimal ≤ 1 := by
  have sign : (front .pieces pattern figure).count .decimal = 0 := by
    refine List.count_eq_zero.2 fun member => ?_
    rcases mem_front member with same | text
    · cases same
    · exact List.count_eq_zero.1 (count_ofText pattern.leading) text
  have integer : (integer .pieces pattern figure).count .decimal = 0 := by
    have shown := count_digits (shownInteger pattern figure)
    rw [← filter_integer, List.count_filter (by decide)] at shown
    exact shown
  rw [layout_eq, Glyphs.pieces_text, body_eq pattern options figure unlabelled,
    List.count_append, List.count_append, List.count_append, List.count_append, sign, integer,
    count_digits, count_ofText]
  split <;> simp

end Display

theorem Symbols.filter_normalize_layout {symbols : Symbols} (distinct : symbols.Distinct)
    {pattern : Pattern} (quiet : pattern.Quiet) {options : Options} {figure : Figure}
    (unlabelled : figure.label = "") :
    (symbols.normalize ((Display.layout .pieces pattern options figure).map
      (Piece.write symbols))).filter isNumeric = Display.numeral pattern options figure := by
  rw [filter_normalize distinct (Display.literal_of_mem_layout quiet unlabelled)
    (Display.count_decimal_layout unlabelled)]
  exact Display.filterMap_spell_layout pattern options figure unlabelled
    (fun c member => (quiet.leading c member).2) fun c member => (quiet.trailing c member).2

theorem Symbols.read_layout {symbols : Symbols} (distinct : symbols.Distinct) {pattern : Pattern}
    (quiet : pattern.Quiet)
    (unmarked : (pattern.trailing.toList.filter (· != symbols.group)).getLast? ≠ some '%')
    {options : Options} {figure : Figure} (unlabelled : figure.label = "")
    (signed : figure.negative = true →
      (Display.body .pieces pattern options figure).filterMap Piece.spell ≠ []) :
    symbols.read ((Display.layout .pieces pattern options figure).map (Piece.write symbols)) =
      .ofChars (Display.numeral pattern options figure) := by
  simp only [read, filter_normalize_layout distinct quiet unlabelled]
  split
  · next percent =>
    -- Nothing is spelled then, and a hundredth of zero is zero.
    have last := (getLast?_normalize distinct).1 (beq_iff_eq.1 percent)
    rw [Display.layout_eq, Glyphs.pieces_text, List.map_append, List.map_append, List.filter_append,
      List.filter_append] at last
    have text : ((Piece.ofText pattern.trailing).map (Piece.write symbols)) =
        pattern.trailing.toList := by
      rw [Piece.ofText, List.map_map]
      exact List.map_id _
    rw [text] at last
    have bare : pattern.trailing.toList.filter (· != symbols.group) = [] := by
      by_contra some
      rw [List.getLast?_append_of_ne_nil _ some] at last
      exact unmarked last
    rw [bare, List.append_nil] at last
    have none := body_eq_nil_of_percent distinct unlabelled last
    have positive : figure.negative = false := by
      by_contra negative
      exact signed (by simpa using negative) none
    have blank : Display.numeral pattern options figure = [] := by
      rw [Display.numeral, positive, ← Display.filterMap_spell_body pattern options figure
        unlabelled, none]
    rw [blank]
    exact Binary64.ofPercent_zero 0
  · rfl

end DigitMask
