import DigitMask.Field
import DigitMask.Proofs.Decimal.Plain
import DigitMask.Proofs.Locale.Uniform

/-! What a field holds between parsing and formatting. Every number is read of some text in every
locale, and a parsed number is written so that formatting shows it; but an infinity is written as a
word that is no numeral. -/
namespace DigitMask

def Decimal.pieces (negative : Bool) (d : Decimal) : List Piece :=
  (if negative then [.negative] else []) ++
    (d.integerDigits.map .digit ++ .decimal :: d.fractionDigits.map .digit)

namespace Decimal

variable (negative : Bool) (d : Decimal)

theorem filterMap_spell_pieces : (d.pieces negative).filterMap Piece.spell =
    plainNumeral negative d.integerDigits true d.fractionDigits := by
  simp only [pieces, plainNumeral, List.filterMap_append, List.filterMap_cons,
    Piece.filterMap_spell_digits]
  cases negative <;> rfl

theorem mem_pieces {piece : Piece} (member : piece ∈ d.pieces negative) :
    piece = .negative ∨ piece = .decimal ∨ ∃ digit, piece = .digit digit := by
  simp only [pieces, List.mem_append, List.mem_cons, List.mem_map] at member
  rcases member with sign | ⟨digit, -, rfl⟩ | rfl | ⟨digit, -, rfl⟩
  · cases negative with
    | false => cases sign
    | true => exact .inl (List.mem_singleton.1 sign)
  · exact .inr (.inr ⟨digit, rfl⟩)
  · exact .inr (.inl rfl)
  · exact .inr (.inr ⟨digit, rfl⟩)

theorem drawn_pieces : Drawn (d.pieces negative) := by
  intro piece member
  rcases d.mem_pieces negative member with rfl | rfl | ⟨digit, rfl⟩
  · rfl
  · rfl
  · simp [Piece.digit, Piece.isPart, isDigit_char]

theorem percent_not_mem_pieces : .char '%' ∉ d.pieces negative := by
  intro member
  rcases d.mem_pieces negative member with same | same | ⟨digit, same⟩
  · cases same
  · cases same
  · exact digit.char_ne rfl (Piece.char.inj same).symm

theorem count_decimal_pieces : (d.pieces negative).count .decimal = 1 := by
  cases negative <;> simp [pieces, Display.count_digits]

end Decimal

theorem Symbols.read_pieces {symbols : Symbols} (distinct : symbols.Distinct)
    (apart : symbols.group ≠ '%') (negative : Bool) (d : Decimal) :
    symbols.read ((d.pieces negative).map (Piece.write symbols)) = d.toBinary64 negative := by
  have unmarked : ((d.pieces negative).filter (· != .group)).getLast? ≠ some (.char '%') := by
    intro last
    have member := (List.mem_filter.1 (List.mem_of_getLast? last)).1
    exact d.percent_not_mem_pieces negative member
  rw [read_drawn distinct apart (d.drawn_pieces negative), reached,
    onePoint_of_count_le (d.count_decimal_pieces negative).le, ite_self, if_neg unmarked,
    d.filterMap_spell_pieces, d.ofChars_positional negative fun _ => rfl]

/-- In every locale every number is read of some text. -/
theorem exists_parseNumber_eq (options : Options) {x : Binary64} (number : x.isNaN = false) :
    ∃ text, parseNumber options text = x := by
  obtain ⟨negative, d, rfl⟩ := Decimal.exists_toBinary64_eq number
  obtain ⟨group, same⟩ := Locale.exists_resolve_eq options.locale
  refine ⟨group.write (d.pieces negative), ?_⟩
  rw [parseNumber, same, Locale.Group.write, String.toList_ofList,
    Symbols.read_pieces group.distinct group.apart]

/-- What is not finite is shown like what is not a number. -/
theorem formatNumber_of_not_finite (options : Options) {x : Binary64}
    (infinite : x.isFinite = false) : formatNumber options x = formatNumber options .nan := by
  have start : Figure.start options x = Figure.start options .nan := by
    rw [Figure.start, infinite]
    rfl
  simp only [formatNumber, display, Figure.of, start, infinite]
  rfl

/-- The plain text of a number is shown like the number, whether it is a numeral or not. -/
theorem formatText_plain (options : Options) (x : Binary64) :
    formatText options (String.ofList x.plain) = formatNumber options x := by
  rw [formatText, Binary64.ofText_plain]
  split
  · rfl
  · next infinite => exact (formatNumber_of_not_finite options (by simpa using infinite)).symm

namespace Field

variable {field : Field} {options : Options} {x : Binary64}

theorem parse_snd_eq_some_iff {writeBack : Bool} :
    (field.parse options writeBack).2 = some x ↔
      parseNumber options field.text = x ∧ x.isZero = false ∧ x.isNaN = false := by
  rw [parse]
  constructor
  · intro read
    split at read
    · cases read
    · next proper =>
      obtain rfl := Option.some_inj.1 read
      exact ⟨rfl, by simpa using proper⟩
  · rintro ⟨rfl, nonzero, number⟩
    rw [if_neg (by simp [nonzero, number])]

theorem parse_fst_of_some (read : (field.parse options true).2 = some x) :
    (field.parse options true).1 = field.write (String.ofList x.plain) := by
  obtain ⟨rfl, nonzero, number⟩ := parse_snd_eq_some_iff.1 read
  rw [parse, if_neg (by simp [nonzero, number]), if_pos rfl]

theorem format_write (field : Field) (text : String) (options : Options) :
    (field.write text).format options true =
      (⟨(formatText options text).getD "", field.writes + 2⟩, formatText options text) := rfl

/-- A field that is parsed and then formatted shows the number that was parsed, under whatever
options it is formatted. This can be any number but zero. -/
theorem format_parse (o p : Options) :
    (∀ (field : Field) (x : Binary64), (field.parse o true).2 = some x →
      (field.parse o true).1.format p true =
        (⟨(formatNumber p x).getD "", field.writes + 2⟩, formatNumber p x)) ∧
    ∀ x : Binary64, (∃ field : Field, (field.parse o true).2 = some x) ↔
      x.isZero = false ∧ x.isNaN = false := by
  refine ⟨fun field x read => ?_, fun x => ⟨?_, ?_⟩⟩
  · rw [parse_fst_of_some read, format_write, formatText_plain]
  · rintro ⟨field, read⟩
    exact (parse_snd_eq_some_iff.1 read).2
  · rintro ⟨nonzero, number⟩
    obtain ⟨text, read⟩ := exists_parseNumber_eq o number
    exact ⟨⟨text, 0⟩, parse_snd_eq_some_iff.2 ⟨read, nonzero, number⟩⟩

theorem format_parse_german :
    let field : Field := ⟨"1.234,5", 0⟩
    (field.parse { locale := "de" } true).2 = some (.ofText "1234.5") ∧
      (field.parse { locale := "de" } true).1.format {} true =
        (⟨(formatNumber {} (.ofText "1234.5")).getD "", 2⟩,
          formatNumber {} (.ofText "1234.5")) ∧
      formatNumber {} (.ofText "1234.5") = some "1,234.50" := by
  intro field
  have read : (field.parse { locale := "de" } true).2 = some (.ofText "1234.5") := by
    decide +kernel
  exact ⟨read, (format_parse { locale := "de" } {}).1 field _ read, by decide +kernel⟩

/-- The text that is left in a field denotes the number that was parsed just if that is finite. The
word for an infinity is no numeral. -/
theorem ofText_parse_iff (read : (field.parse options true).2 = some x) :
    (Binary64.ofText (field.parse options true).1.text = x ↔ x.isFinite = true) ∧
      ∀ negative, x = .infinity negative →
        (field.parse options true).1.text = (if negative then "-inf" else "inf") ∧
          Binary64.ofText (field.parse options true).1.text = .nan := by
  rw [parse_fst_of_some read, write, x.ofText_plain]
  cases x with
  | nan => cases (parse_snd_eq_some_iff.1 read).2.2
  | infinity negative =>
    refine ⟨iff_of_false nofun nofun, ?_⟩
    rintro _ ⟨⟩
    cases negative <;> exact ⟨rfl, rfl⟩
  | finite => exact ⟨iff_of_true rfl rfl, nofun⟩

/-- A field with a number beyond the finite ones. -/
theorem ofText_parse_iff_infinity :
    let field : Field := ⟨String.ofList ('1' :: List.replicate 309 '0'), 0⟩
    (field.parse {} true).2 = some (.infinity false) ∧
      (field.parse {} true).1.text = "inf" ∧
      Binary64.ofText (field.parse {} true).1.text = .nan := by
  intro field
  have number : parseNumber {} field.text = .infinity false := by
    rw [parseNumber, String.toList_ofList]
    decide +kernel
  have read : (field.parse {} true).2 = some (.infinity false) :=
    parse_snd_eq_some_iff.2 ⟨number, rfl, rfl⟩
  exact ⟨read, (ofText_parse_iff read).2 false rfl⟩

end Field
end DigitMask
