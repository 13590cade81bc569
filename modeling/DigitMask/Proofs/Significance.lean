import DigitMask.Number
import DigitMask.Proofs.Numeral.Value
import DigitMask.Proofs.Reading

/-! The characters of a text that have a part in the number read from it. All others may be left out
or put in anywhere, but for a percent sign at the end. -/
namespace DigitMask

/-- Replacing the first `a` and filtering is filtering, replacing and filtering again, if what the
first filter takes out is neither the `a` nor any that the whole would keep. -/
theorem filter_replace {α : Type} [BEq α] [LawfulBEq α] {a b : α} {p q r : α → Bool} {l : List α}
    (kept : q a = true) (same : p b = r b) (split : ∀ c ∈ l, p c = (q c && r c)) :
    (l.replace a b).filter p = ((l.filter q).replace a b).filter r := by
  induction l with
  | nil => rfl
  | cons c l ih =>
    have tail (c : α) (member : c ∈ l) := split c (List.mem_cons_of_mem _ member)
    have head := split c List.mem_cons_self
    by_cases first : a = c
    · subst first
      rw [List.filter_cons_of_pos kept, List.replace_cons_self, List.replace_cons_self,
        List.filter_cons, List.filter_cons, same, List.filter_filter,
        List.filter_congr fun c member => (tail c member).trans (Bool.and_comm _ _)]
    · have other : (a == c) = false := beq_false_of_ne first
      rw [List.replace_cons, other, List.filter_cons, List.filter_cons, ih tail, head]
      cases outside : q c with
      | false => rfl
      | true => rw [if_pos rfl, List.replace_cons, other, List.filter_cons]; rfl

namespace Symbols

variable {symbols : Symbols}

/-- The characters that can have a part in a number. -/
def isSignificant (symbols : Symbols) (c : Char) : Bool :=
  c.isDigit || c == '-' || c == symbols.decimal || (c == '.' && symbols.group != '.')

def significant (symbols : Symbols) (text : List Char) : List Char :=
  text.filter symbols.isSignificant

/-- The decimal point in place of the first decimal symbol; others are left out but for points. -/
def pointed (symbols : Symbols) (significant : List Char) : List Char :=
  (significant.replace symbols.decimal '.').filter fun c => c != symbols.decimal || c == '.'

/-- A percent sign is last, group separators aside. -/
def EndsInPercent (symbols : Symbols) (text : List Char) : Prop :=
  (text.filter (· != symbols.group)).getLast? = some '%'

instance (symbols : Symbols) (text : List Char) : Decidable (symbols.EndsInPercent text) :=
  inferInstanceAs (Decidable (_ = _))

theorem Distinct.ne_decimal_of_isDigit (distinct : symbols.Distinct) {c : Char}
    (digit : c.isDigit = true) : c ≠ symbols.decimal :=
  distinct.ne_decimal (Display.literal_of_isDigit digit)

theorem ne_group_of_isSignificant (distinct : symbols.Distinct) {c : Char}
    (significant : symbols.isSignificant c = true) : c ≠ symbols.group := by
  rintro rfl
  have plain := distinct.group_not_digit
  have other := distinct.group_ne_decimal
  have positive := distinct.group_ne_negative
  simp [isSignificant, plain, other, positive] at significant

theorem filter_isNumeric_normalize (distinct : symbols.Distinct) (text : List Char) :
    (symbols.normalize text).filter isNumeric = symbols.pointed (symbols.significant text) := by
  have ungrouped : (text.filter (· != symbols.group)).filter symbols.isSignificant =
      symbols.significant text := by
    rw [List.filter_filter]
    refine List.filter_congr fun c _ => ?_
    cases part : symbols.isSignificant c with
    | false => rfl
    | true => simpa using ne_group_of_isSignificant distinct part
  rw [normalize, distinct.negative, replace_same, pointed, ← ungrouped]
  refine filter_replace (by simp [isSignificant]) (by simp [isNumeric]) fun c member => ?_
  have kept : c ≠ symbols.group := by simpa using (List.mem_filter.1 member).2
  have digit : c.isDigit = true → c ≠ symbols.decimal := distinct.ne_decimal_of_isDigit
  have minus : '-' ≠ symbols.decimal := by
    rcases distinct.decimal with same | same <;> rw [same] <;> decide
  rw [Bool.eq_iff_iff]
  simp only [isNumeric, isSignificant, Bool.or_eq_true, Bool.and_eq_true, beq_iff_eq, bne_iff_ne]
  by_cases point : c = '.'
  · subst point
    simp [kept.symm]
  · grind

theorem isNumeric_of_mem_pointed (distinct : symbols.Distinct) {text : List Char} (c : Char)
    (member : c ∈ symbols.pointed (symbols.significant text)) : isNumeric c = true := by
  rw [← filter_isNumeric_normalize distinct] at member
  exact (List.mem_filter.1 member).2

theorem read_eq (distinct : symbols.Distinct) (text : List Char) : symbols.read text =
    let numeral := symbols.pointed (symbols.significant text)
    if symbols.EndsInPercent text then (Binary64.ofChars numeral).ofPercent numeral.length
    else .ofChars numeral := by
  simp only [read, filter_isNumeric_normalize distinct, beq_iff_eq, getLast?_normalize distinct]
  rfl

end Symbols

theorem Binary64.ofPercent_eq_nan_iff (x : Binary64) (length : ℕ) :
    x.ofPercent length = .nan ↔ x = .nan := by
  obtain ⟨finite, value⟩ := ofNat_spec (n := 100) (by norm_num)
  rw [ofPercent, roundTo_eq_nan_iff, div_eq_nan_iff finite (by rw [value]; norm_num)]

theorem ofChars_eq_nan_iff_of_isNumeric {text : List Char}
    (numeric : ∀ c ∈ text, isNumeric c = true) : Binary64.ofChars text = .nan ↔
      text ≠ [] ∧ ¬ ∃ negative integer fraction, SpellsPlain text negative integer fraction := by
  rw [← not_iff_not, ← ne_eq, Numeral.ofChars_ne_nan_iff, trim_eq_self numeric]
  simp only [Numeral.spells_iff_of_isNumeric numeric, not_and_or, not_not]
  constructor
  · rintro ⟨n, ⟨blank, -⟩ | ⟨negative, integer, fraction, plain, -⟩⟩
    · exact .inl blank
    · exact .inr ⟨negative, integer, fraction, plain⟩
  · rintro (blank | ⟨negative, integer, fraction, plain⟩)
    · exact ⟨_, .inl ⟨blank, rfl⟩⟩
    · exact ⟨_, .inr ⟨negative, integer, fraction, plain, rfl⟩⟩

theorem SpellsPlain.isRounded_ofChars {text : List Char} {negative : Bool}
    {integer fraction : List Digit} (numeric : ∀ c ∈ text, isNumeric c = true)
    (plain : SpellsPlain text negative integer fraction) :
    (Binary64.ofChars text).IsRounded negative
      (Decimal.value ⟨number (integer ++ fraction), -fraction.length⟩) := by
  rw [plain.ofChars_eq numeric]
  exact Decimal.isRounded_toBinary64 _ _

namespace Symbols

variable {symbols : Symbols} (distinct : symbols.Distinct) {text other : List Char}
include distinct

theorem read_congr (same : symbols.significant text = symbols.significant other)
    (percent : symbols.EndsInPercent text ↔ symbols.EndsInPercent other) :
    symbols.read text = symbols.read other := by
  rw [read_eq distinct, read_eq distinct, same]
  simp only [percent]

theorem read_eq_nan_iff : symbols.read text = .nan ↔
    symbols.pointed (symbols.significant text) ≠ [] ∧ ¬ ∃ negative integer fraction,
      SpellsPlain (symbols.pointed (symbols.significant text)) negative integer fraction := by
  rw [← ofChars_eq_nan_iff_of_isNumeric (isNumeric_of_mem_pointed distinct), read_eq distinct]
  dsimp only
  split
  · exact Binary64.ofPercent_eq_nan_iff _ _
  · exact Iff.rfl

theorem read_of_pointed_eq_nil (none : symbols.pointed (symbols.significant text) = []) :
    symbols.read text = .zero := by
  rw [read_eq distinct, none]
  dsimp only
  split
  · exact Binary64.ofPercent_zero 0
  · rfl

end Symbols

/-- Texts of the same significant characters are read as the same number, if a percent sign ends
both or neither; and a number is read just if these characters are none or spell a plain one. -/
theorem parseNumber_of_significant (options : Options) :
    let symbols := Locale.resolve options.locale
    (∀ s t : String, symbols.significant s.toList = symbols.significant t.toList →
      (symbols.EndsInPercent s.toList ↔ symbols.EndsInPercent t.toList) →
      parseNumber options s = parseNumber options t) ∧
    ∀ text : String,
      let numeral := symbols.pointed (symbols.significant text.toList)
      (parseNumber options text = .nan ↔ numeral ≠ [] ∧
        ¬ ∃ negative integer fraction, SpellsPlain numeral negative integer fraction) ∧
      (numeral = [] → parseNumber options text = .zero) ∧
      ∀ negative integer fraction, SpellsPlain numeral negative integer fraction →
        ∃ number : Binary64,
          number.IsRounded negative (Decimal.value ⟨DigitMask.number (integer ++ fraction),
            -fraction.length⟩) ∧
          parseNumber options text = if symbols.EndsInPercent text.toList then
            number.ofPercent numeral.length else number := by
  intro symbols
  have distinct : symbols.Distinct := Locale.distinct_resolve options.locale
  refine ⟨fun s t => Symbols.read_congr distinct, fun text => ⟨Symbols.read_eq_nan_iff distinct,
    Symbols.read_of_pointed_eq_nil distinct, fun negative integer fraction plain => ?_⟩⟩
  exact ⟨_, plain.isRounded_ofChars (Symbols.isNumeric_of_mem_pointed distinct),
    Symbols.read_eq distinct text.toList⟩

end DigitMask
