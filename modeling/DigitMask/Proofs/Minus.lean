import DigitMask.Proofs.Mirror
import DigitMask.Proofs.Opposite
import DigitMask.Proofs.Significance

/-! Texts with a minus sign put before them. The number that is read changes its sign, and nothing
else, unless the text is a percentage: the sign counts as one more character, so the hundredth is
rounded to one place more. -/
namespace DigitMask

theorem mem_replace_iff {α : Type} [BEq α] [LawfulBEq α] {a b c : α} {l : List α} (old : c ≠ a)
    (new : c ≠ b) : c ∈ l.replace a b ↔ c ∈ l := by
  induction l with
  | nil => exact Iff.rfl
  | cons d l ih =>
    rw [List.replace_cons]
    split
    · next same => simp [← beq_iff_eq.1 same, old, new]
    · simp [ih]

theorem Binary64.neg_eq_nan_iff (x : Binary64) : x.neg = nan ↔ x = nan := by
  cases x <;> simp [neg]

theorem Decimal.toBinary64_not (negative : Bool) (d : Decimal) :
    d.toBinary64 (!negative) = (d.toBinary64 negative).neg := by
  rw [toBinary64_eq, toBinary64_eq, Binary64.ofQuanta_not]

/-- A minus sign makes a numeral of one without a sign, and of nothing else. -/
theorem spellsPlain_minus_iff {numeral : List Char} {negative : Bool}
    {integer fraction : List Digit} : SpellsPlain ('-' :: numeral) negative integer fraction ↔
      negative = true ∧ SpellsPlain numeral false integer fraction := by
  constructor
  · intro plain
    cases plain with
    | positive digits =>
      rcases digits.isDigit_or_point List.mem_cons_self with digit | point
      · cases digit
      · exact absurd point (by decide)
    | negative digits => exact ⟨rfl, .positive digits⟩
  · rintro ⟨rfl, plain⟩
    cases plain with
    | positive digits => exact .negative digits

theorem ofChars_minus {numeral : List Char} (numeric : ∀ c ∈ numeral, isNumeric c = true)
    (unsigned : '-' ∉ numeral) (shown : numeral ≠ []) :
    Binary64.ofChars ('-' :: numeral) = (Binary64.ofChars numeral).neg := by
  have signed : ∀ c ∈ '-' :: numeral, isNumeric c = true :=
    List.forall_mem_cons.2 ⟨rfl, numeric⟩
  by_cases plain : ∃ integer fraction, SpellsPlain numeral false integer fraction
  · obtain ⟨integer, fraction, plain⟩ := plain
    rw [plain.ofChars_eq numeric, (spellsPlain_minus_iff.2 ⟨rfl, plain⟩).ofChars_eq signed]
    exact Decimal.toBinary64_not false _
  · have none : Binary64.ofChars numeral = .nan := by
      refine (ofChars_eq_nan_iff_of_isNumeric numeric).2 ⟨shown, ?_⟩
      rintro ⟨negative, integer, fraction, spells⟩
      cases spells with
      | positive digits => exact plain ⟨_, _, .positive digits⟩
      | negative => exact unsigned List.mem_cons_self
    rw [none]
    refine (ofChars_eq_nan_iff_of_isNumeric signed).2 ⟨List.cons_ne_nil _ _, ?_⟩
    rintro ⟨negative, integer, fraction, spells⟩
    exact plain ⟨_, _, (spellsPlain_minus_iff.1 spells).2⟩

namespace Symbols

variable {symbols : Symbols} (distinct : symbols.Distinct) {text : List Char}
include distinct

theorem mem_normalize_iff {c : Char} (ungrouped : c ≠ symbols.group)
    (old : c ≠ symbols.decimal) (new : c ≠ '.') : c ∈ symbols.normalize text ↔ c ∈ text := by
  rw [normalize, distinct.negative, replace_same, mem_replace_iff old new, List.mem_filter]
  simp [ungrouped]

theorem minus_ne_decimal : '-' ≠ symbols.decimal := by
  rcases distinct.decimal with same | same <;> rw [same] <;> decide

theorem normalize_minus : symbols.normalize ('-' :: text) = '-' :: symbols.normalize text := by
  have other : (symbols.decimal == '-') = false := beq_false_of_ne (minus_ne_decimal distinct).symm
  have kept : ('-' :: text).filter (· != symbols.group) =
      '-' :: text.filter (· != symbols.group) :=
    List.filter_cons_of_pos (bne_iff_ne.2 distinct.group_ne_negative.symm)
  rw [normalize, normalize, distinct.negative, replace_same, replace_same, kept,
    List.replace_cons, other]

theorem endsInPercent_minus : symbols.EndsInPercent ('-' :: text) ↔ symbols.EndsInPercent text := by
  rw [EndsInPercent, EndsInPercent, ← getLast?_normalize distinct, ← getLast?_normalize distinct,
    normalize_minus distinct, List.getLast?_cons]
  cases (symbols.normalize text).getLast? <;> simp

theorem read_of_endsInPercent (percent : symbols.EndsInPercent text) : symbols.read text =
    (Binary64.ofChars ((symbols.normalize text).filter isNumeric)).ofPercent
      ((symbols.normalize text).filter isNumeric).length :=
  if_pos (beq_iff_eq.2 ((getLast?_normalize distinct).2 percent))

theorem read_of_not_endsInPercent (bare : ¬ symbols.EndsInPercent text) :
    symbols.read text = Binary64.ofChars ((symbols.normalize text).filter isNumeric) :=
  if_neg fun last => bare ((getLast?_normalize distinct).1 (beq_iff_eq.1 last))

variable (digit : ∃ c ∈ text, c.isDigit = true) (unsigned : '-' ∉ text)
include digit unsigned

theorem Distinct.ofChars_normalize_minus :
    (symbols.normalize ('-' :: text)).filter isNumeric =
      '-' :: (symbols.normalize text).filter isNumeric ∧
    Binary64.ofChars ('-' :: (symbols.normalize text).filter isNumeric) =
      (Binary64.ofChars ((symbols.normalize text).filter isNumeric)).neg ∧
    (symbols.normalize text).filter isNumeric ≠ [] := by
  have shown : (symbols.normalize text).filter isNumeric ≠ [] := by
    obtain ⟨c, member, digit⟩ := digit
    have ungrouped : c ≠ symbols.group := by
      rintro rfl
      rw [distinct.group_not_digit] at digit
      cases digit
    have kept := (mem_normalize_iff distinct ungrouped (distinct.ne_decimal_of_isDigit digit)
      (Display.literal_of_isDigit digit).1).2 member
    exact List.ne_nil_of_mem (List.mem_filter.2 ⟨kept, (isNumeric_iff c).2 (.inl digit)⟩)
  refine ⟨by rw [normalize_minus distinct, List.filter_cons_of_pos rfl],
    ofChars_minus ?_ ?_ shown, shown⟩
  · exact fun c member => (List.mem_filter.1 member).2
  · intro member
    apply unsigned
    rw [← mem_normalize_iff distinct distinct.group_ne_negative.symm
      (minus_ne_decimal distinct) (by decide)]
    exact (List.mem_filter.1 member).1

end Symbols

/-- A minus sign before a text with a digit and without a sign keeps what is not a number, and
changes the sign of what is read from a text that is not a percentage. The hundredth of a percentage
is rounded to one place more, with halves still going up. So its numbers are opposite just if
the one read with the sign does not need that place; beyond the greatest number of places both are
rounded alike, and they are opposite unless the hundredth is tied there. -/
theorem parseNumber_minus (options : Options) {text : String}
    (digit : ∃ c ∈ text.toList, c.isDigit = true) (unsigned : '-' ∉ text.toList) :
    let symbols := Locale.resolve options.locale
    let plain := parseNumber options text
    let minus := parseNumber options ("-" ++ text)
    (minus = .nan ↔ plain = .nan) ∧
    (¬ symbols.EndsInPercent text.toList → minus = plain.neg) ∧
    (symbols.EndsInPercent text.toList →
      let numeral := (symbols.normalize text.toList).filter isNumeric
      let hundredth := Binary64.ofChars numeral / .ofNat 100
      plain = hundredth.roundTo (numeral.length - 1) ∧
      minus = hundredth.neg.roundTo numeral.length ∧
      (numeral.length ≤ Binary64.maxPlaces → (minus.unsignZero = plain.neg.unsignZero ↔
        minus.neg.roundTo (numeral.length - 1) = minus.neg.unsignZero)) ∧
      (Binary64.maxPlaces < numeral.length → (minus.unsignZero = plain.neg.unsignZero ↔
        ¬ hundredth.Tied Binary64.maxPlaces))) := by
  intro symbols plain minus
  have distinct : symbols.Distinct := Locale.distinct_resolve options.locale
  obtain ⟨longer, opposite, some⟩ := distinct.ofChars_normalize_minus digit unsigned
  have signed : minus = symbols.read ('-' :: text.toList) := by
    simp [minus, parseNumber, symbols]
  by_cases percent : symbols.EndsInPercent text.toList
  · have own : plain = _ := Symbols.read_of_endsInPercent distinct percent
    have other := Symbols.read_of_endsInPercent distinct
      ((Symbols.endsInPercent_minus distinct).2 percent)
    rw [longer, opposite, ← signed] at other
    refine ⟨?_, fun bare => absurd percent bare, fun _ => ?_⟩
    · rw [own, other, Binary64.ofPercent_eq_nan_iff, Binary64.ofPercent_eq_nan_iff,
        Binary64.neg_eq_nan_iff]
    intro numeral hundredth
    obtain ⟨places, count⟩ : ∃ places, numeral.length = places + 1 :=
      Nat.exists_eq_succ_of_ne_zero (List.length_pos_iff.2 some).ne'
    have own : plain = hundredth.roundTo (numeral.length - 1) := own
    have other : minus = hundredth.neg.roundTo numeral.length := by
      rw [other, Binary64.ofPercent, Binary64.neg_div]
      rfl
    rw [count] at own other ⊢
    rw [own, other, Nat.add_sub_cancel]
    refine ⟨rfl, rfl, fun few => Binary64.roundTo_neg_eq_iff _ few, fun many => ?_⟩
    rw [Binary64.roundTo_of_le _ (Nat.le_of_lt_succ many), Binary64.roundTo_of_le _ many.le]
    exact Binary64.roundTo_neg_eq_iff_not_tied _ _
  · have own : plain = _ := Symbols.read_of_not_endsInPercent distinct percent
    have other := Symbols.read_of_not_endsInPercent distinct
      ((Symbols.endsInPercent_minus distinct).not.2 percent)
    rw [longer, opposite, ← signed, ← own] at other
    rw [other]
    exact ⟨Binary64.neg_eq_nan_iff _, fun _ => rfl, fun last => absurd last percent⟩

theorem resolve_default : Locale.resolve ({} : Options).locale = {} := by decide +kernel

theorem parseNumber_default (text : String) :
    parseNumber {} text = Symbols.read {} text.toList := by
  rw [parseNumber, resolve_default]

/-- A hundredth of twelve is rounded to one place, and with the sign to two. -/
theorem parseNumber_minus_twelve : ∃ numeral : List Char, numeral.length = 2 ∧
    parseNumber {} "12%" = (Binary64.ofChars numeral / .ofNat 100).roundTo 1 ∧
    parseNumber {} "-12%" = (Binary64.ofChars numeral / .ofNat 100).neg.roundTo 2 := by
  have percent : (Locale.resolve ({} : Options).locale).EndsInPercent "12%".toList := by
    rw [resolve_default]
    decide
  have count : (((Locale.resolve ({} : Options).locale).normalize "12%".toList).filter
      isNumeric).length = 2 := by
    rw [resolve_default]
    decide
  obtain ⟨-, -, percentage⟩ := @parseNumber_minus {} "12%" ⟨'1', by decide, rfl⟩ (by decide)
  obtain ⟨plain, minus, -⟩ := percentage percent
  rw [count] at plain minus
  exact ⟨_, count, plain, minus⟩

/-- So a percentage is not read as the opposite number when it gets a sign. -/
theorem not_parseNumber_minus_eq_neg : ¬ ∀ (options : Options) (text : String),
    (∃ c ∈ text.toList, c.isDigit = true) → '-' ∉ text.toList →
      (parseNumber options ("-" ++ text) = .nan ↔ parseNumber options text = .nan) ∧
      (parseNumber options text ≠ .nan →
        (parseNumber options ("-" ++ text)).unsignZero =
          (parseNumber options text).neg.unsignZero) := by
  intro opposite
  obtain ⟨-, twelve⟩ := opposite {} "12%" ⟨'1', by decide, rfl⟩ (by decide)
  rw [parseNumber_default, parseNumber_default] at twelve
  exact absurd (twelve (by decide +kernel)) (by decide +kernel)

end DigitMask
