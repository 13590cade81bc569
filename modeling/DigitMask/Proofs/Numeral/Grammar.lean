import DigitMask.Numeral.Parser
import DigitMask.Proofs.Decimal.Digit
import DigitMask.Proofs.Text.Ends
import Mathlib.Data.List.Forall2
import Mathlib.Tactic.IntervalCases

/-! The grammar of numerals, told without the order in which their kinds are tried. The reader
accepts just the texts that spell a numeral, and no text spells two. -/
namespace DigitMask

namespace Radix

variable {radix : Radix} {text : List Char}

def marks : Radix → List Char
  | hexadecimal => ['x', 'X']
  | octal => ['o', 'O']
  | binary => ['b', 'B']

/-- The character of a digit of the base; from ten on a letter in either case. -/
def Writes (radix : Radix) (c : Char) (digit : Nat) : Prop :=
  digit < radix.base ∧
    ("0123456789abcdef".toList[digit]? = some c ∨ "0123456789ABCDEF".toList[digit]? = some c)

theorem base_le (radix : Radix) : radix.base ≤ 16 := by cases radix <;> decide

theorem ofMark?_eq_some_iff {mark : Char} : ofMark? mark = some radix ↔ mark ∈ radix.marks := by
  constructor
  · intro read
    unfold ofMark? at read
    split at read <;> cases read <;> decide
  · cases radix <;> simp only [marks, List.mem_cons, List.not_mem_nil, or_false] <;>
      rintro (rfl | rfl) <;> rfl

theorem digit?_eq_some_iff {c : Char} {digit : Nat} :
    radix.digit? c = some digit ↔ radix.Writes c digit := by
  rw [digit?, Option.filter_eq_some_iff, decide_eq_true_iff, and_comm, Writes]
  refine and_congr_right fun below => ?_
  have below : digit < 16 := below.trans_le radix.base_le
  constructor
  · intro read
    have code := Char.ofNat_toNat c
    simp only [Char.le_def, UInt32.le_iff_toNat_le] at read
    change (if 48 ≤ c.toNat ∧ c.toNat ≤ 57 then _ else if 97 ≤ c.toNat ∧ c.toNat ≤ 102 then _ else
      if 65 ≤ c.toNat ∧ c.toNat ≤ 70 then _ else _) = _ at read
    generalize c.toNat = n at read code
    subst code
    split_ifs at read with decimal lower upper
    · obtain ⟨least, most⟩ := decimal
      cases read
      interval_cases n <;> exact .inl rfl
    · obtain ⟨least, most⟩ := lower
      cases read
      interval_cases n <;> exact .inl rfl
    · obtain ⟨least, most⟩ := upper
      cases read
      interval_cases n <;> exact .inr rfl
  · rintro (lower | upper)
    · interval_cases digit <;> cases lower <;> decide
    · interval_cases digit <;> cases upper <;> decide

theorem mapM_digit?_eq_some_iff {digits : List Nat} :
    text.mapM radix.digit? = some digits ↔ List.Forall₂ radix.Writes text digits := by
  induction text generalizing digits with
  | nil => cases digits <;> simp
  | cons c text ih =>
    simp only [List.mapM_cons, Option.bind_eq_bind, Option.bind_eq_some_iff, Option.pure_def,
      Option.some_inj, digit?_eq_some_iff, ih, List.forall₂_cons_left_iff]
    constructor
    · rintro ⟨digit, writes, digits, rest, rfl⟩
      exact ⟨digit, digits, writes, rest, rfl⟩
    · rintro ⟨digit, digits, writes, rest, rfl⟩
      exact ⟨digit, writes, digits, rest, rfl⟩

end Radix

inductive SpellsSign : List Char → Bool → Prop where
  | none : SpellsSign [] false
  | plus : SpellsSign ['+'] false
  | minus : SpellsSign ['-'] true

/-- Digits with an optional decimal point, some of them before or after it. -/
inductive SpellsDigits : List Char → List Digit → List Digit → Prop where
  | whole {integer : List Digit} (shown : integer ≠ []) :
      SpellsDigits (integer.map Digit.char) integer []
  | pointed {integer : List Digit} (fraction : List Digit) (shown : integer ≠ []) :
      SpellsDigits (integer.map Digit.char ++ '.' :: fraction.map Digit.char) integer fraction
  | fraction {fraction : List Digit} (shown : fraction ≠ []) :
      SpellsDigits ('.' :: fraction.map Digit.char) [] fraction

inductive SpellsExponent : List Char → Int → Prop where
  | none : SpellsExponent [] 0
  | power {mark : Char} {signText : List Char} {negative : Bool} {digits : List Digit}
      (marked : mark = 'e' ∨ mark = 'E') (sign : SpellsSign signText negative)
      (shown : digits ≠ []) :
      SpellsExponent (mark :: (signText ++ digits.map Digit.char)) (signed negative (number digits))

inductive DecimalNumeral.Spells : List Char → DecimalNumeral → Prop where
  | parts {signText text exponentText : List Char} {negative : Bool}
      {integer fraction : List Digit} {exponent : Int} (sign : SpellsSign signText negative)
      (digits : SpellsDigits text integer fraction)
      (power : SpellsExponent exponentText exponent) :
      Spells (signText ++ (text ++ exponentText)) ⟨negative, integer, fraction, exponent⟩

/-- A text without blanks at its ends spells a numeral. -/
inductive Numeral.Spells : List Char → Numeral → Prop where
  | blank : Spells [] .blank
  | whole {radix : Radix} {mark : Char} {text : List Char} {digits : List Nat}
      (marked : mark ∈ radix.marks) (shown : text ≠ [])
      (written : List.Forall₂ radix.Writes text digits) :
      Spells ('0' :: mark :: text) (.whole radix digits)
  | infinity {signText : List Char} {negative : Bool} (sign : SpellsSign signText negative) :
      Spells (signText ++ "Infinity".toList) (.infinity negative)
  | decimal {text : List Char} {n : DecimalNumeral} (spells : DecimalNumeral.Spells text n) :
      Spells text (.decimal n)

section Parts

variable {text rest : List Char} {negative : Bool} {integer fraction : List Digit} {exponent : Int}

theorem spellsSign_takeSign (text : List Char) :
    ∃ signText, SpellsSign signText (takeSign text).1 ∧ signText ++ (takeSign text).2 = text := by
  unfold takeSign
  split
  · exact ⟨_, .minus, rfl⟩
  · exact ⟨_, .plus, rfl⟩
  · exact ⟨_, .none, rfl⟩

theorem takeSign_append {signText : List Char} (sign : SpellsSign signText negative)
    (unsigned : ∀ c, rest.head? = some c → c ≠ '-' ∧ c ≠ '+') :
    takeSign (signText ++ rest) = (negative, rest) := by
  cases sign with
  | plus => rfl
  | minus => rfl
  | none =>
    rw [List.nil_append]
    unfold takeSign
    split
    · exact absurd rfl (unsigned '-' rfl).1
    · exact absurd rfl (unsigned '+' rfl).2
    · rfl

theorem map_char_takeDigits (text : List Char) :
    (takeDigits text).1.map Digit.char ++ (takeDigits text).2 = text := by
  obtain ⟨digits, run⟩ := exists_map_char fun c => List.mem_takeWhile_imp (p := Char.isDigit)
    (l := text) (x := c)
  rw [takeDigits, ← run, filterMap_ofChar?, run, List.takeWhile_append_dropWhile]

theorem takeDigits_append (digits : List Digit) {rest : List Char}
    (stops : ∀ c, rest.head? = some c → c.isDigit = false) :
    takeDigits (digits.map Digit.char ++ rest) = (digits, rest) := by
  obtain ⟨front, back⟩ := takeWhile_append_eq (fun _ => isDigit_of_mem_run) stops
  rw [takeDigits, front, back, filterMap_ofChar?]

theorem takeDigits_map_char (digits : List Digit) :
    takeDigits (digits.map Digit.char) = (digits, []) := by
  have whole := @takeDigits_append digits [] (by simp)
  rwa [List.append_nil] at whole

theorem exponent?_eq_some_iff : exponent? text = some exponent ↔ SpellsExponent text exponent := by
  constructor
  · intro read
    cases text with
    | nil => cases read; exact .none
    | cons mark text =>
      obtain ⟨signText, sign, unsigned⟩ := spellsSign_takeSign text
      have digits := map_char_takeDigits (takeSign text).2
      rw [exponent?] at read
      split at read
      · next marked =>
        simp only [Option.ite_none_left_eq_some, Option.some_inj, Bool.or_eq_true, not_or,
          List.isEmpty_iff, Bool.not_eq_true', List.isEmpty_eq_false_iff, not_not] at read
        obtain ⟨⟨shown, ended⟩, rfl⟩ := read
        rw [ended, List.append_nil] at digits
        have power := SpellsExponent.power marked sign shown
        rwa [digits, unsigned] at power
      · cases read
  · rintro (_ | @⟨mark, signText, negative, digits, marked, sign, shown⟩)
    · rfl
    · have unsigned : takeSign (signText ++ digits.map Digit.char) =
          (negative, digits.map Digit.char) := by
        refine takeSign_append sign fun c head => ?_
        obtain ⟨d, -, rfl⟩ := List.mem_map.1 (List.mem_of_mem_head? head)
        exact (by decide : ∀ d : Digit, d.char ≠ '-' ∧ d.char ≠ '+') d
      simp [exponent?, marked, unsigned, takeDigits_map_char, shown]

/-- After the digits the text ends, or the mark of an exponent follows. -/
theorem SpellsExponent.head (power : SpellsExponent text exponent) {c : Char}
    (head : text.head? = some c) : c = 'e' ∨ c = 'E' := by
  cases power with
  | none => cases head
  | power marked => cases head; exact marked

theorem takeFraction_append (spells : SpellsDigits text integer fraction)
    (power : SpellsExponent rest exponent) :
    ∃ middle, takeDigits (text ++ rest) = (integer, middle) ∧
      takeFraction middle = (fraction, rest) := by
  have stops (c : Char) (head : rest.head? = some c) : c.isDigit = false := by
    rcases power.head head with rfl | rfl <;> rfl
  cases spells with
  | whole =>
    refine ⟨rest, takeDigits_append integer stops, ?_⟩
    unfold takeFraction
    split
    · exact absurd (power.head rfl) (by decide)
    · rfl
  | pointed =>
    refine ⟨'.' :: (fraction.map Digit.char ++ rest), ?_, takeDigits_append fraction stops⟩
    rw [List.append_assoc, List.cons_append]
    exact takeDigits_append integer (by simp)
  | fraction =>
    exact ⟨'.' :: (fraction.map Digit.char ++ rest), takeDigits_append [] (by simp),
      takeDigits_append fraction stops⟩

theorem spellsDigits_takeDigits
    (shown : (takeDigits text).1 ≠ [] ∨ (takeFraction (takeDigits text).2).1 ≠ []) :
    ∃ front, SpellsDigits front (takeDigits text).1 (takeFraction (takeDigits text).2).1 ∧
      front ++ (takeFraction (takeDigits text).2).2 = text := by
  have first := map_char_takeDigits text
  generalize (takeDigits text).1 = integer at shown first ⊢
  generalize (takeDigits text).2 = middle at shown first ⊢
  unfold takeFraction at shown ⊢
  split at shown
  · next rest =>
    have second := map_char_takeDigits rest
    rw [← second] at first
    by_cases bare : integer = []
    · subst bare
      exact ⟨_, .fraction (shown.resolve_left (by simp)), first⟩
    · exact ⟨_, .pointed _ bare, by simpa using first⟩
  · exact ⟨_, .whole (shown.resolve_right (by simp)), first⟩

end Parts

namespace SpellsDigits

variable {text rest : List Char} {integer fraction : List Digit}

theorem shown (spells : SpellsDigits text integer fraction) : integer ≠ [] ∨ fraction ≠ [] := by
  cases spells with
  | whole shown => exact .inl shown
  | pointed _ shown => exact .inl shown
  | fraction shown => exact .inr shown

theorem isDigit_or_point (spells : SpellsDigits text integer fraction) {c : Char}
    (member : c ∈ text) : c.isDigit = true ∨ c = '.' := by
  cases spells with
  | whole => exact .inl (isDigit_of_mem_run member)
  | pointed =>
    rcases List.mem_append.1 member with integer | after
    · exact .inl (isDigit_of_mem_run integer)
    · exact (List.mem_cons.1 after).symm.imp_left isDigit_of_mem_run
  | fraction => exact (List.mem_cons.1 member).symm.imp_left isDigit_of_mem_run

theorem ne_nil (spells : SpellsDigits text integer fraction) : text ≠ [] := by
  cases spells with
  | whole shown => simpa using shown
  | pointed => simp
  | fraction => simp

/-- No sign can be taken for a part of the digits. -/
theorem unsigned (spells : SpellsDigits text integer fraction) {c : Char}
    (head : (text ++ rest).head? = some c) : c ≠ '-' ∧ c ≠ '+' := by
  rw [List.head?_append_of_ne_nil _ spells.ne_nil] at head
  rcases spells.isDigit_or_point (List.mem_of_mem_head? head) with digit | rfl
  · constructor <;> rintro rfl <;> cases digit
  · decide

end SpellsDigits

theorem DecimalNumeral.read?_eq_some_iff {text : List Char} {n : DecimalNumeral} :
    read? text = some n ↔ Spells text n := by
  constructor
  · intro read
    obtain ⟨signText, sign, unsigned⟩ := spellsSign_takeSign text
    simp only [read?, Option.ite_none_left_eq_some, Bool.and_eq_true, List.isEmpty_iff,
      Option.map_eq_some_iff, exponent?_eq_some_iff] at read
    obtain ⟨shown, exponent, power, rfl⟩ := read
    obtain ⟨front, digits, same⟩ := spellsDigits_takeDigits (not_and_or.1 shown)
    have spells := Spells.parts sign digits power
    rwa [same, unsigned] at spells
  · rintro ⟨sign, digits, power⟩
    obtain ⟨middle, first, second⟩ := takeFraction_append digits power
    have shown := digits.shown
    rw [ne_eq, ne_eq, ← not_and_or] at shown
    simp [read?, takeSign_append sign fun _ => digits.unsigned, first, second, shown,
      exponent?_eq_some_iff.2 power]

theorem SpellsSign.mem {text : List Char} {negative : Bool} (sign : SpellsSign text negative)
    {c : Char} (member : c ∈ text) : c ∈ ".eE+-".toList := by
  cases sign with
  | none => cases member
  | plus => rw [List.mem_singleton.1 member]; decide
  | minus => rw [List.mem_singleton.1 member]; decide

/-- No mark of a base is among the characters of a decimal numeral, and no capital but one. -/
theorem DecimalNumeral.Spells.mem {text : List Char} {n : DecimalNumeral} (spells : Spells text n)
    {c : Char} (member : c ∈ text) : c.isDigit = true ∨ c ∈ ".eE+-".toList := by
  obtain ⟨sign, digits, power⟩ := spells
  rcases List.mem_append.1 member with front | member
  · exact .inr (sign.mem front)
  rcases List.mem_append.1 member with middle | back
  · exact (digits.isDigit_or_point middle).imp_right (by rintro rfl; decide)
  cases power with
  | none => cases back
  | power marked sign =>
    rcases List.mem_cons.1 back with rfl | back
    · exact .inr (by rcases marked with rfl | rfl <;> decide)
    rcases List.mem_append.1 back with front | run
    · exact .inr (sign.mem front)
    · exact .inl (isDigit_of_mem_run run)

namespace Numeral

variable {text : List Char} {n : Numeral}

theorem spells_of_readWhole? (read : readWhole? text = some n) : Spells text n := by
  unfold readWhole? at read
  split at read
  · next mark digits =>
    simp only [Option.bind_eq_bind, Option.bind_eq_some_iff, Option.ite_none_left_eq_some,
      List.isEmpty_iff, Option.pure_def, Option.some_inj, Radix.ofMark?_eq_some_iff,
      Radix.mapM_digit?_eq_some_iff] at read
    obtain ⟨radix, marked, shown, values, written, rfl⟩ := read
    exact .whole marked shown written
  · cases read

theorem spells_of_readInfinity? (read : readInfinity? text = some n) : Spells text n := by
  obtain ⟨signText, sign, unsigned⟩ := spellsSign_takeSign text
  obtain ⟨(word : (takeSign text).2 = _), same⟩ := Option.ite_none_right_eq_some.1 read
  cases same
  have infinity := Spells.infinity sign
  rwa [← word, unsigned] at infinity

theorem readWhole?_eq_none {d : DecimalNumeral} (spells : d.Spells text) :
    readWhole? text = none := by
  unfold readWhole?
  split
  · next mark digits =>
    have unmarked : Radix.ofMark? mark = none := by
      rcases spells.mem (c := mark) (by simp) with digit | other
      · obtain ⟨d, rfl⟩ := (isDigit_iff mark).1 digit
        exact (by decide : ∀ d : Digit, Radix.ofMark? d.char = none) d
      · have others : (".eE+-".toList.all fun c => (Radix.ofMark? c).isNone) = true := by decide
        exact Option.isNone_iff_eq_none.1 (List.all_eq_true.1 others mark other)
    rw [unmarked]
    rfl
  · rfl

theorem readInfinity?_eq_none {d : DecimalNumeral} (spells : d.Spells text) :
    readInfinity? text = none := by
  obtain ⟨signText, -, unsigned⟩ := spellsSign_takeSign text
  refine if_neg fun (word : (takeSign text).2 = _) => ?_
  have member : 'I' ∈ text := by
    rw [← unsigned, word]
    exact List.mem_append_right _ (by decide)
  exact absurd (spells.mem member) (by decide)

/-- The reader finds the numeral that a text spells, whatever kinds it tries before. -/
theorem read?_eq_some_iff : read? text = some n ↔ Spells text n := by
  constructor
  · intro read
    rw [read?] at read
    split at read
    · next blank =>
      cases read
      rw [List.isEmpty_iff.1 blank]
      exact .blank
    · simp only [Option.or_eq_some_iff, Option.map_eq_some_iff,
        DecimalNumeral.read?_eq_some_iff] at read
      rcases read with whole | ⟨-, infinity | ⟨-, d, spells, rfl⟩⟩
      · exact spells_of_readWhole? whole
      · exact spells_of_readInfinity? infinity
      · exact .decimal spells
  · rintro (_ | ⟨marked, shown, written⟩ | sign | spells)
    · rfl
    · simp [read?, readWhole?, Radix.ofMark?_eq_some_iff.2 marked, shown,
        Radix.mapM_digit?_eq_some_iff.2 written]
    · cases sign <;> rfl
    · have read := DecimalNumeral.read?_eq_some_iff.2 spells
      cases text with
      | nil => cases read
      | cons c text =>
        rw [read?, readWhole?_eq_none spells, readInfinity?_eq_none spells, read]
        rfl

theorem Spells.unique {m : Numeral} (first : Spells text m) (second : Spells text n) : m = n :=
  Option.some_inj.1 ((read?_eq_some_iff.2 first).symm.trans (read?_eq_some_iff.2 second))

end Numeral

end DigitMask
