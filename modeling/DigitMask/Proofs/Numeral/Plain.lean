import DigitMask.Proofs.Numeral.Grammar
import DigitMask.Reading

/-! Numerals of a sign, digits and a decimal point. A text without other characters spells no other
numeral: no mark of a radix, no blank and no letter can occur in it. -/
namespace DigitMask

theorem isNumeric_iff (c : Char) : isNumeric c = true ↔ c.isDigit = true ∨ c = '.' ∨ c = '-' := by
  simp [isNumeric, or_assoc]

theorem toNat_of_isNumeric {c : Char} (numeric : isNumeric c = true) :
    45 ≤ c.toNat ∧ c.toNat < 58 := by
  rcases (isNumeric_iff c).1 numeric with digit | rfl | rfl
  · simp only [Char.isDigit, Bool.and_eq_true, decide_eq_true_eq, UInt32.le_iff_toNat_le] at digit
    exact ⟨le_trans (by decide) digit.1, Nat.lt_succ_of_le digit.2⟩
  · decide
  · decide

theorem trim_eq_self {text : List Char} (numeric : ∀ c ∈ text, isNumeric c = true) :
    trim text = text := by
  have solid (c : Char) (member : c ∈ text) : isBlank c = false := by
    obtain ⟨low, high⟩ := toNat_of_isNumeric (numeric c member)
    simp only [isBlank, blankRuns, inRuns, List.any_cons, List.any_nil]
    simp only [Bool.or_false, Bool.or_eq_false_iff, Bool.and_eq_false_iff, decide_eq_false_iff_not]
    omega
  exact (trims_iff.1 ⟨⟨[], [], by simp, by simp, by simp⟩,
    fun c head => solid c (List.mem_of_mem_head? head),
    fun c last => solid c (List.mem_of_getLast? last)⟩).symm

/-- An optional minus sign before digits with an optional decimal point. -/
inductive SpellsPlain : List Char → Bool → List Digit → List Digit → Prop where
  | positive {text : List Char} {integer fraction : List Digit}
      (digits : SpellsDigits text integer fraction) :
      SpellsPlain text false integer fraction
  | negative {text : List Char} {integer fraction : List Digit}
      (digits : SpellsDigits text integer fraction) :
      SpellsPlain ('-' :: text) true integer fraction

theorem SpellsPlain.spells {text : List Char} {negative : Bool} {integer fraction : List Digit}
    (plain : SpellsPlain text negative integer fraction) :
    Numeral.Spells text (.decimal ⟨negative, integer, fraction, 0⟩) := by
  cases plain with
  | positive digits => simpa using Numeral.Spells.decimal (.parts .none digits .none)
  | negative digits => simpa using Numeral.Spells.decimal (.parts .minus digits .none)

theorem SpellsPlain.ofChars_eq {text : List Char} {negative : Bool} {integer fraction : List Digit}
    (numeric : ∀ c ∈ text, isNumeric c = true)
    (plain : SpellsPlain text negative integer fraction) : Binary64.ofChars text =
      Decimal.toBinary64 negative ⟨number (integer ++ fraction), -fraction.length⟩ := by
  rw [Binary64.ofChars, trim_eq_self numeric, Numeral.read?_eq_some_iff.2 plain.spells,
    Option.map_some, Option.getD_some, Numeral.value, DecimalNumeral.decimal, zero_sub]

/-- The marks of bases and exponents, the plus sign and the word for infinity are left aside. -/
theorem Numeral.spells_iff_of_isNumeric {text : List Char} {n : Numeral}
    (numeric : ∀ c ∈ text, isNumeric c = true) :
    Spells text n ↔ text = [] ∧ n = .blank ∨ ∃ negative integer fraction,
      SpellsPlain text negative integer fraction ∧
        n = .decimal ⟨negative, integer, fraction, 0⟩ := by
  constructor
  · intro spells
    cases spells with
    | blank => exact .inl ⟨rfl, rfl⟩
    | @whole radix mark _ _ marked =>
      have letters : (radix.marks.all fun c => !isNumeric c) = true := by cases radix <;> decide
      have letter := List.all_eq_true.1 letters mark marked
      rw [numeric mark (by simp)] at letter
      cases letter
    | infinity => exact absurd (numeric 'I' (by simp)) (by decide)
    | decimal spells =>
      obtain ⟨sign, digits, power⟩ := spells
      cases power with
      | power marked =>
        have inside := numeric _ (List.mem_append_right _ (List.mem_append_right _
          List.mem_cons_self))
        rcases marked with rfl | rfl <;> cases inside
      | none =>
        rw [List.append_nil]
        cases sign with
        | none => exact .inr ⟨_, _, _, .positive digits, rfl⟩
        | plus => exact absurd (numeric '+' (by simp)) (by decide)
        | minus => exact .inr ⟨_, _, _, .negative digits, rfl⟩
  · rintro (⟨rfl, rfl⟩ | ⟨negative, integer, fraction, plain, rfl⟩)
    · exact .blank
    · exact plain.spells

/-- The text of a sign and of digits around an optional decimal point. -/
def plainNumeral (negative : Bool) (integer : List Digit) (point : Bool) (fraction : List Digit) :
    List Char :=
  (if negative then ['-'] else []) ++
    (integer.map Digit.char ++ ((if point then ['.'] else []) ++ fraction.map Digit.char))

section Plain

variable {negative point : Bool} {integer fraction : List Digit}

theorem mem_unsigned {c : Char} (member : c ∈ plainNumeral false integer point fraction) :
    c.isDigit = true ∨ c = '.' := by
  simp only [plainNumeral, List.mem_append] at member
  rcases member with sign | integer | decimal | fraction
  · cases sign
  · exact .inl (isDigit_of_mem_run integer)
  · cases point with
    | false => cases decimal
    | true => exact .inr (List.mem_singleton.1 decimal)
  · exact .inl (isDigit_of_mem_run fraction)

theorem isNumeric_plainNumeral (c : Char)
    (member : c ∈ plainNumeral negative integer point fraction) : isNumeric c = true := by
  rw [isNumeric_iff, ← or_assoc]
  rcases List.mem_append.1 member with sign | unsigned
  · cases negative with
    | false => cases sign
    | true => exact .inr (List.mem_singleton.1 sign)
  · exact .inl (mem_unsigned unsigned)

theorem spellsPlain_plainNumeral (pointed : fraction ≠ [] → point = true)
    (shown : integer ≠ [] ∨ fraction ≠ []) :
    SpellsPlain (plainNumeral negative integer point fraction) negative integer fraction := by
  have digits : SpellsDigits (plainNumeral false integer point fraction) integer fraction := by
    cases point with
    | false =>
      have bare : fraction = [] := by
        by_contra some
        cases pointed some
      subst bare
      simpa [plainNumeral] using SpellsDigits.whole (shown.resolve_right (by simp))
    | true =>
      by_cases bare : integer = []
      · subst bare
        exact .fraction (shown.resolve_left (by simp))
      · exact .pointed fraction bare
  cases negative with
  | false => exact .positive digits
  | true => exact .negative digits

theorem read?_plainNumeral (pointed : fraction ≠ [] → point = true)
    (shown : integer ≠ [] ∨ fraction ≠ []) :
    Numeral.read? (plainNumeral negative integer point fraction) =
      some (.decimal ⟨negative, integer, fraction, 0⟩) :=
  Numeral.read?_eq_some_iff.2 (spellsPlain_plainNumeral pointed shown).spells

theorem ofChars_plainNumeral (pointed : fraction ≠ [] → point = true)
    (shown : integer ≠ [] ∨ fraction ≠ []) :
    Binary64.ofChars (plainNumeral negative integer point fraction) =
      Decimal.toBinary64 negative ⟨number (integer ++ fraction), -fraction.length⟩ :=
  (spellsPlain_plainNumeral pointed shown).ofChars_eq isNumeric_plainNumeral

end Plain

end DigitMask
