import DigitMask.Proofs.Order

/-! Truncated numbers with the opposite sign. A scale is chosen by the magnitude alone, and what is
cut off depends on nothing else. So the text of the negative number is the text of the positive one
with one sign put into it, or the same text where nothing but zeros is left. -/
namespace DigitMask

variable {pattern : Pattern} {options : Options} {x : Binary64}

namespace Binary64

theorem ofQuanta_not (negative : Bool) (num den : ℕ) :
    ofQuanta (!negative) num den = (ofQuanta negative num den).neg := by
  unfold ofQuanta
  cases Magnitude.nearest num den <;> rfl

theorem neg_div (x y : Binary64) : x.neg / y = (x / y).neg := by
  cases x with
  | nan => rfl
  | infinity a =>
    cases y with
    | nan => rfl
    | infinity b => rfl
    | finite b n => exact congrArg infinity (Bool.not_bne a b)
  | finite a m =>
    cases y with
    | nan => rfl
    | infinity b => exact congrArg (finite · .zero) (Bool.not_bne a b)
    | finite b n =>
      by_cases zero : n.quanta = 0
      · have beyond (sign : Bool) : finite sign m / finite b n =
            if m.quanta = 0 then nan else infinity (sign != b) := if_pos zero
        rw [neg, beyond, beyond, Bool.not_bne]
        split <;> rfl
      · have quotient (sign : Bool) : finite sign m / finite b n =
            ofQuanta (sign != b) (m.quanta * unit) n.quanta := if_neg zero
        rw [neg, quotient, quotient, Bool.not_bne, ofQuanta_not]

theorem value_truncateTo_neg (xFinite : x.isFinite = true) (places : ℕ) :
    (x.neg.truncateTo places).value = -(x.truncateTo places).value := by
  obtain ⟨negative, m, rfl⟩ := exists_of_isFinite xFinite
  rw [neg, value_truncateTo, value_truncateTo]
  cases negative <;> simp

end Binary64

namespace Figure

theorem scaled_neg (pattern : Pattern) (options : Options) (x : Binary64) :
    scaled pattern options x.neg =
      ((scaled pattern options x).1, (scaled pattern options x).2.neg) := by
  unfold scaled
  split
  · simp only [Scale.of_neg, Binary64.neg_div]
  · rfl

section

variable {mask : List Token} (masked : pattern.fraction = some mask)
  (truncates : options.round = false)
include masked truncates

theorem shown_of_truncated (x : Binary64) :
    shown pattern options x = (scaled pattern options x).2.truncateTo mask.length := by
  simp [shown, limited, masked, truncates]

/-- The figure with the opposite sign has the same digits, and the sign unless it shows zero. -/
theorem of_neg (xFinite : x.isFinite = true) (nonneg : 0 ≤ x.value) :
    ∃ figure : Figure, of pattern options x = some { figure with negative := false } ∧
      of pattern options x.neg =
        some { figure with negative := !(shown pattern options x).isZero } := by
  obtain ⟨scaledFinite, above, -⟩ := scaled_spec xFinite pattern options
  have least : 0 ≤ (shown pattern options x).value :=
    (limited_sign pattern options scaledFinite).1 (above nonneg)
  have mirrored : (shown pattern options x.neg).value = -(shown pattern options x).value := by
    rw [shown_of_truncated masked truncates, shown_of_truncated masked truncates, scaled_neg,
      Binary64.value_truncateTo_neg scaledFinite]
  have sign : decide (-(shown pattern options x).value < 0) =
      !(shown pattern options x).isZero := by
    rw [Bool.eq_iff_iff, decide_eq_true_iff, Bool.not_eq_true', ← Bool.not_eq_true,
      Binary64.isZero_iff (shown_spec xFinite pattern options).1, neg_lt_zero]
    exact least.lt_iff_ne'
  refine ⟨.ofUnits pattern (scaled pattern options x).1 false false
    (units pattern.places (shown pattern options x).value), ?_, ?_⟩
  · rw [of_eq_some xFinite, decide_eq_false (not_lt.2 least)]
    rfl
  · rw [of_eq_some (by rwa [Binary64.isFinite_neg]), mirrored, sign, scaled_neg, units, abs_neg]
    rfl

end

end Figure

namespace Display

theorem text_glyphs (symbols : Symbols) (text : String) :
    symbols.glyphs.text text = text.toList :=
  List.map_id _

/-- A text behind its leading text, with or without the sign. -/
theorem ofList_layout (symbols : Symbols) (pattern : Pattern) (options : Options)
    (figure : Figure) : String.ofList (layout symbols.glyphs pattern options figure) =
      (if figure.negative then
        if pattern.signFirst = true ∧ pattern.leading ≠ "" then
          String.singleton symbols.negative ++ pattern.leading
        else pattern.leading ++ String.singleton symbols.negative
      else pattern.leading) ++
        String.ofList (body symbols.glyphs pattern options figure ++ pattern.trailing.toList) := by
  have before : (pattern.signFirst && !pattern.leading.toList.isEmpty) = true ↔
      pattern.signFirst = true ∧ pattern.leading ≠ "" := by simp
  have sign : symbols.glyphs.negative = symbols.negative := rfl
  rw [layout_eq, List.append_assoc, String.ofList_append, text_glyphs]
  congr 1
  simp only [front, text_glyphs, before, sign]
  split
  · split <;> simp [String.ofList_append, String.ofList_cons]
  · simp

/-- Where numbers are truncated, the text of the negative number is the text of the positive one
with the sign before it, or behind the leading text; and it is the same text if nothing but zero is
left. -/
theorem display_neg {mask : List Token} (masked : pattern.fraction = some mask)
    (truncates : options.round = false) (xFinite : x.isFinite = true)
    (nonneg : Binary64.zero.le x = true) (symbols : Symbols) :
    ∃ rest : String, display pattern symbols options x = some (pattern.leading ++ rest) ∧
      display pattern symbols options x.neg = some (
        (if ((Figure.scaled pattern options x).2.truncateTo mask.length).isZero then
          pattern.leading
        else if pattern.signFirst = true ∧ pattern.leading ≠ "" then
          String.singleton symbols.negative ++ pattern.leading
        else pattern.leading ++ String.singleton symbols.negative) ++ rest) := by
  have zeroFinite : Binary64.zero.isFinite = true := rfl
  rw [Binary64.le_iff zeroFinite xFinite, Binary64.value_zero] at nonneg
  obtain ⟨figure, found, mirrored⟩ := Figure.of_neg masked truncates xFinite nonneg
  refine ⟨String.ofList (body symbols.glyphs pattern options figure ++ pattern.trailing.toList),
    ?_, ?_⟩
  · rw [display, found, Option.map_some, ofList_layout]
    rfl
  · rw [display, mirrored, Option.map_some, ofList_layout,
      Figure.shown_of_truncated masked truncates]
    cases ((Figure.scaled pattern options x).2.truncateTo mask.length).isZero <;> rfl

def dollars : Pattern := { amounts with leading := "$", signFirst := true, scaled := true }

theorem display_neg_dollars : ∃ rest : String,
    display dollars {} { round := false } (.ofNat 1234) = some ("$" ++ rest) ∧
      display dollars {} { round := false } (Binary64.ofNat 1234).neg = some ("-$" ++ rest) := by
  have nonneg : Binary64.zero.le (.ofNat 1234) = true := by decide +kernel
  have visible : ((Figure.scaled dollars { round := false } (.ofNat 1234)).2.truncateTo 2).isZero =
      false := by decide +kernel
  obtain ⟨rest, text, mirrored⟩ := @display_neg dollars { round := false } _ _ rfl rfl
    (Binary64.ofNat_spec (n := 1234) (by norm_num)).1 nonneg {}
  refine ⟨rest, text, mirrored.trans ?_⟩
  have front : dollars.signFirst = true ∧ dollars.leading ≠ "" := ⟨rfl, by decide⟩
  exact congrArg (fun signed => some (signed ++ rest))
    ((if_neg (Bool.eq_false_iff.1 visible)).trans (if_pos front))

end Display

end DigitMask
