import DigitMask.Proofs.Grouping
import DigitMask.Proofs.Order

/-! Numbers that are to be truncated, under patterns without a fraction mask. They are rounded all
the same, and their text is the one of the truncated number, which the same pattern with an empty
mask shows, exactly where rounding does not lead away from zero. -/
namespace DigitMask

section

variable (q : ℚ)

/-- The numbers that rounding to a whole number does not lead away from zero. A half goes up. -/
def RoundsToZero : Prop := Int.fract |q| < 1 / 2 ∨ q < 0 ∧ Int.fract |q| = 1 / 2

theorem abs_floor_add_half_bounds : ⌊|q|⌋ ≤ |⌊q + 1 / 2⌋| ∧ |⌊q + 1 / 2⌋| ≤ ⌊|q|⌋ + 1 := by
  constructor
  · have low := Int.floor_le |q|
    apply le_abs_floor_add_half_iff.2
    rcases le_abs.1 (le_refl |q|) with above | below
    · left
      linarith
    · right
      linarith
  · by_contra more
    obtain ⟨below, above⟩ := abs_lt.1 (Int.lt_floor_add_one |q|)
    have more : ⌊|q|⌋ + 2 ≤ |⌊q + 1 / 2⌋| := by omega
    rcases le_abs_floor_add_half_iff.1 more with high | low
    · push_cast at high
      linarith
    · push_cast at low
      linarith

theorem lt_abs_floor_add_half_iff : ⌊|q|⌋ < |⌊q + 1 / 2⌋| ↔ ¬ RoundsToZero q := by
  have whole : (0 : ℚ) ≤ ⌊|q|⌋ := by exact_mod_cast Int.floor_nonneg.2 (abs_nonneg q)
  rw [Int.lt_iff_add_one_le, le_abs_floor_add_half_iff, RoundsToZero, Int.fract, Int.cast_add,
    Int.cast_one, not_or, not_and, not_lt]
  rcases le_or_gt 0 q with nonneg | negative
  · rw [abs_of_nonneg nonneg] at whole ⊢
    constructor
    · rintro (above | below)
      · exact ⟨by linarith, fun less => absurd less (not_lt.2 nonneg)⟩
      · linarith
    · rintro ⟨above, -⟩
      left
      linarith
  · rw [abs_of_neg negative] at whole ⊢
    constructor
    · rintro (above | below)
      · linarith
      · exact ⟨by linarith, fun _ => by linarith⟩
    · rintro ⟨below, other⟩
      right
      have strict := lt_of_le_of_ne below (Ne.symm (other negative))
      linarith

end

theorem Magnitude.truncated_zero (m : Magnitude) : m.truncated 0 = ⌊m.value⌋ := by
  have own := m.isBinary_value
  have nonneg := m.value_nonneg
  have low := Int.floor_le m.value
  have floor : (⌊m.value⌋₊ : ℚ) = ⌊m.value⌋ := natCast_floor_eq_intCast_floor nonneg
  by_cases whole : (⌊m.value⌋ : ℚ) = m.value
  · have reads : binary (⌊m.value⌋₊ / 10 ^ 0) = m.value := by
      rw [pow_zero, div_one, floor, whole, own.binary_eq]
    rw [truncated, Decimal.cut_eq_self (le_exponent_shortest reads), binary_value_shortest, whole]
  · -- The whole numbers around it are numbers themselves, and no shortest decimal passes them.
    have following : IsBinary ((⌊m.value⌋ + 1 : ℤ) : ℚ) :=
      isBinary_intCast (own.floor_eq_or.resolve_left whole).1
    have above : m.shortest.value < (⌊m.value⌋ + 1 : ℤ) := by
      apply lt_of_binary_lt following
      rw [binary_value_shortest]
      exact_mod_cast Int.lt_floor_add_one m.value
    have below : (⌊m.value⌋ : ℚ) ≤ m.shortest.value := by
      by_contra less
      have back := binary_le own.floor (not_le.1 less).le
      rw [binary_value_shortest] at back
      exact whole (le_antisymm low back)
    have same : ⌊m.shortest.value⌋₊ = ⌊m.value⌋₊ := by
      rw [Nat.floor_eq_iff (below.trans' (by exact_mod_cast Int.floor_nonneg.2 nonneg)), floor]
      exact ⟨below, by exact_mod_cast above⟩
    rw [truncated, Decimal.value_cut_eq, pow_zero, mul_one, div_one, same, floor,
      own.floor.binary_eq]

theorem units_intCast (k : ℤ) : units 0 (k : ℚ) = k.natAbs := by
  rw [units, pow_zero, mul_one, ← Int.cast_abs, Int.abs_eq_natAbs, Int.cast_natCast]
  exact halfEven_natCast k.natAbs

namespace Binary64

variable {x : Binary64} (xFinite : x.isFinite = true)
include xFinite

theorem value_roundTo_zero : (x.roundTo 0).value = ⌊x.value + 1 / 2⌋ := by
  obtain ⟨-, keeps, rounds⟩ := roundTo_spec xFinite 0
  have power : power 0 = 1 := by rw [power_eq (by decide), pow_zero]
  by_cases kept : Kept 0 x.value
  · have large := kept.le_mul
    rw [pow_zero, mul_one] at large
    obtain ⟨k, whole⟩ := x.isBinary_value.whole_of_le large
    have floor : ⌊(k + 1 / 2 : ℚ)⌋ = k := Int.floor_eq_iff.2 ⟨by linarith, by linarith⟩
    rw [keeps kept, whole, floor]
  · have few := abs_wholePlaces_le kept
    rw [rounds kept, power, div_one, (isBinary_intCast few).binary_eq, wholePlaces, power, mul_one,
      x.isBinary_value.binary_eq]

theorem abs_value_truncateTo_zero : |(x.truncateTo 0).value| = ⌊|x.value|⌋ := by
  obtain ⟨negative, m, rfl⟩ := exists_of_isFinite xFinite
  rw [abs_value_truncateTo, abs_value_finite]
  exact m.truncated_zero

/-- Where rounding does not lead away from zero, the same number is left. -/
theorem roundTo_zero_eq_truncateTo (toZero : RoundsToZero x.value) :
    x.roundTo 0 = x.truncateTo 0 := by
  have least := (abs_floor_add_half_bounds x.value).1
  have most := (lt_abs_floor_add_half_iff x.value).not.2 (not_not.2 toZero)
  have magnitude : |(x.roundTo 0).value| = |(x.truncateTo 0).value| := by
    rw [value_roundTo_zero xFinite, abs_value_truncateTo_zero xFinite, ← Int.cast_abs]
    exact_mod_cast le_antisymm (not_lt.1 most) least
  have value : (x.roundTo 0).value = (x.truncateTo 0).value := by
    obtain ⟨above, below⟩ := roundTo_sign xFinite 0
    obtain ⟨cutAbove, cutBelow⟩ := truncateTo_sign xFinite 0
    rcases le_total 0 x.value with nonneg | nonpos
    · rwa [abs_of_nonneg (above nonneg), abs_of_nonneg (cutAbove nonneg)] at magnitude
    · rwa [abs_of_nonpos (below nonpos), abs_of_nonpos (cutBelow nonpos), neg_inj] at magnitude
  rw [← unsignZero_roundTo, ← unsignZero_truncateTo]
  exact unsignZero_congr (roundTo_spec xFinite 0).1 (isFinite_truncateTo xFinite 0) value

theorem units_truncateTo_zero : units 0 (x.truncateTo 0).value = ⌊|x.value|⌋.natAbs := by
  rw [← units_abs, abs_value_truncateTo_zero xFinite, units_intCast]

theorem units_roundTo_zero (away : ¬ RoundsToZero x.value) :
    units 0 (x.roundTo 0).value = ⌊|x.value|⌋.natAbs + 1 := by
  have nonneg : 0 ≤ ⌊|x.value|⌋ := Int.floor_nonneg.2 (abs_nonneg _)
  have most := (abs_floor_add_half_bounds x.value).2
  have grows := (lt_abs_floor_add_half_iff x.value).2 away
  rw [Int.abs_eq_natAbs] at most grows
  rw [value_roundTo_zero xFinite, units_intCast]
  omega

end Binary64

namespace Display

section

variable {α : Type} (glyphs : Glyphs α) (pattern : Pattern) (options : Options) (figure : Figure)

theorem getLast?_integer (shown : leavesOut pattern figure = false) {d : Digit}
    (last : figure.integer.getLast? = some d) :
    (integer glyphs pattern figure).getLast? = some (glyphs.digit d) := by
  simp [integer, shown, padded, List.getLast?_append, getLast?_grouped, last]

theorem length_front : (front glyphs pattern figure).length =
    (glyphs.text pattern.leading).length + if figure.negative then 1 else 0 := by
  unfold front
  split
  · split <;> simp
  · rfl

/-- What stands behind the digits where there is no fraction. -/
def behind : List α :=
  let label := glyphs.text figure.label
  let point := if options.pointAlways then [glyphs.decimal] else []
  (if options.labelAsPoint && !label.isEmpty then label else point ++ label) ++
    glyphs.text pattern.trailing

theorem layout_eq_of_whole (whole : fraction glyphs pattern figure = []) :
    layout glyphs pattern options figure = front glyphs pattern figure ++
      integer glyphs pattern figure ++ behind glyphs pattern options figure := by
  rw [layout_eq]
  simp only [body, behind, whole]
  split <;> simp

end

theorem getLast?_digits (n : ℕ) : (digits n).getLast? = some (lastDigit n) := by
  rw [digits_eq]
  split <;> simp

section

variable {α : Type} {glyphs : Glyphs α} {pattern : Pattern} (unmasked : pattern.fraction = none)
  {label : String} {forced negative negative' : Bool} {k : ℕ}
include unmasked

theorem integer_ofUnits : (Figure.ofUnits pattern label forced negative k).integer = digits k := by
  rw [Figure.ofUnits, Pattern.places_of_none unmasked, tenPow_zero, Nat.div_one]

theorem eq_zero_of_leavesOut
    (out : leavesOut pattern (.ofUnits pattern label forced negative k) = true) : k = 0 := by
  simp only [leavesOut, integer_ofUnits unmasked, Bool.and_eq_true, beq_iff_eq] at out
  rw [← number_digits k, out.1.1]
  rfl

theorem getLast?_integer_ofUnits (glyphs : Glyphs α)
    (shown : leavesOut pattern (.ofUnits pattern label forced negative k) = false) :
    (integer glyphs pattern (.ofUnits pattern label forced negative k)).getLast? =
      some (glyphs.digit (lastDigit k)) := by
  apply getLast?_integer _ _ _ shown
  rw [integer_ofUnits unmasked, getLast?_digits]

theorem layout_ne (injective : Function.Injective glyphs.digit) (options : Options)
    (signed : negative = true → k ≠ 0) :
    layout glyphs pattern options (.ofUnits pattern label forced negative k) ≠
      layout glyphs pattern options (.ofUnits pattern label forced negative' (k + 1)) := by
  intro same
  have whole (figure : Figure) : fraction glyphs pattern figure = [] := by
    rw [fraction, unmasked]
  rw [layout_eq_of_whole _ _ _ _ (whole _), layout_eq_of_whole _ _ _ _ (whole _)] at same
  have same := List.append_cancel_right same
  have shown' : leavesOut pattern (.ofUnits pattern label forced negative' (k + 1)) = false := by
    by_contra out
    exact absurd (eq_zero_of_leavesOut unmasked (eq_true_of_ne_false out)) (Nat.succ_ne_zero k)
  have last' := getLast?_integer_ofUnits unmasked glyphs shown'
  cases shown : leavesOut pattern (.ofUnits pattern label forced negative k) with
  | true =>
    -- Nothing is written of a zero, no sign either, so that the other text is longer.
    have unsigned : negative = false := by
      by_contra sign
      exact signed (eq_true_of_ne_false sign) (eq_zero_of_leavesOut unmasked shown)
    have out : integer glyphs pattern (.ofUnits pattern label forced negative k) = [] :=
      if_pos shown
    have count := congrArg List.length same
    have some := List.length_pos_of_mem (List.mem_of_getLast? last')
    rw [out, List.append_nil, List.length_append, length_front, length_front,
      Figure.negative_ofUnits, unsigned] at count
    simp only [Bool.false_eq_true, if_false] at count
    omega
  | false =>
    have last := congrArg List.getLast? same
    rw [List.getLast?_append, List.getLast?_append, getLast?_integer_ofUnits unmasked _ shown,
      last', Option.some_or, Option.some_or, Option.some_inj, injective.eq_iff, lastDigit,
      lastDigit, Fin.mk.injEq] at last
    omega

end

/-- The text with the sign and the digits of a number as they are, and with the first label. -/
def ofNumber (pattern : Pattern) (symbols : Symbols) (options : Options) (number : Binary64) :
    String :=
  String.ofList (layout symbols.glyphs pattern options
    (.ofShown pattern (options.labels.head?.getD "") false number))

/-- Without a mask there is no fraction to show, as with an empty one. -/
theorem ofNumber_empty_mask {pattern : Pattern} (unmasked : pattern.fraction = none)
    (symbols : Symbols) (options : Options) (number : Binary64) :
    ofNumber { pattern with fraction := some [] } symbols options number =
      ofNumber pattern symbols options number := by
  have none (figure : Figure) : fraction symbols.glyphs pattern figure = [] := by
    rw [fraction, unmasked]
  have empty (figure : Figure) :
      fraction symbols.glyphs { pattern with fraction := some [] } figure = [] := by
    simp [fraction, fractionDigits, writtenPlaces]
  simp only [ofNumber, layout, body, none, empty]
  rfl

section

variable {pattern : Pattern} {options : Options} {x : Binary64} (xFinite : x.isFinite = true)
include xFinite

theorem display_eq_ofNumber (scale : options.scale = false) (scaled : pattern.scaled = false)
    (symbols : Symbols) : display pattern symbols options x =
      some (ofNumber pattern symbols options (Figure.limited pattern options x)) := by
  obtain ⟨negative, m, rfl⟩ := Binary64.exists_of_isFinite xFinite
  rw [display, Figure.of_finite, Figure.shown, Figure.scaled_of_unscaled scale scaled]
  rfl

/-- The rounded number has the text of the truncated one only if it is the same number. -/
theorem ofNumber_roundTo_iff (unmasked : pattern.fraction = none) (symbols : Symbols)
    (options : Options) :
    ofNumber pattern symbols options (x.roundTo 0) =
        ofNumber pattern symbols options (x.truncateTo 0) ↔ RoundsToZero x.value := by
  constructor
  · intro same
    by_contra away
    have places := Pattern.places_of_none unmasked
    have cut := Binary64.truncateTo_settled xFinite 0
    have rounded := Binary64.roundTo_settled xFinite 0
    have visible := cut.units_eq_zero_iff
    rw [Binary64.units_truncateTo_zero xFinite] at visible
    rw [ofNumber, ofNumber, String.ofList_inj,
      Figure.ofShown_eq (Binary64.isFinite_truncateTo xFinite 0) (places ▸ cut),
      Figure.ofShown_eq (Binary64.roundTo_spec xFinite 0).1 (places ▸ rounded), places,
      Binary64.units_truncateTo_zero xFinite, Binary64.units_roundTo_zero xFinite away] at same
    refine layout_ne unmasked (injective_digit symbols) options (fun negative zero => ?_) same.symm
    exact (of_decide_eq_true negative).ne (visible.1 zero)
  · intro toZero
    rw [Binary64.roundTo_zero_eq_truncateTo xFinite toZero]

/-- With a fraction mask the truncated number is displayed. Without one the rounded number is, and
its text is the one of the truncated number, or of the same pattern with an empty mask, exactly if
rounding does not lead away from zero. -/
theorem display_truncated_iff (truncates : options.round = false) (scale : options.scale = false)
    (scaled : pattern.scaled = false) (symbols : Symbols) :
    (display pattern symbols options x =
        some (ofNumber pattern symbols options (x.truncateTo pattern.places)) ↔
      (pattern.fraction = none → RoundsToZero x.value)) ∧
    (pattern.fraction = none →
      display pattern symbols options x =
          some (ofNumber pattern symbols options (x.roundTo 0)) ∧
        (display pattern symbols options x =
            display { pattern with fraction := some [] } symbols options x ↔
          RoundsToZero x.value)) := by
  have text := display_eq_ofNumber xFinite scale scaled symbols
  cases masked : pattern.fraction with
  | some mask =>
    have places := Pattern.places_of_some masked
    have limited : Figure.limited pattern options x = x.truncateTo pattern.places := by
      simp [Figure.limited, masked, truncates, places]
    rw [text, limited]
    simp
  | none =>
    have places := Pattern.places_of_none masked
    have rounded : Figure.limited pattern options x = x.roundTo 0 := by
      simp [Figure.limited, masked]
    have cut : Figure.limited { pattern with fraction := some [] } options x = x.truncateTo 0 := by
      simp [Figure.limited, truncates]
    have empty := @display_eq_ofNumber { pattern with fraction := some [] } options x xFinite
      scale scaled symbols
    rw [cut, ofNumber_empty_mask masked] at empty
    rw [text, empty, rounded, places, Option.some_inj, ofNumber_roundTo_iff xFinite masked]
    simp

end

def wholes : Pattern := { integer := [.digit] }

theorem display_truncated_hundredths :
    display wholes {} { round := false } (.ofNat 999 / .ofNat 100) = some "10" ∧
      display { wholes with fraction := some [] } {} { round := false }
        (.ofNat 999 / .ofNat 100) = some "9" ∧
      ¬ RoundsToZero (Binary64.ofNat 999 / Binary64.ofNat 100).value := by
  have rounded : display wholes {} { round := false } (.ofNat 999 / .ofNat 100) = some "10" := by
    decide +kernel
  have cut : display { wholes with fraction := some [] } {} { round := false }
      (.ofNat 999 / .ofNat 100) = some "9" := by decide +kernel
  have finite : (Binary64.ofNat 999 / Binary64.ofNat 100).isFinite = true := by decide +kernel
  obtain ⟨-, unmasked⟩ := @display_truncated_iff wholes { round := false } _ finite rfl rfl rfl {}
  obtain ⟨-, same⟩ := unmasked rfl
  refine ⟨rounded, cut, fun toZero => ?_⟩
  have equal := same.2 toZero
  rw [rounded, cut] at equal
  exact absurd equal (by decide)

end Display

end DigitMask
