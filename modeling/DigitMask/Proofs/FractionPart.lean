import DigitMask.Proofs.Display

/-! The digits behind the decimal point as they are written. Place after place is taken up to the
first optional one from which on all digits are zero. What is dropped are zeros at the end, so that
the digits written denote the same number. -/
namespace DigitMask.Display

variable {mask : List Token} {digits : List Digit} {token : Token} {d : Digit} {place : ℕ}

/-- An optional place with zeros only from there on. -/
structure Stops (mask : List Token) (digits : List Digit) (place : ℕ) : Prop where
  optional : mask[place]? = some .optional
  zeros : ∀ d ∈ digits.drop place, d = Digit.zero

theorem stops_cons_zero : Stops (token :: mask) (d :: digits) 0 ↔
    token = .optional ∧ ∀ e ∈ d :: digits, e = Digit.zero := by
  constructor
  · rintro ⟨optional, zeros⟩
    exact ⟨by simpa using optional, zeros⟩
  · rintro ⟨rfl, zeros⟩
    exact ⟨rfl, zeros⟩

theorem stops_cons_succ :
    Stops (token :: mask) (d :: digits) (place + 1) ↔ Stops mask digits place :=
  ⟨fun ⟨optional, zeros⟩ => ⟨optional, zeros⟩, fun ⟨optional, zeros⟩ => ⟨optional, zeros⟩⟩

theorem significant_of_zeros (zeros : ∀ e ∈ digits, e = Digit.zero) : significant digits = 0 := by
  simpa [significant] using zeros

theorem significant_cons (more : ¬ ∀ e ∈ d :: digits, e = Digit.zero) :
    significant (d :: digits) = significant digits + 1 := by
  simp only [significant, List.reverse_cons, List.dropWhile_append]
  split
  · next none =>
    have zeros : ∀ e ∈ digits, e = Digit.zero := by simpa using none
    have other : d ≠ Digit.zero := fun same => more (List.forall_mem_cons.2 ⟨same, zeros⟩)
    simp [other, List.isEmpty_iff.1 none]
  · simp

theorem writtenPlaces_of_stops (stops : Stops (token :: mask) (d :: digits) 0) :
    writtenPlaces (token :: mask) (d :: digits) = [] := by
  obtain ⟨rfl, zeros⟩ := stops_cons_zero.1 stops
  simp [writtenPlaces, significant_of_zeros zeros]

/-- Any other place is written, and what comes behind it as if it stood alone. -/
theorem writtenPlaces_cons (goes : ¬ Stops (token :: mask) (d :: digits) 0) :
    writtenPlaces (token :: mask) (d :: digits) = (token, d) :: writtenPlaces mask digits := by
  by_cases zeros : ∀ e ∈ d :: digits, e = Digit.zero
  · -- Behind the significant digits only the mask can go on.
    have other : token ≠ .optional := fun same => goes (stops_cons_zero.2 ⟨same, zeros⟩)
    have rest := significant_of_zeros (List.forall_mem_cons.1 zeros).2
    simp [writtenPlaces, significant_of_zeros zeros, rest, other]
  · simp [writtenPlaces, significant_cons zeros]

/-- The places are written up to the first one that stops it, or all of them without one. -/
theorem isLeast_length_writtenPlaces (length : digits.length = mask.length) :
    IsLeast {place | place = mask.length ∨ Stops mask digits place}
      (writtenPlaces mask digits).length := by
  induction mask generalizing digits with
  | nil =>
    obtain rfl := List.length_eq_zero_iff.1 length
    exact ⟨.inl rfl, fun _ _ => Nat.zero_le _⟩
  | cons token mask ih =>
    obtain ⟨d, digits, rfl⟩ := List.exists_cons_of_length_eq_add_one length
    by_cases stops : Stops (token :: mask) (d :: digits) 0
    · rw [writtenPlaces_of_stops stops]
      exact ⟨.inr stops, fun _ _ => Nat.zero_le _⟩
    · -- What is found behind this place is found one place later.
      obtain ⟨ends, least⟩ := ih (Nat.succ_injective length)
      rw [writtenPlaces_cons stops, List.length_cons]
      refine ⟨ends.imp (congrArg (· + 1)) stops_cons_succ.2, ?_⟩
      rintro (_ | place) (last | later)
      · cases last
      · exact absurd later stops
      · exact Nat.succ_le_succ (least (.inl (Nat.succ_injective last)))
      · exact Nat.succ_le_succ (least (.inr (stops_cons_succ.1 later)))

theorem isPrefix_writtenPlaces (mask : List Token) (digits : List Digit) :
    writtenPlaces mask digits <+: mask.zip digits := by
  conv => rhs; rw [← List.take_append_drop (significant digits) (mask.zip digits)]
  exact (List.prefix_append_right_inj _).2 (List.takeWhile_prefix _)

theorem fractionDigits_eq (mask : List Token) (digits : List Digit) :
    fractionDigits mask digits =
      (((mask.zip digits).take (writtenPlaces mask digits).length).filter fun place =>
        place.1 = .digit ∨ place.1 = .optional).map Prod.snd := by
  rw [fractionDigits, filterMap_shownDigit,
    ← List.prefix_iff_eq_take.1 (isPrefix_writtenPlaces mask digits)]

theorem Stops.length_takeWhile_le (stops : Stops mask digits place) :
    (mask.takeWhile (· != .optional)).length ≤ place := by
  by_contra more
  have inside := not_le.1 more
  have same := (List.takeWhile_prefix (· != Token.optional) (l := mask)).getElem inside
  have other := List.mem_takeWhile_imp (List.getElem_mem inside)
  obtain ⟨_, optional⟩ := List.getElem?_eq_some_iff.1 stops.optional
  rw [same, optional] at other
  cases other

section Plain

variable (length : digits.length = mask.length)
  (plain : ∀ token ∈ mask, token = .digit ∨ token = .optional)
include length plain

theorem fractionDigits_eq_take :
    fractionDigits mask digits = digits.take (writtenPlaces mask digits).length := by
  rw [fractionDigits_eq, List.filter_eq_self.2, List.map_take, List.map_snd_zip length.le]
  intro place member
  simpa using plain _ (List.of_mem_zip (List.mem_of_mem_take member)).1

/-- Filled up with zeros, the digits that are written are all the digits again. -/
theorem fractionDigits_append_zeros : fractionDigits mask digits ++
    List.replicate (mask.length - (fractionDigits mask digits).length) Digit.zero = digits := by
  obtain ⟨count, whole⟩ := exists_eq_fractionDigits length.symm plain
  have left := congrArg List.length whole
  rw [List.length_append, List.length_replicate] at left
  have same : mask.length - (fractionDigits mask digits).length = count := by omega
  rw [same, ← whole]

theorem count_takeWhile_le : (mask.takeWhile (· != .optional)).count .digit ≤
    (fractionDigits mask digits).length := by
  have inside := (isPrefix_writtenPlaces mask digits).length_le
  rw [List.length_zip, length, min_self] at inside
  rw [fractionDigits_eq_take length plain, List.length_take, length, min_eq_left inside]
  apply List.count_le_length.trans
  rcases (isLeast_length_writtenPlaces length).1 with last | stops
  · rw [last]
    exact (List.takeWhile_sublist _).length_le
  · exact stops.length_takeWhile_le

end Plain

/-- What is written of the digits behind the decimal point where every place is one for a digit. -/
structure FractionPortion (mask : List Token) (digits portion : List Digit) (count : ℕ) :
    Prop where
  eq_take : portion = digits.take count
  value : ∀ integer : List Digit,
    (⟨number (integer ++ portion), -portion.length⟩ : Decimal).value =
      (⟨number (integer ++ digits), -digits.length⟩ : Decimal).value
  required : (mask.takeWhile (· != .optional)).count .digit ≤ portion.length
  again : fractionDigits mask
    (portion ++ List.replicate (mask.length - portion.length) Digit.zero) = portion

/-- The digits behind the decimal point are written up to the first optional place with zeros only
from there on, and zeros are all that is dropped behind it. A separator or a literal takes the digit
of its place away, and no other is missing. -/
theorem fractionPortion_fractionDigits (length : digits.length = mask.length) :
    ∃ count, IsLeast {place | place = mask.length ∨ Stops mask digits place} count ∧
      (∀ d ∈ digits.drop count, d = Digit.zero) ∧
      fractionDigits mask digits = (((mask.zip digits).take count).filter fun place =>
        place.1 = .digit ∨ place.1 = .optional).map Prod.snd ∧
      ((∀ token ∈ mask, token = .digit ∨ token = .optional) →
        FractionPortion mask digits (fractionDigits mask digits) count) := by
  have first := isLeast_length_writtenPlaces length
  refine ⟨_, first, ?_, fractionDigits_eq mask digits, fun plain => ?_⟩
  · rcases first.1 with last | stops
    · simp [last, ← length]
    · exact stops.zeros
  have whole := fractionDigits_append_zeros length plain
  exact {
    eq_take := fractionDigits_eq_take length plain
    value := fun integer => by
      conv => rhs; rw [← whole]
      rw [value_append_zeros]
    required := count_takeWhile_le length plain
    again := by rw [whole] }

theorem fractionPortion_fractionDigits_fourPlaces :
    let mask := [Token.digit, .optional, .digit, .optional]
    let digits : List Digit := [2, 5, 0, 0]
    digits.length = mask.length ∧ ∃ count,
      IsLeast {place | place = mask.length ∨ Stops mask digits place} count ∧
      (∀ d ∈ digits.drop count, d = Digit.zero) ∧
      fractionDigits mask digits = (((mask.zip digits).take count).filter fun place =>
        place.1 = .digit ∨ place.1 = .optional).map Prod.snd ∧
      FractionPortion mask digits [2, 5, 0] count := by
  intro mask digits
  have length : digits.length = mask.length := rfl
  have plain : ∀ token ∈ mask, token = .digit ∨ token = .optional := by decide
  obtain ⟨count, first, dropped, written, portion⟩ := fractionPortion_fractionDigits length
  exact ⟨length, count, first, dropped, written, portion plain⟩

end DigitMask.Display
