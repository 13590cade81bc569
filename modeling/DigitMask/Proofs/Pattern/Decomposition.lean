import DigitMask.Pattern.Parser
import DigitMask.Proofs.Text.Ends

/-! The parts that a pattern is read into. A text splits in one way only into leading text, mask
and trailing text. `parse_eq_iff_spells` says of every text which pattern it is read as: the one
whose parts make the text up again. -/
namespace DigitMask

/-- A mask begins and ends with mask characters, and has none on either side of it. -/
structure Splits (text leading mask trailing : List Char) : Prop where
  whole : text = leading ++ mask ++ trailing
  before : ∀ c ∈ leading, isMaskChar c = false
  after : ∀ c ∈ trailing, isMaskChar c = false
  ends : ∀ c, mask.head? = some c ∨ mask.getLast? = some c → isMaskChar c = true
  bare : mask = [] → trailing = []

namespace Splits

variable {text leading mask trailing : List Char}

theorem head_rest (parts : Splits text leading mask trailing) (c : Char)
    (first : (mask ++ trailing).head? = some c) : isMaskChar c = true := by
  cases mask with
  | nil => simp [parts.bare rfl] at first
  | cons d mask => exact parts.ends c (.inl first)

theorem mem_iff (parts : Splits text leading mask trailing) {c : Char} (inMask : isMaskChar c) :
    c ∈ text ↔ c ∈ mask := by
  have outside : c ∉ leading ∧ c ∉ trailing :=
    ⟨fun member => by simp [parts.before c member] at inMask,
      fun member => by simp [parts.after c member] at inMask⟩
  simp [parts.whole, outside.1, outside.2]

end Splits

theorem splits_iff (text leading mask trailing : List Char) :
    Splits text leading mask trailing ↔
      leading = text.takeWhile (fun c => !isMaskChar c) ∧
      mask = (text.dropWhile fun c => !isMaskChar c).rdropWhile (fun c => !isMaskChar c) ∧
      trailing = (text.dropWhile fun c => !isMaskChar c).rtakeWhile fun c => !isMaskChar c := by
  constructor
  · intro parts
    have front := @takeWhile_append_eq _ (fun c => !isMaskChar c) leading (mask ++ trailing)
      (by simpa using parts.before) (by simpa using parts.head_rest)
    have back := @rtakeWhile_append_eq _ (fun c => !isMaskChar c) mask trailing
      (by simpa using parts.after) (fun c last => by simp [parts.ends c (.inr last)])
    rw [parts.whole, List.append_assoc, front.1, front.2, back.1, back.2]
    exact ⟨rfl, rfl, rfl⟩
  · rintro ⟨rfl, rfl, rfl⟩
    have rest := @List.rdropWhile_append_rtakeWhile _ (fun c => !isMaskChar c)
      (text.dropWhile fun c => !isMaskChar c)
    have stops := List.head?_dropWhile_not (fun c => !isMaskChar c) text
    constructor
    · rw [List.append_assoc, rest, List.takeWhile_append_dropWhile]
    · intro c member
      simpa using List.mem_takeWhile_imp member
    · intro c member
      simpa using List.mem_rtakeWhile_imp member
    · rintro c (first | last)
      · rw [← rest, List.head?_append, first] at stops
        simpa using stops
      · simpa using not_of_getLast?_rdropWhile last
    · intro none
      rw [none, List.nil_append] at rest
      rw [rest]
      -- What is left starts with a mask character, but its characters are none.
      cases first : (text.dropWhile fun c => !isMaskChar c) with
      | nil => rfl
      | cons c tail =>
        have passes := List.rtakeWhile_eq_self_iff.1 rest c (by simp [first])
        rw [first] at stops
        simp_all

theorem splits_unique (text : List Char) :
    ∃! parts : List Char × List Char × List Char, Splits text parts.1 parts.2.1 parts.2.2 := by
  refine ⟨⟨_, _, _⟩, (splits_iff text _ _ _).2 ⟨rfl, rfl, rfl⟩, ?_⟩
  rintro ⟨leading, mask, trailing⟩ parts
  obtain ⟨rfl, rfl, rfl⟩ := (splits_iff _ _ _ _).1 parts
  rfl

namespace Pattern

theorem eq_integerOf_iff (mask : List Char) (places : List Token) :
    places = integerOf mask ↔
      ∃ front, UpToFirst '.' (mask.filter (· != '^')) front ∧ places = front.map Token.ofChar := by
  simp [integerOf, upToFirst_iff]

theorem eq_fractionOf_iff (mask : List Char) (fraction : Option (List Token)) :
    fraction = fractionOf mask ↔ (fraction = none ↔ '.' ∉ mask) ∧
      ∀ places, fraction = some places →
        ∃ back, AfterLast '.' (mask.filter (· != '^')) back ∧
          places = back.map Token.ofChar := by
  by_cases point : '.' ∈ mask
  · cases fraction <;> simp [fractionOf, afterLast_iff, point, List.rtakeWhile]
  · cases fraction <;> simp [fractionOf, afterLast_iff, point, List.rtakeWhile]

theorem ofUnsigned_eq_iff (signFirst : Bool) (text : List Char) (p : Pattern) :
    ofUnsigned signFirst text = p ↔ p.signFirst = signFirst ∧
      ∃ mask, Splits text p.leading.toList mask p.trailing.toList ∧
        p.integer = integerOf mask ∧ p.fraction = fractionOf mask ∧
        p.scaled = mask.contains '^' := by
  constructor
  · rintro rfl
    exact ⟨rfl, _, (splits_iff _ _ _ _).2 (by simp [ofUnsigned, List.rdropWhile, List.rtakeWhile]), rfl, rfl, rfl⟩
  · rintro ⟨rfl, mask, parts, integer, fraction, scaled⟩
    obtain ⟨leading, rfl, trailing⟩ := (splits_iff _ _ _ _).1 parts
    have trailing := congrArg String.ofList trailing
    rw [String.ofList_toList] at trailing
    cases p
    simp_all [ofUnsigned, List.rdropWhile, List.rtakeWhile, ← leading]

/-- How the parts of a pattern make up its text. Scale markers and what stands between two
decimal points leave no place of a mask. -/
structure Spells (p : Pattern) (mask text : List Char) : Prop where
  parts : ∃ unsigned, text = (if p.signFirst then ['-'] else []) ++ unsigned ∧
    (p.signFirst = false → unsigned.head? ≠ some '-') ∧
    Splits unsigned p.leading.toList mask p.trailing.toList
  scaled : p.scaled = true ↔ '^' ∈ text
  point : p.fraction = none ↔ '.' ∉ text
  integer : ∃ front, UpToFirst '.' (mask.filter (· != '^')) front ∧
    p.integer = front.map Token.ofChar
  fraction : ∀ places, p.fraction = some places →
    ∃ back, AfterLast '.' (mask.filter (· != '^')) back ∧ places = back.map Token.ofChar

theorem ofChars_eq (text : List Char) :
    ∃ signFirst unsigned, text = (if signFirst then ['-'] else []) ++ unsigned ∧
      (signFirst = false → unsigned.head? ≠ some '-') ∧
      ofChars text = ofUnsigned signFirst unsigned := by
  unfold ofChars
  split
  · next rest => exact ⟨true, rest, rfl, nofun, rfl⟩
  · next unsigned =>
    refine ⟨false, text, rfl, fun _ first => ?_, rfl⟩
    obtain ⟨rest, rfl⟩ := List.head?_eq_some_iff.1 first
    exact unsigned rest rfl

theorem ofChars_append {signFirst : Bool} {unsigned : List Char}
    (bare : signFirst = false → unsigned.head? ≠ some '-') :
    ofChars ((if signFirst then ['-'] else []) ++ unsigned) = ofUnsigned signFirst unsigned := by
  cases signFirst with
  | true => rfl
  | false =>
    unfold ofChars
    split
    · next rest same => exact absurd (by simpa using congrArg List.head? same) (bare rfl)
    · rfl

theorem ofChars_eq_iff (text : List Char) (p : Pattern) :
    ofChars text = p ↔ ∃ mask, Spells p mask text := by
  have places {signFirst : Bool} {unsigned leading mask trailing : List Char}
      (parts : Splits unsigned leading mask trailing) {c : Char} (inMask : isMaskChar c)
      (notSign : c ≠ '-') : c ∈ (if signFirst then ['-'] else []) ++ unsigned ↔ c ∈ mask := by
    rw [List.mem_append, parts.mem_iff inMask]
    cases signFirst <;> simp [notSign]
  constructor
  · intro read
    obtain ⟨signFirst, unsigned, rfl, bare, same⟩ := ofChars_eq text
    obtain ⟨rfl, mask, parts, integer, fraction, scaled⟩ :=
      (ofUnsigned_eq_iff signFirst unsigned p).1 (same.symm.trans read)
    have fraction := (eq_fractionOf_iff mask p.fraction).1 fraction
    refine ⟨mask, ⟨unsigned, rfl, bare, parts⟩, ?_, ?_, (eq_integerOf_iff _ _).1 integer,
      fraction.2⟩
    · rw [places parts (by decide) (by decide), scaled, List.contains_iff_mem]
    · rw [places parts (by decide) (by decide), fraction.1]
  · rintro ⟨mask, ⟨unsigned, rfl, bare, parts⟩, scaled, point, integer, fraction⟩
    rw [places parts (by decide) (by decide)] at scaled point
    rw [ofChars_append bare, ofUnsigned_eq_iff]
    refine ⟨rfl, mask, parts, (eq_integerOf_iff _ _).2 integer,
      (eq_fractionOf_iff _ _).2 ⟨point, fraction⟩, ?_⟩
    rw [Bool.eq_iff_iff, scaled, List.contains_iff_mem]

/-- Every text is read as the one pattern whose parts make it up. -/
theorem parse_eq_iff_spells (text : String) :
    (∀ p, parse text = p ↔ ∃ mask, Spells p mask text.toList) ∧
      ∀ unsigned : List Char, ∃! parts : List Char × List Char × List Char,
        Splits unsigned parts.1 parts.2.1 parts.2.2 :=
  ⟨fun p => ofChars_eq_iff text.toList p, splits_unique⟩

end Pattern
end DigitMask
