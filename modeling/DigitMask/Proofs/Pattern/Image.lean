import DigitMask.Proofs.Pattern.Decomposition

/-! Which patterns some text is read as, and the text that writes such a pattern. A scale marker
at both ends of a mask lets it begin and end with any place; without markers the first and the
last place have to be told from the text around the mask. -/
namespace DigitMask

theorem isMaskChar_iff (c : Char) :
    isMaskChar c = true ↔ c = '0' ∨ c = '#' ∨ c = '-' ∨ c = ',' ∨ c = '.' ∨ c = '^' := by
  simp [isMaskChar, or_assoc]

namespace Token

def char : Token → Char
  | digit => '0'
  | optional => '#'
  | separator => ','
  | literal c => c

/-- No character but the minus sign is both a literal and a character of masks. -/
def Readable (token : Token) : Prop :=
  ∀ c, token = .literal c → c ≠ '0' ∧ c ≠ '#' ∧ c ≠ ',' ∧ c ≠ '.' ∧ c ≠ '^'

theorem ofChar_eq_literal_iff (c d : Char) :
    ofChar c = literal d ↔ c = d ∧ c ≠ '0' ∧ c ≠ '#' ∧ c ≠ ',' := by
  unfold ofChar
  split <;> simp_all

theorem readable_map_ofChar {mask : List Char} (noPoint : '.' ∉ mask) (noMarker : '^' ∉ mask) :
    ∀ token ∈ mask.map ofChar, token.Readable := by
  intro token member d literal
  obtain ⟨c, inside, rfl⟩ := List.mem_map.1 member
  obtain ⟨rfl, digit, optional, separator⟩ := (ofChar_eq_literal_iff c d).1 literal
  exact ⟨digit, optional, separator, fun point => noPoint (point ▸ inside),
    fun marker => noMarker (marker ▸ inside)⟩

theorem ofChar_char {token : Token} (readable : token.Readable) : ofChar token.char = token := by
  cases token with
  | literal c =>
    obtain ⟨digit, optional, separator, _⟩ := readable c rfl
    exact (ofChar_eq_literal_iff c c).2 ⟨rfl, digit, optional, separator⟩
  | _ => rfl

theorem char_ne {token : Token} (readable : token.Readable) :
    token.char ≠ '.' ∧ token.char ≠ '^' := by
  cases token with
  | literal c => exact (readable c rfl).2.2.2
  | _ => exact ⟨by decide, by decide⟩

/-- A place that is no literal, or the minus sign, can stand at the end of a mask. -/
theorem isMaskChar_char {token : Token} (ends : ∀ c, token = .literal c → c = '-') :
    isMaskChar token.char = true := by
  cases token with
  | literal c => rw [ends c rfl]; decide
  | _ => decide

theorem eq_minus_of_isMaskChar {c d : Char} (inMask : isMaskChar c = true)
    (noPoint : c ≠ '.') (noMarker : c ≠ '^') (same : ofChar c = literal d) : d = '-' := by
  obtain ⟨rfl, digit, optional, separator⟩ := (ofChar_eq_literal_iff c d).1 same
  simpa [isMaskChar_iff, digit, optional, separator, noPoint, noMarker] using inMask

theorem map_ofChar_char {places : List Token} (readable : ∀ token ∈ places, token.Readable) :
    (places.map char).map ofChar = places := by
  rw [List.map_map]
  exact (List.map_congr_left fun token member => ofChar_char (readable token member)).trans
    (List.map_id' places)

theorem not_mem_map_char {places : List Token} (readable : ∀ token ∈ places, token.Readable) :
    '.' ∉ places.map char ∧ '^' ∉ places.map char := by
  simp only [List.mem_map, not_exists, not_and]
  exact ⟨fun token member => (char_ne (readable token member)).1,
    fun token member => (char_ne (readable token member)).2⟩

end Token

namespace Pattern

/-- The places around the decimal point, as they are written. -/
def unscaledMask (p : Pattern) : List Char :=
  p.integer.map Token.char ++
    match p.fraction with
    | some fraction => '.' :: fraction.map Token.char
    | none => []

/-- The mask, between two markers if the number is scaled. -/
def mask (p : Pattern) : List Char :=
  if p.scaled then '^' :: (p.unscaledMask ++ ['^']) else p.unscaledMask

/-- The text that writes a pattern. -/
def text (p : Pattern) : String :=
  String.ofList ((if p.signFirst then ['-'] else []) ++
    (p.leading.toList ++ p.mask ++ p.trailing.toList))

/-- What holds of a pattern that some text is read as. Without a marker the first and the last
place are mask characters, a mask has to be there for a trailing text, and a minus sign in front
of all else is not a place. -/
structure Readable (p : Pattern) : Prop where
  leading : ∀ c ∈ p.leading.toList, isMaskChar c = false
  trailing : ∀ c ∈ p.trailing.toList, isMaskChar c = false
  integer : ∀ token ∈ p.integer, token.Readable
  fraction : ∀ places, p.fraction = some places → ∀ token ∈ places, token.Readable
  first : p.scaled = false → ∀ c, p.integer.head? = some (.literal c) → c = '-'
  last : p.scaled = false → ∀ c, (p.fraction.getD p.integer).getLast? = some (.literal c) → c = '-'
  bare : p.scaled = false → p.integer = [] → p.fraction = none → p.trailing = ""
  sign : p.scaled = false → p.signFirst = false → p.leading = "" →
    p.integer.head? ≠ some (.literal '-')

namespace Readable

variable {p : Pattern}

theorem not_mem_integer (readable : p.Readable) :
    '.' ∉ p.integer.map Token.char ∧ '^' ∉ p.integer.map Token.char :=
  Token.not_mem_map_char readable.integer

theorem not_mem_unscaledMask (readable : p.Readable) : '^' ∉ p.unscaledMask := by
  rw [unscaledMask, List.mem_append, not_or]
  refine ⟨readable.not_mem_integer.2, ?_⟩
  cases same : p.fraction with
  | none => simp
  | some fraction =>
    have free := (Token.not_mem_map_char (readable.fraction fraction same)).2
    simpa using free

theorem mem_mask_iff (p : Pattern) {c : Char} (other : c ≠ '^') :
    c ∈ p.mask ↔ c ∈ p.unscaledMask := by
  cases scaled : p.scaled <;> simp [mask, scaled, other]

theorem filter_mask (readable : p.Readable) : p.mask.filter (· != '^') = p.unscaledMask := by
  have all : p.unscaledMask.filter (· != '^') = p.unscaledMask :=
    List.filter_eq_self.2 fun c member => bne_of_mem readable.not_mem_unscaledMask member
  cases scaled : p.scaled <;> simp [mask, scaled, all]

theorem head_unscaledMask (readable : p.Readable) (scaled : p.scaled = false) {c : Char}
    (first : p.unscaledMask.head? = some c) : isMaskChar c = true := by
  cases integer : p.integer with
  | nil =>
    cases fraction : p.fraction with
    | none => simp [unscaledMask, integer, fraction] at first
    | some places =>
      have point : '.' = c := by simpa [unscaledMask, integer, fraction] using first
      rw [← point]; decide
  | cons token rest =>
    have same : token.char = c := by simpa [unscaledMask, integer] using first
    rw [← same]
    refine Token.isMaskChar_char fun d literal => readable.first scaled d ?_
    rw [integer, literal]; rfl

theorem getLast_unscaledMask (readable : p.Readable) (scaled : p.scaled = false) {c : Char}
    (last : p.unscaledMask.getLast? = some c) : isMaskChar c = true := by
  have ends := readable.last scaled
  cases fraction : p.fraction with
  | none =>
    simp only [unscaledMask, fraction, List.append_nil, List.getLast?_map,
      Option.map_eq_some_iff] at last
    obtain ⟨token, last, rfl⟩ := last
    rw [fraction, Option.getD_none, last] at ends
    exact Token.isMaskChar_char fun d literal => ends d (congrArg some literal)
  | some places =>
    rw [fraction, Option.getD_some] at ends
    simp only [unscaledMask, fraction, List.getLast?_append, List.getLast?_cons,
      List.getLast?_map, Option.some_or, Option.some.injEq] at last
    cases final : places.getLast? with
    | none => rw [← last, final]; decide
    | some token =>
      rw [← last, final]
      exact Token.isMaskChar_char fun d literal => ends d (final.trans (congrArg some literal))

theorem splits (readable : p.Readable) :
    Splits (p.leading.toList ++ p.mask ++ p.trailing.toList) p.leading.toList p.mask
      p.trailing.toList where
  whole := rfl
  before := readable.leading
  after := readable.trailing
  ends c := by
    cases scaled : p.scaled with
    | true =>
      intro ends
      have marker : '^' = c := by
        rcases ends with first | last
        · simpa [mask, scaled] using first
        · simpa [mask, scaled, List.getLast?_cons] using last
      rw [← marker]; decide
    | false =>
      simp only [mask, scaled, Bool.false_eq_true, if_false]
      exact Or.rec (readable.head_unscaledMask scaled) (readable.getLast_unscaledMask scaled)
  bare none := by
    cases scaled : p.scaled with
    | true => simp [mask, scaled] at none
    | false =>
      simp only [mask, scaled, unscaledMask, Bool.false_eq_true, if_false,
        List.append_eq_nil_iff, List.map_eq_nil_iff] at none
      have point : p.fraction = .none := by
        cases fraction : p.fraction with
        | none => rfl
        | some places => simp [fraction] at none
      rw [readable.bare scaled none.1 point]; rfl

/-- A minus sign that is no sign of the pattern stands behind another character. -/
theorem head_ne (readable : p.Readable) (signFirst : p.signFirst = false) :
    (p.leading.toList ++ p.mask ++ p.trailing.toList).head? ≠ some '-' := by
  intro first
  cases leading : p.leading.toList with
  | cons c rest =>
    rw [leading] at first
    have same : c = '-' := by simpa using first
    have free := readable.leading c (by simp [leading])
    rw [same] at free
    exact absurd free (by decide)
  | nil =>
    rw [leading, List.nil_append] at first
    cases scaled : p.scaled with
    | true => simp [mask, scaled] at first
    | false =>
      have bare : p.leading = "" := String.toList_eq_nil_iff.1 leading
      have sign := readable.sign scaled signFirst bare
      cases integer : p.integer with
      | cons token rest =>
        have same : token.char = '-' := by
          simpa [mask, scaled, unscaledMask, integer] using first
        have minus : token = .literal '-' := by
          cases token <;> simp_all [Token.char]
        exact sign (by rw [integer, minus]; rfl)
      | nil =>
        cases fraction : p.fraction with
        | some places => simp [mask, scaled, unscaledMask, integer, fraction] at first
        | none =>
          rw [readable.bare scaled integer fraction] at first
          simp [mask, scaled, unscaledMask, integer, fraction] at first

theorem mem_text_iff (readable : p.Readable) {c : Char} (inMask : isMaskChar c = true)
    (notSign : c ≠ '-') : c ∈ p.text.toList ↔ c ∈ p.mask := by
  rw [text, String.toList_ofList, List.mem_append, readable.splits.mem_iff inMask]
  cases p.signFirst <;> simp [notSign]

theorem spells (readable : p.Readable) : Spells p p.mask p.text.toList where
  parts := ⟨_, by rw [text, String.toList_ofList], readable.head_ne, readable.splits⟩
  scaled := by
    rw [readable.mem_text_iff (by decide) (by decide)]
    have free := readable.not_mem_unscaledMask
    cases scaled : p.scaled <;> simp [mask, scaled, free]
  point := by
    rw [readable.mem_text_iff (by decide) (by decide), mem_mask_iff p (by decide)]
    have free := readable.not_mem_integer.1
    cases fraction : p.fraction with
    | none => simp only [unscaledMask, fraction, List.append_nil, free, not_false_iff]
    | some places => simp [unscaledMask, fraction]
  integer := by
    refine ⟨p.integer.map Token.char, ⟨readable.not_mem_integer.1, _, readable.filter_mask, ?_⟩,
      (Token.map_ofChar_char readable.integer).symm⟩
    cases p.fraction <;> simp
  fraction places same := by
    have free := Token.not_mem_map_char (readable.fraction places same)
    refine ⟨places.map Token.char, ⟨free.1, p.integer.map Token.char, ?_⟩,
      (Token.map_ofChar_char (readable.fraction places same)).symm⟩
    rw [readable.filter_mask, unscaledMask, same]

end Readable
namespace Spells

variable {p : Pattern} {mask text : List Char}

theorem integer_readable (spells : Spells p mask text) :
    ∀ token ∈ p.integer, token.Readable := by
  obtain ⟨front, ⟨noPoint, rest, split, _⟩, same⟩ := spells.integer
  have noMarker : '^' ∉ mask.filter (· != '^') := by simp
  rw [split, List.mem_append, not_or] at noMarker
  rw [same]
  exact Token.readable_map_ofChar noPoint noMarker.1

theorem fraction_readable (spells : Spells p mask text) (places : List Token)
    (fraction : p.fraction = some places) : ∀ token ∈ places, token.Readable := by
  obtain ⟨back, ⟨noPoint, front, split⟩, same⟩ := spells.fraction places fraction
  have noMarker : '^' ∉ mask.filter (· != '^') := by simp
  rw [split, List.mem_append, List.mem_cons, not_or, not_or] at noMarker
  rw [same]
  exact Token.readable_map_ofChar noPoint noMarker.2.2

/-- Without a marker in the text the mask is read as it stands. -/
theorem filter_mask (spells : Spells p mask text) (scaled : p.scaled = false) :
    '^' ∉ mask ∧ mask.filter (· != '^') = mask := by
  have free : '^' ∉ text := by rw [← spells.scaled, scaled]; decide
  obtain ⟨unsigned, rfl, _, parts⟩ := spells.parts
  rw [List.mem_append, not_or, parts.mem_iff (by decide)] at free
  exact ⟨free.2, List.filter_eq_self.2 fun c member => bne_of_mem free.2 member⟩

theorem not_mem_mask (spells : Spells p mask text) (point : p.fraction = none) : '.' ∉ mask := by
  have free := spells.point.1 point
  obtain ⟨unsigned, rfl, _, parts⟩ := spells.parts
  rw [List.mem_append, not_or, parts.mem_iff (by decide)] at free
  exact free.2

/-- Without a marker and a decimal point the whole mask is the integer mask. -/
theorem integer_eq (spells : Spells p mask text) (scaled : p.scaled = false)
    (point : p.fraction = none) : p.integer = mask.map Token.ofChar := by
  obtain ⟨front, ⟨_, rest, split, ends⟩, same⟩ := spells.integer
  have free := spells.not_mem_mask point
  rw [(spells.filter_mask scaled).2] at split
  rcases ends with rfl | point
  · rw [same, split, List.append_nil]
  · obtain ⟨tail, rfl⟩ := List.head?_eq_some_iff.1 point
    simp [split] at free

theorem eq_minus {c d : Char} (spells : Spells p mask text) (scaled : p.scaled = false)
    (ends : mask.head? = some c ∨ mask.getLast? = some c) (noPoint : c ≠ '.')
    (literal : Token.ofChar c = .literal d) : d = '-' := by
  have member : c ∈ mask := ends.elim List.mem_of_mem_head? List.mem_of_mem_getLast?
  have noMarker : c ≠ '^' := fun marker => (spells.filter_mask scaled).1 (marker ▸ member)
  obtain ⟨unsigned, _, _, parts⟩ := spells.parts
  exact Token.eq_minus_of_isMaskChar (parts.ends c ends) noPoint noMarker literal

theorem first_minus (spells : Spells p mask text) (scaled : p.scaled = false) (d : Char)
    (literal : p.integer.head? = some (.literal d)) : mask.head? = some '-' ∧ d = '-' := by
  obtain ⟨front, ⟨noPoint, rest, split, _⟩, same⟩ := spells.integer
  rw [(spells.filter_mask scaled).2] at split
  rw [same, List.head?_map, Option.map_eq_some_iff] at literal
  obtain ⟨c, first, literal⟩ := literal
  have head : mask.head? = some c := by rw [split, List.head?_append, first]; rfl
  have notPoint : c ≠ '.' := fun point => noPoint (point ▸ List.mem_of_mem_head? first)
  have minus := spells.eq_minus scaled (.inl head) notPoint literal
  have same := ((Token.ofChar_eq_literal_iff c d).1 literal).1
  exact ⟨by rw [head, same, minus], minus⟩

theorem last_minus (spells : Spells p mask text) (scaled : p.scaled = false) (d : Char)
    (literal : (p.fraction.getD p.integer).getLast? = some (.literal d)) : d = '-' := by
  cases fraction : p.fraction with
  | none =>
    rw [fraction, Option.getD_none, spells.integer_eq scaled fraction, List.getLast?_map,
      Option.map_eq_some_iff] at literal
    obtain ⟨c, last, literal⟩ := literal
    have free := spells.not_mem_mask fraction
    have notPoint : c ≠ '.' := fun point => free (point ▸ List.mem_of_mem_getLast? last)
    exact spells.eq_minus scaled (.inr last) notPoint literal
  | some places =>
    obtain ⟨back, ⟨noPoint, front, split⟩, same⟩ := spells.fraction places fraction
    rw [(spells.filter_mask scaled).2] at split
    rw [fraction, Option.getD_some, same, List.getLast?_map, Option.map_eq_some_iff] at literal
    obtain ⟨c, last, literal⟩ := literal
    have final : mask.getLast? = some c := by
      rw [split, List.getLast?_append, List.getLast?_cons, last]; rfl
    have notPoint : c ≠ '.' := fun point => noPoint (point ▸ List.mem_of_mem_getLast? last)
    exact spells.eq_minus scaled (.inr final) notPoint literal

theorem readable (spells : Spells p mask text) : p.Readable where
  leading := by obtain ⟨_, _, _, parts⟩ := spells.parts; exact parts.before
  trailing := by obtain ⟨_, _, _, parts⟩ := spells.parts; exact parts.after
  integer := spells.integer_readable
  fraction := spells.fraction_readable
  first scaled d literal := (spells.first_minus scaled d literal).2
  last := spells.last_minus
  bare scaled integer point := by
    obtain ⟨_, _, _, parts⟩ := spells.parts
    have none : mask = [] := by simpa [integer] using spells.integer_eq scaled point
    exact String.toList_eq_nil_iff.1 (parts.bare none)
  sign scaled signFirst leading literal := by
    obtain ⟨unsigned, _, bare, parts⟩ := spells.parts
    refine bare signFirst ?_
    rw [parts.whole, leading, String.toList_empty, List.nil_append, List.head?_append,
      (spells.first_minus scaled '-' literal).1]
    rfl

end Spells

theorem Readable.parse_text {p : Pattern} (readable : p.Readable) : parse p.text = p :=
  (ofChars_eq_iff p.text.toList p).2 ⟨p.mask, readable.spells⟩

theorem readable_parse (text : String) : (parse text).Readable := by
  obtain ⟨mask, spells⟩ := (ofChars_eq_iff text.toList (parse text)).1 rfl
  exact spells.readable

/-- The readable patterns are those that some text is read as, and the text that writes a
pattern is one of them. -/
theorem exists_parse_iff (p : Pattern) :
    ((∃ text, parse text = p) ↔ p.Readable) ∧ (parse p.text = p ↔ p.Readable) := by
  have read {text : String} (same : parse text = p) : p.Readable := same ▸ readable_parse text
  exact ⟨⟨fun ⟨_, same⟩ => read same, fun readable => ⟨p.text, readable.parse_text⟩⟩,
    read, Readable.parse_text⟩

end Pattern
end DigitMask
