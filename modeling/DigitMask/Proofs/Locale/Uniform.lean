import DigitMask.Proofs.Locale.Builtin
import DigitMask.Proofs.Significance

/-! The same pieces in the symbols of two locales. What is read of them depends on the locale only
behind the first decimal symbol: a second point spoils a numeral, a second comma is passed over. -/
namespace DigitMask

/-- The pieces without the decimal symbols behind the first one. -/
def onePoint : List Piece → List Piece
  | [] => []
  | .decimal :: pieces => .decimal :: pieces.filter (· != .decimal)
  | piece :: pieces => piece :: onePoint pieces

theorem onePoint_append {before after : List Piece} (clear : .decimal ∉ before) :
    onePoint (before ++ .decimal :: after) =
      before ++ .decimal :: after.filter (· != .decimal) := by
  induction before with
  | nil => rfl
  | cons piece before ih =>
    obtain ⟨other, clear⟩ := List.ne_and_not_mem_of_not_mem_cons clear
    rw [List.cons_append, onePoint.eq_3 _ _ (fun same => other same.symm), ih clear]
    rfl

theorem onePoint_of_not_mem {pieces : List Piece} (clear : .decimal ∉ pieces) :
    onePoint pieces = pieces := by
  induction pieces with
  | nil => rfl
  | cons piece pieces ih =>
    obtain ⟨other, clear⟩ := List.ne_and_not_mem_of_not_mem_cons clear
    rw [onePoint.eq_3 _ _ (fun same => other same.symm), ih clear]

theorem onePoint_of_count_le {pieces : List Piece} (once : pieces.count .decimal ≤ 1) :
    onePoint pieces = pieces := by
  by_cases point : .decimal ∈ pieces
  · obtain ⟨before, after, rfl, clear⟩ := List.eq_append_cons_of_mem point
    have last : .decimal ∉ after := by
      rw [List.count_append, List.count_cons_self, List.count_eq_zero.2 clear] at once
      exact List.count_eq_zero.1 (by omega)
    rw [onePoint_append clear, List.filter_eq_self.2 fun piece member =>
      bne_iff_ne.2 (ne_of_mem_of_not_mem member last)]
  · exact onePoint_of_not_mem point

def Piece.isPart : Piece → Bool
  | char c => c.isDigit || c == '%'
  | _ => true

/-- Pieces without other text. -/
def Drawn (pieces : List Piece) : Prop := ∀ piece ∈ pieces, piece.isPart = true

instance (pieces : List Piece) : Decidable (Drawn pieces) :=
  inferInstanceAs (Decidable (∀ piece ∈ pieces, _))

theorem Drawn.char {pieces : List Piece} (drawn : Drawn pieces) {c : Char}
    (member : .char c ∈ pieces) : c.isDigit = true ∨ c = '%' := by
  simpa [Piece.isPart] using drawn (.char c) member

theorem Drawn.literal {pieces : List Piece} (drawn : Drawn pieces) (c : Char)
    (member : .char c ∈ pieces) : Symbols.Literal c := by
  rcases drawn.char member with digit | rfl
  · exact Display.literal_of_isDigit digit
  · exact ⟨by decide, by decide, by decide⟩

theorem Drawn.count_spell {pieces : List Piece} (drawn : Drawn pieces) :
    (pieces.filterMap Piece.spell).count '.' = pieces.count .decimal := by
  induction pieces with
  | nil => rfl
  | cons piece pieces ih =>
    have ih := ih fun piece member => drawn piece (List.mem_cons_of_mem _ member)
    cases piece with
    | char c =>
      have other : c ≠ '.' := (drawn.literal c List.mem_cons_self).1
      by_cases digit : c.isDigit <;> simp [Piece.spell, digit, other, ih]
    | _ => simp [List.filterMap_cons, Piece.spell, ih]

theorem SpellsPlain.count_point_le {text : List Char} {negative : Bool}
    {integer fraction : List Digit} (plain : SpellsPlain text negative integer fraction) :
    text.count '.' ≤ 1 := by
  have none (digits : List Digit) : (digits.map Digit.char).count '.' = 0 :=
    List.count_eq_zero.2 (not_mem_run rfl)
  cases plain with
  | positive digits => cases digits <;> simp [none]
  | negative digits => cases digits <;> simp [none]

/-- No numeral has two points. -/
theorem ofChars_of_points {text : List Char} (numeric : ∀ c ∈ text, isNumeric c = true)
    (points : 2 ≤ text.count '.') : Binary64.ofChars text = .nan := by
  refine (ofChars_eq_nan_iff_of_isNumeric numeric).2 ⟨?_, ?_⟩
  · rintro rfl
    cases points
  · rintro ⟨negative, integer, fraction, plain⟩
    have once := plain.count_point_le
    omega

namespace Symbols

variable {symbols : Symbols} {pieces : List Piece}

/-- The pieces that reach the numeral. A later decimal symbol does so if it is the point. -/
def reached (symbols : Symbols) (pieces : List Piece) : List Piece :=
  if symbols.decimal = '.' then pieces else onePoint pieces

theorem filterMap_spell_filter_decimal (other : symbols.decimal ≠ '.') :
    (pieces.filter (· != .decimal)).filterMap Piece.spell =
      pieces.filterMap symbols.spellLater := by
  induction pieces with
  | nil => rfl
  | cons piece pieces ih =>
    cases piece <;> simp [List.filterMap_cons, spellLater, other, ih]

theorem filterMap_spellLater_of_point (point : symbols.decimal = '.') :
    pieces.filterMap symbols.spellLater = pieces.filterMap Piece.spell := by
  refine List.filterMap_congr fun piece _ => ?_
  cases piece <;> simp [spellLater, Piece.spell, point]

theorem filter_normalize_drawn (distinct : symbols.Distinct) (drawn : Drawn pieces) :
    (symbols.normalize (pieces.map (Piece.write symbols))).filter isNumeric =
      (symbols.reached pieces).filterMap Piece.spell := by
  -- Locales differ only in what they take from the pieces behind the first decimal symbol.
  by_cases point : .decimal ∈ pieces
  · obtain ⟨before, after, rfl, clear⟩ := List.eq_append_cons_of_mem point
    rw [filter_normalize_append distinct drawn.literal clear, reached]
    split
    · next same =>
      rw [filterMap_spellLater_of_point same, List.filterMap_append]
      rfl
    · next other =>
      rw [onePoint_append clear, List.filterMap_append, List.filterMap_cons,
        filterMap_spell_filter_decimal other]
      rfl
  · have once : pieces.count .decimal ≤ 1 := by rw [List.count_eq_zero.2 point]; omega
    rw [filter_normalize distinct drawn.literal once, reached, onePoint_of_not_mem point, ite_self]

theorem write_eq_group_iff (distinct : symbols.Distinct) (apart : symbols.group ≠ '%')
    (drawn : Drawn pieces) {piece : Piece} (member : piece ∈ pieces) :
    piece.write symbols = symbols.group ↔ piece = .group := by
  cases piece with
  | char c =>
    refine iff_of_false (fun same => ?_) (by simp)
    rcases drawn.char member with digit | rfl
    · rw [show c = symbols.group from same, distinct.group_not_digit] at digit
      cases digit
    · exact apart same.symm
  | decimal => exact iff_of_false distinct.group_ne_decimal.symm (by simp)
  | group => exact iff_of_true rfl rfl
  | negative =>
    rw [Piece.write, distinct.negative]
    exact iff_of_false distinct.group_ne_negative.symm (by simp)

theorem write_eq_percent_iff (distinct : symbols.Distinct) (apart : symbols.group ≠ '%')
    (piece : Piece) : piece.write symbols = '%' ↔ piece = .char '%' := by
  cases piece with
  | char c => exact (Piece.char.injEq c '%').to_iff.symm
  | decimal =>
    rcases distinct.decimal with same | same <;> rw [Piece.write, same] <;> decide
  | group => exact iff_of_false apart (by simp)
  | negative => rw [Piece.write, distinct.negative]; decide

theorem endsInPercent_drawn (distinct : symbols.Distinct) (apart : symbols.group ≠ '%')
    (drawn : Drawn pieces) : symbols.EndsInPercent (pieces.map (Piece.write symbols)) ↔
      (pieces.filter (· != .group)).getLast? = some (.char '%') := by
  have shown : pieces.filter ((· != symbols.group) ∘ Piece.write symbols) =
      pieces.filter (· != .group) := by
    refine List.filter_congr fun piece member => ?_
    rw [Bool.eq_iff_iff, Function.comp, bne_iff_ne, bne_iff_ne, ne_eq, ne_eq,
      write_eq_group_iff distinct apart drawn member]
  rw [EndsInPercent, List.filter_map, shown, List.getLast?_map, Option.map_eq_some_iff]
  simp only [write_eq_percent_iff distinct apart, exists_eq_right]

/-- What is read of pieces, told without the symbols but for the decimal one. -/
theorem read_drawn (distinct : symbols.Distinct) (apart : symbols.group ≠ '%')
    (drawn : Drawn pieces) : symbols.read (pieces.map (Piece.write symbols)) =
      let numeral := (symbols.reached pieces).filterMap Piece.spell
      if (pieces.filter (· != .group)).getLast? = some (.char '%') then
        (Binary64.ofChars numeral).ofPercent numeral.length
      else .ofChars numeral := by
  simp only [read, filter_normalize_drawn distinct drawn, beq_iff_eq, getLast?_normalize distinct]
  simp only [← endsInPercent_drawn distinct apart drawn]
  rfl

theorem isNumeric_of_mem_spell {pieces : List Piece} (c : Char)
    (member : c ∈ pieces.filterMap Piece.spell) : isNumeric c = true := by
  obtain ⟨piece, -, spelled⟩ := List.mem_filterMap.1 member
  cases piece with
  | char d =>
    simp only [Piece.spell, Option.ite_none_right_eq_some, Option.some_inj] at spelled
    rw [isNumeric_iff, ← spelled.2]
    exact .inl spelled.1
  | group => cases spelled
  | _ => cases spelled; decide

/-- A second point is left in the numeral and spoils it. -/
theorem read_drawn_eq_nan (distinct : symbols.Distinct) (apart : symbols.group ≠ '%')
    (drawn : Drawn pieces) (point : symbols.decimal = '.') (points : 2 ≤ pieces.count .decimal) :
    symbols.read (pieces.map (Piece.write symbols)) = .nan := by
  rw [← drawn.count_spell] at points
  have spoiled := ofChars_of_points isNumeric_of_mem_spell points
  rw [read_drawn distinct apart drawn, reached, if_pos point]
  dsimp only
  rw [spoiled]
  split
  · exact (Binary64.ofPercent_eq_nan_iff _ _).2 rfl
  · rfl

end Symbols

namespace Locale

def Group.write (group : Group) (pieces : List Piece) : String :=
  String.ofList (pieces.map (Piece.write group.symbols))

theorem Group.apart (group : Group) : group.symbols.group ≠ '%' := by
  cases group <;> decide

end Locale

theorem parseNumber_write (options : Options) {group : Locale.Group}
    (member : Locale.Table.builtin.groupOf? options.locale = some group.name)
    (pieces : List Piece) : parseNumber options (group.write pieces) =
      group.symbols.read (pieces.map (Piece.write group.symbols)) := by
  rw [parseNumber, Locale.resolve_eq_of_groupOf? member, Locale.Group.write, String.toList_ofList]

/-- Locales of two groups read the same number of the same pieces, if there is no second decimal
symbol or both write the same one. Of several points nothing is read; of several commas the first
one is the decimal point. -/
theorem parseNumber_pieces {o p : Options} {g h : Locale.Group} {pieces : List Piece}
    (drawn : Drawn pieces) (inG : Locale.Table.builtin.groupOf? o.locale = some g.name)
    (inH : Locale.Table.builtin.groupOf? p.locale = some h.name) :
    (pieces.count .decimal ≤ 1 ∨ g.symbols.decimal = h.symbols.decimal →
      parseNumber o (g.write pieces) = parseNumber p (h.write pieces)) ∧
    (2 ≤ pieces.count .decimal → g.symbols.decimal = '.' →
      parseNumber o (g.write pieces) = .nan) ∧
    (g.symbols.decimal = ',' →
      let numeral := (onePoint pieces).filterMap Piece.spell
      parseNumber o (g.write pieces) =
        if (pieces.filter (· != .group)).getLast? = some (.char '%') then
          (Binary64.ofChars numeral).ofPercent numeral.length
        else .ofChars numeral) := by
  rw [parseNumber_write o inG, parseNumber_write p inH]
  refine ⟨fun alike => ?_, fun points point => ?_, fun comma => ?_⟩
  · have same : g.symbols.reached pieces = h.symbols.reached pieces := by
      rcases alike with once | same
      · rw [Symbols.reached, Symbols.reached, onePoint_of_count_le once, ite_self, ite_self]
      · rw [Symbols.reached, Symbols.reached, same]
    rw [Symbols.read_drawn g.distinct g.apart drawn, Symbols.read_drawn h.distinct h.apart drawn,
      same]
  · exact Symbols.read_drawn_eq_nan g.distinct g.apart drawn point points
  · have other : g.symbols.decimal ≠ '.' := by rw [comma]; decide
    rw [Symbols.read_drawn g.distinct g.apart drawn, Symbols.reached, if_neg other]

theorem parseNumber_pieces_percent :
    let pieces : List Piece :=
      [.digit 1, .group, .digit 2, .digit 5, .digit 0, .decimal, .digit 5, .char '%']
    parseNumber { locale := "us" } (Locale.Group.pointComma.write pieces) =
      parseNumber { locale := "DE" } (Locale.Group.commaPoint.write pieces) :=
  (parseNumber_pieces (by decide) (Locale.Group.groupOf?_of_holds (by decide +kernel))
    (Locale.Group.groupOf?_of_holds (by decide +kernel))).1 (.inl (by decide))

theorem parseNumber_two_decimals :
    let pieces : List Piece := [.digit 1, .decimal, .digit 2, .decimal, .digit 3]
    Drawn pieces ∧ Locale.Table.builtin.groupOf? "us" = some Locale.Group.pointComma.name ∧
      Locale.Table.builtin.groupOf? "de" = some Locale.Group.commaPoint.name ∧
      parseNumber { locale := "us" } (Locale.Group.pointComma.write pieces) = .nan ∧
      parseNumber { locale := "de" } (Locale.Group.commaPoint.write pieces) = .ofText "1.23" ∧
      Binary64.ofText "1.23" ≠ .nan := by
  have us : Locale.Table.builtin.groupOf? "us" = some Locale.Group.pointComma.name :=
    Locale.Group.groupOf?_of_holds (by decide +kernel)
  have de : Locale.Table.builtin.groupOf? "de" = some Locale.Group.commaPoint.name :=
    Locale.Group.groupOf?_of_holds (by decide +kernel)
  refine ⟨by decide, us, de, ?_, ?_, ?_⟩
  · rw [parseNumber_write { locale := "us" } us]
    decide +kernel
  · rw [parseNumber_write { locale := "de" } de]
    decide +kernel
  · decide +kernel

end DigitMask
