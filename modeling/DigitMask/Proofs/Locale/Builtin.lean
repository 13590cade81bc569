import DigitMask.Proofs.Locale.Table

/-! The built-in locales. Whatever a code is, it resolves to the symbols of one of the groups, and
these are symbols that can be told apart. -/
namespace DigitMask

/-- Symbols that cannot be taken for each other, nor for a digit. -/
structure Symbols.Distinct (symbols : Symbols) : Prop where
  negative : symbols.negative = '-'
  decimal : symbols.decimal = '.' ∨ symbols.decimal = ','
  group_ne_decimal : symbols.group ≠ symbols.decimal
  group_ne_negative : symbols.group ≠ '-'
  group_not_digit : symbols.group.isDigit = false

namespace Locale

theorem Group.distinct (group : Group) : group.symbols.Distinct := by
  cases group <;> exact ⟨rfl, by decide, by decide, by decide, by decide⟩

theorem Group.name_injective {g h : Group} (same : g.name = h.name) : g = h := by
  cases g <;> cases h <;> first | rfl | exact absurd same (by decide)

def Group.listing (group : Group) : Listing := ⟨⟨group.name, group.symbols⟩, group.codes⟩

theorem Group.map_lowercase_codes (group : Group) : group.codes.map lowercase = group.codes := by
  cases group <;> decide +kernel

theorem Group.holds_listing_iff {group : Group} {code : String} :
    group.listing.Holds code ↔ lowercase code ∈ group.codes := by
  rw [Listing.Holds, listing, map_lowercase_codes]

theorem Group.eq_of_mem_codes {g h : Group} {code : String} (inG : code ∈ g.codes)
    (inH : code ∈ h.codes) : g = h := by
  have disjoint : ∀ g ∈ all, ∀ h ∈ all, ∀ code ∈ g.codes, code ∈ h.codes → g = h := by
    decide +kernel
  exact disjoint g g.mem_all h h.mem_all code inG inH

theorem Group.eq_of_holds {g h : Group} {code : String} (inG : g.listing.Holds code)
    (inH : h.listing.Holds code) : g = h :=
  eq_of_mem_codes (holds_listing_iff.1 inG) (holds_listing_iff.1 inH)

theorem Table.ofGroups_eq_insertEach (groups : List Group) :
    ofGroups groups = empty.insertEach (groups.map Group.listing) := by
  rw [insertEach, List.foldl_map]
  rfl

/-- A table of built-in groups tells of a code what a group that holds it says, and nothing of a
code of none of them. -/
theorem Table.tells_ofGroups (groups : List Group) (code : String) :
    (∀ group ∈ groups, ¬ group.listing.Holds code) ∧ (ofGroups groups).Tells code none ∨
      ∃ group ∈ groups, group.listing.Holds code ∧
        (ofGroups groups).Tells code (some group.listing.entry) := by
  have told := (tells_empty code).insertEach (groups.map Group.listing)
  rw [Option.or_none, ← ofGroups_eq_insertEach] at told
  cases found : lastHolder? (groups.map Group.listing) code with
  | none =>
    rw [found] at told
    exact .inl ⟨fun group member => lastHolder?_eq_none_iff.1 found _ (List.mem_map_of_mem member),
      told⟩
  | some listing =>
    obtain ⟨group, member, rfl⟩ := List.mem_map.1 (mem_of_lastHolder? found)
    rw [found] at told
    exact .inr ⟨group, member, holds_of_lastHolder? found, told⟩

theorem Table.tells_builtin (code : String) :
    (∀ group : Group, ¬ group.listing.Holds code) ∧ builtin.Tells code none ∨
      ∃ group : Group, group.listing.Holds code ∧
        builtin.Tells code (some group.listing.entry) := by
  rcases tells_ofGroups Group.all code with ⟨unknown, told⟩ | ⟨group, -, holds, told⟩
  · exact .inl ⟨fun group => unknown group group.mem_all, told⟩
  · exact .inr ⟨group, holds, told⟩

theorem exists_resolve_eq (code : String) : ∃ group : Group, resolve code = group.symbols := by
  rw [resolve, Table.resolve]
  rcases Table.tells_builtin code with ⟨-, told⟩ | ⟨group, -, told⟩
  · exact ⟨.pointComma, by rw [told.symbols]; rfl⟩
  · exact ⟨group, by rw [told.symbols]; rfl⟩

theorem Group.groupOf?_of_holds {group : Group} {code : String}
    (holds : group.listing.Holds code) : Table.builtin.groupOf? code = some group.name := by
  rcases Table.tells_builtin code with ⟨unknown, -⟩ | ⟨other, inOther, told⟩
  · exact absurd holds (unknown group)
  · rw [told.group, Group.eq_of_holds inOther holds]
    rfl

theorem resolve_eq_of_groupOf? {code : String} {group : Group}
    (member : Table.builtin.groupOf? code = some group.name) : resolve code = group.symbols := by
  rw [resolve, Table.resolve]
  rcases Table.tells_builtin code with ⟨-, told⟩ | ⟨other, -, told⟩
  · rw [told.group] at member
    cases member
  · rw [told.group] at member
    rw [told.symbols, ← Group.name_injective (Option.some_inj.1 member)]
    rfl

theorem distinct_resolve (code : String) : (resolve code).Distinct := by
  obtain ⟨group, same⟩ := exists_resolve_eq code
  rw [same]
  exact group.distinct

end Locale
end DigitMask
