import DigitMask.Proofs.Locale.Builtin
import Mathlib.Data.List.Perm.Basic

/-! Tables of built-in groups. No code is one of two groups, so that a table knows the codes of its
groups however these were put in: in any order, and as often as one likes. -/
namespace DigitMask.Locale

theorem Group.ofName?_eq_some_iff {name : String} {group : Group} :
    ofName? name = some group ↔ group.name = name := by
  constructor
  · intro found
    exact eq_of_beq (List.find?_some (p := fun group : Group => group.name == name) found)
  · rintro rfl
    cases group <;> rfl

namespace Table

/-- A table knows the codes of some groups, each as one of its group, and no others. -/
structure KnowsJust (table : Table) (groups : List Group) : Prop where
  known : ∀ group ∈ groups, ∀ code, lowercase code ∈ group.codes →
    (∀ other ∈ groups, lowercase code ∈ other.codes → other = group) ∧
      table.get? code = some group.symbols ∧
      ∃ name, table.groupOf? code = some name ∧ Group.ofName? name = some group
  unknown : ∀ code, (∀ group ∈ groups, lowercase code ∉ group.codes) →
    table.get? code = none ∧ table.groupOf? code = none ∧
      table.lookup code = .error (.notFound code) ∧ table.resolve code = {}
  mem_codes : ∀ key, key ∈ table.codes ↔ ∃ group ∈ groups, key ∈ group.codes
  nodup_codes : table.codes.Nodup

/-- What a table tells another one tells as well. -/
structure Restricts (table whole : Table) : Prop where
  get? : ∀ code symbols, table.get? code = some symbols → whole.get? code = some symbols
  groupOf? : ∀ code name, table.groupOf? code = some name → whole.groupOf? code = some name
  codes : ∀ key ∈ table.codes, key ∈ whole.codes

structure Agree (table other : Table) : Prop where
  get? : ∀ code, table.get? code = other.get? code
  groupOf? : ∀ code, table.groupOf? code = other.groupOf? code
  codes : table.codes = other.codes

variable {table other : Table} {groups others : List Group} {code : String}

/-- Codes are listed in order, so that the list is known from its members. -/
theorem codes_eq_of_mem_iff (same : ∀ key, key ∈ table.codes ↔ key ∈ other.codes) :
    table.codes = other.codes := by
  have perm := (List.perm_ext_iff_of_nodup table.nodup_codes other.nodup_codes).2 same
  refine perm.eq_of_pairwise (fun a b _ _ less greater => ?_) Std.TreeMap.ordered_keys
    Std.TreeMap.ordered_keys
  exact absurd greater (Std.OrientedCmp.not_lt_of_lt less)

theorem Restricts.agree (there : table.Restricts other) (back : other.Restricts table) :
    table.Agree other where
  get? code := Option.ext fun symbols => ⟨there.get? code symbols, back.get? code symbols⟩
  groupOf? code := Option.ext fun name => ⟨there.groupOf? code name, back.groupOf? code name⟩
  codes := codes_eq_of_mem_iff fun key => ⟨there.codes key, back.codes key⟩

namespace KnowsJust

theorem ofGroups (groups : List Group) : (ofGroups groups).KnowsJust groups where
  known group member code holds := by
    have unique : ∀ other : Group, lowercase code ∈ other.codes → other = group :=
      fun other inOther => Group.eq_of_mem_codes inOther holds
    refine ⟨fun other _ => unique other, ?_⟩
    rcases tells_ofGroups groups code with ⟨unknown, -⟩ | ⟨other, -, inOther, told⟩
    · exact absurd (Group.holds_listing_iff.2 holds) (unknown group member)
    · obtain rfl := unique other (Group.holds_listing_iff.1 inOther)
      exact ⟨told.symbols, other.name, told.group, Group.ofName?_eq_some_iff.2 rfl⟩
  unknown code absent := by
    rcases tells_ofGroups groups code with ⟨-, told⟩ | ⟨group, member, holds, -⟩
    · rw [lookup, resolve, told.symbols]
      exact ⟨rfl, told.group, rfl, rfl⟩
    · exact absurd (Group.holds_listing_iff.1 holds) (absent group member)
  mem_codes key := by
    rw [ofGroups_eq_insertEach, mem_codes_insertEach, or_iff_left not_mem_codes_empty]
    constructor
    · rintro ⟨listing, put, listed⟩
      obtain ⟨group, member, rfl⟩ := List.mem_map.1 put
      rw [Group.listing, Group.map_lowercase_codes] at listed
      exact ⟨group, member, listed⟩
    · rintro ⟨group, member, listed⟩
      refine ⟨group.listing, List.mem_map_of_mem member, ?_⟩
      rwa [Group.listing, Group.map_lowercase_codes]
  nodup_codes := Table.nodup_codes _

theorem tells {group : Group} (knows : table.KnowsJust groups) (member : group ∈ groups)
    (holds : lowercase code ∈ group.codes) : table.Tells code (some group.listing.entry) := by
  obtain ⟨-, symbols, name, named, found⟩ := knows.known group member code holds
  obtain rfl := Group.ofName?_eq_some_iff.1 found
  exact ⟨symbols, named⟩

theorem exists_group (knows : table.KnowsJust groups) (told : ¬ table.Tells code none) :
    ∃ group ∈ groups, lowercase code ∈ group.codes := by
  by_contra absent
  push Not at absent
  obtain ⟨symbols, group, -⟩ := knows.unknown code absent
  exact told ⟨symbols, group⟩

theorem restricts (knows : table.KnowsJust groups) (more : other.KnowsJust others)
    (subset : groups ⊆ others) : table.Restricts other where
  get? code symbols told := by
    obtain ⟨group, member, holds⟩ := knows.exists_group fun untold => by
      rw [untold.symbols] at told
      cases told
    rw [(more.tells (subset member) holds).symbols, ← told, (knows.tells member holds).symbols]
  groupOf? code name told := by
    obtain ⟨group, member, holds⟩ := knows.exists_group fun untold => by
      rw [untold.group] at told
      cases told
    rw [(more.tells (subset member) holds).group, ← told, (knows.tells member holds).group]
  codes key told := by
    obtain ⟨group, member, listed⟩ := (knows.mem_codes key).1 told
    exact (more.mem_codes key).2 ⟨group, subset member, listed⟩

end KnowsJust

/-- A table of built-in groups is a table of their set: a code is of the one group that holds it,
in whatever order and how often they are put in. It is a part of the table of all groups. -/
theorem knowsJust_ofGroups (groups : List Group) : (ofGroups groups).KnowsJust groups ∧
    (∀ others, (∀ group, group ∈ others ↔ group ∈ groups) →
      (ofGroups others).Agree (ofGroups groups)) ∧
    (ofGroups groups).Restricts builtin := by
  have knows : ∀ groups, (ofGroups groups).KnowsJust groups := .ofGroups
  refine ⟨knows groups, fun others same => ?_, ?_⟩
  · exact ((knows others).restricts (knows groups) fun group => (same group).1).agree
      ((knows groups).restricts (knows others) fun group => (same group).2)
  · exact (knows groups).restricts (knows Group.all) fun group _ => group.mem_all

/-- German numbers in a table of three groups, one of them twice, and in one of two. -/
theorem knowsJust_ofGroups_de :
    (ofGroups [.commaPoint, .pointComma, .commaPoint]).get? "De" = some Group.commaPoint.symbols ∧
      (ofGroups [.pointComma, .commaPoint]).Agree
        (ofGroups [.commaPoint, .pointComma, .commaPoint]) := by
  obtain ⟨knows, agree, -⟩ := knowsJust_ofGroups [.commaPoint, .pointComma, .commaPoint]
  refine ⟨(knows.known .commaPoint (by decide) "De" (by decide +kernel)).2.1,
    agree [.pointComma, .commaPoint] fun group => ?_⟩
  cases group <;> decide

end Table
end DigitMask.Locale
