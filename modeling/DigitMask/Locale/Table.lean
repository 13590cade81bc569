import DigitMask.Locale.Error
import DigitMask.Locale.Group
import DigitMask.Text.Lowercase
import Std.Data.TreeMap

/-! Tables from locale codes to symbols. Codes are kept and looked up in lower case, and a code
that is put in again takes its new group. -/
namespace DigitMask.Locale

structure Entry where
  group : String
  symbols : Symbols
  deriving DecidableEq

structure Table where
  symbols : Std.TreeMap String Symbols := {}
  groups : Std.TreeMap String String := {}

namespace Table

def empty : Table := {}

def insert (table : Table) (code : String) (entry : Entry) : Table :=
  { symbols := table.symbols.insert (lowercase code) entry.symbols
    groups := table.groups.insert (lowercase code) entry.group }

def get? (table : Table) (code : String) : Option Symbols := table.symbols[lowercase code]?

/-- The symbols of a code; those of plain numerals for an unknown one. -/
def resolve (table : Table) (code : String) : Symbols := (table.get? code).getD {}

/-- The symbols of a code, or the code as it was given. -/
def lookup (table : Table) (code : String) : Except Error Symbols :=
  match table.get? code with
  | some symbols => .ok symbols
  | none => .error (.notFound code)

def groupOf? (table : Table) (code : String) : Option String := table.groups[lowercase code]?

/-- All codes in ascending order. -/
def codes (table : Table) : List String := table.symbols.keys

def insertAll (table : Table) (entry : Entry) (codes : List String) : Table :=
  codes.foldl (fun table code => table.insert code entry) table

def ofGroups (groups : List Group) : Table :=
  groups.foldl (fun table group => table.insertAll ⟨group.name, group.symbols⟩ group.codes) empty

def builtin : Table := ofGroups Group.all

theorem get?_insert (table : Table) (code other : String) (entry : Entry) :
    (table.insert code entry).get? other =
      if lowercase code = lowercase other then some entry.symbols else table.get? other := by
  simp [insert, get?, Std.TreeMap.getElem?_insert]

theorem groupOf?_insert (table : Table) (code other : String) (entry : Entry) :
    (table.insert code entry).groupOf? other =
      if lowercase code = lowercase other then some entry.group else table.groupOf? other := by
  simp [insert, groupOf?, Std.TreeMap.getElem?_insert]

end Table

def resolve (code : String) : Symbols := Table.builtin.resolve code

end DigitMask.Locale
