import DigitMask.Symbols

/-! The built-in locale groups. All locales of a group write numbers with the same symbols. -/
namespace DigitMask.Locale

inductive Group where
  | pointComma
  | commaPoint
  | commaSpace
  | pointApostrophe
  deriving DecidableEq

namespace Group

def all : List Group := [pointComma, commaPoint, commaSpace, pointApostrophe]

def symbols : Group → Symbols
  | pointComma => { decimal := '.', group := ',' }
  | commaPoint => { decimal := ',', group := '.' }
  | commaSpace => { decimal := ',', group := ' ' }
  | pointApostrophe => { decimal := '.', group := '\'' }

def name : Group → String
  | pointComma => "us_like"
  | commaPoint => "de_like"
  | commaSpace => "fr_like"
  | pointApostrophe => "ch_like"

def codes : Group → List String
  | pointComma =>
    ["ae", "au", "ca", "cn", "eg", "gb", "hk", "il", "in", "jp", "sk", "th", "tw", "us"]
  | commaPoint => ["at", "br", "de", "dk", "es", "gr", "it", "nl", "pt", "tr", "vn"]
  | commaSpace => ["cz", "fi", "fr", "ru", "se", "pl"]
  | pointApostrophe => ["ch"]

def ofName? (name : String) : Option Group := all.find? fun group => group.name == name

theorem mem_all (group : Group) : group ∈ all := by cases group <;> decide

end Group
end DigitMask.Locale
