import DigitMask.Binary64.Basic
import DigitMask.Decimal.Digit

/-! The values of a TOML document. -/
namespace DigitMask.Toml

structure Date where
  year : Nat
  month : Nat
  day : Nat
  deriving DecidableEq

structure Time where
  hour : Nat
  minute : Nat
  second : Nat
  fraction : List Digit
  deriving DecidableEq

/-- A date, a time of day, or both with an optional offset in minutes. -/
inductive Moment where
  | date (date : Date)
  | time (time : Time)
  | dateTime (date : Date) (time : Time) (offset : Option Int)
  deriving DecidableEq

/-- How a table came about, which decides what may still be added to it. -/
inductive Origin where
  | header
  | headerPath
  | dottedKey
  | inline
  deriving DecidableEq

inductive Value where
  | text (text : String)
  | integer (value : Int)
  | float (value : Binary64)
  | boolean (value : Bool)
  | moment (moment : Moment)
  /-- An array in brackets, or one of tables with headers of their own. -/
  | array (ofHeaders : Bool) (items : List Value)
  | table (origin : Origin) (entries : List (String × Value))

abbrev Entries := List (String × Value)

end DigitMask.Toml
