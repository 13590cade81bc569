import DigitMask.Numeral.Parser
import DigitMask.Rounding
import DigitMask.Symbols

/-! Reading a displayed number back. Group separators and literal text are passed over; the first
decimal symbol becomes the decimal point and the first negative symbol the minus sign. -/
namespace DigitMask

/-- A hundredth, rounded to one place fewer than its numeral has characters. -/
def Binary64.ofPercent (number : Binary64) (length : Nat) : Binary64 :=
  (number / ofNat 100).roundTo (length - 1)

/-- The characters of a displayed number that reach its numeral. -/
def isNumeric (c : Char) : Bool := c.isDigit || c == '.' || c == '-'

namespace Symbols

def normalize (symbols : Symbols) (text : List Char) : List Char :=
  ((text.filter (· != symbols.group)).replace symbols.decimal '.').replace symbols.negative '-'

/-- The number that a text displays; a percent sign at its end takes a hundredth. -/
def read (symbols : Symbols) (text : List Char) : Binary64 :=
  let normal := symbols.normalize text
  let numeral := normal.filter isNumeric
  let number := Binary64.ofChars numeral
  if normal.getLast? == some '%' then number.ofPercent numeral.length else number

end Symbols
end DigitMask
