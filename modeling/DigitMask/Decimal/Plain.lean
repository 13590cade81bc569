import DigitMask.Decimal.Fixed
import DigitMask.Decimal.Shortest

/-! The text of a number in positional form, without an exponent, and without a decimal point
when no digit follows it. The plain text has the shortest digits that read back, the fixed text as
many decimal places as are asked for. -/
namespace DigitMask

def Decimal.plain (d : Decimal) : List Char :=
  let fraction := d.fractionDigits.map Digit.char
  d.integerDigits.map Digit.char ++ if fraction.isEmpty then [] else '.' :: fraction

namespace Binary64

/-- The text of a number whose magnitude is written as a decimal. A minus sign stands before a
negative zero, too. -/
def textBy (decimal : Magnitude → Decimal) : Binary64 → List Char
  | nan => "NaN".toList
  | infinity negative => (if negative then ['-'] else []) ++ "inf".toList
  | finite negative m => (if negative then ['-'] else []) ++ (decimal m).plain

def plain (x : Binary64) : List Char := x.textBy Magnitude.shortest

def fixed (places : Nat) (x : Binary64) : List Char := x.textBy fun m => m.fixed places

end Binary64
end DigitMask
