/-! The characters that stand for the decimal point, between groups of digits and for the
negative sign. -/
namespace DigitMask

structure Symbols where
  decimal : Char := '.'
  group : Char := ','
  negative : Char := '-'
  deriving DecidableEq

end DigitMask
