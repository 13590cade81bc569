import DigitMask.Pattern.Basic

/-! Reading a pattern. The mask reaches from the first to the last of the characters
`0 # - , . ^`; a minus sign at the very start only moves the sign. Every text is a pattern. -/
namespace DigitMask

def isMaskChar (c : Char) : Bool :=
  c == '0' || c == '#' || c == '-' || c == ',' || c == '.' || c == '^'

def Token.ofChar : Char → Token
  | '0' => .digit
  | '#' => .optional
  | ',' => .separator
  | c => .literal c

namespace Pattern

def integerOf (mask : List Char) : List Token :=
  ((mask.filter (· != '^')).takeWhile (· != '.')).map Token.ofChar

/-- The places after the last decimal point; what stands between two points is left out. -/
def fractionOf (mask : List Char) : Option (List Token) :=
  if mask.contains '.' then
    some (((mask.filter (· != '^')).reverse.takeWhile (· != '.')).reverse.map Token.ofChar)
  else none

def ofUnsigned (signFirst : Bool) (text : List Char) : Pattern :=
  let leading := text.takeWhile fun c => !isMaskChar c
  let rest := text.dropWhile fun c => !isMaskChar c
  let mask := (rest.reverse.dropWhile fun c => !isMaskChar c).reverse
  { leading := String.ofList leading
    trailing := String.ofList (rest.reverse.takeWhile fun c => !isMaskChar c).reverse
    signFirst
    integer := integerOf mask
    fraction := fractionOf mask
    scaled := mask.contains '^' }

def ofChars : List Char → Pattern
  | '-' :: rest => ofUnsigned true rest
  | text => ofUnsigned false text

def parse (text : String) : Pattern := ofChars text.toList

end Pattern
end DigitMask
