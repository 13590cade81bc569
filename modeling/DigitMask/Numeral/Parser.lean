import DigitMask.Numeral.Basic
import DigitMask.Text.Blank

/-! Reading numerals. The kinds of numerals are told apart by their first characters, and each
has to use up the whole text. Text that is no numeral denotes what is not a number. -/
namespace DigitMask

def takeSign : List Char → Bool × List Char
  | '-' :: rest => (true, rest)
  | '+' :: rest => (false, rest)
  | text => (false, text)

def takeDigits (text : List Char) : List Digit × List Char :=
  ((text.takeWhile Char.isDigit).filterMap Digit.ofChar?, text.dropWhile Char.isDigit)

def takeFraction : List Char → List Digit × List Char
  | '.' :: rest => takeDigits rest
  | text => ([], text)

/-- The exponent that has to end a text; zero when nothing is left. -/
def exponent? : List Char → Option Int
  | [] => some 0
  | mark :: text =>
    if mark = 'e' ∨ mark = 'E' then
      let (negative, unsigned) := takeSign text
      let (digits, rest) := takeDigits unsigned
      if digits.isEmpty || !rest.isEmpty then none
      else some (signed negative (number digits))
    else none

namespace DecimalNumeral

/-- At least one digit stands before or after the decimal point. -/
def read? (text : List Char) : Option DecimalNumeral :=
  let (negative, unsigned) := takeSign text
  let (integer, afterInteger) := takeDigits unsigned
  let (fraction, afterFraction) := takeFraction afterInteger
  if integer.isEmpty && fraction.isEmpty then none
  else (exponent? afterFraction).map fun exponent => { negative, integer, fraction, exponent }

end DecimalNumeral

namespace Numeral

def readWhole? : List Char → Option Numeral
  | '0' :: mark :: text => do
    let radix ← Radix.ofMark? mark
    if text.isEmpty then none
    else return whole radix (← text.mapM radix.digit?)
  | _ => none

def readInfinity? (text : List Char) : Option Numeral :=
  let (negative, unsigned) := takeSign text
  if unsigned = "Infinity".toList then some (infinity negative) else none

/-- Reads a text without blanks at its ends. -/
def read? (text : List Char) : Option Numeral :=
  if text.isEmpty then some blank
  else (readWhole? text).or ((readInfinity? text).or ((DecimalNumeral.read? text).map decimal))

end Numeral

def Binary64.ofChars (text : List Char) : Binary64 :=
  ((Numeral.read? (trim text)).map Numeral.value).getD .nan

def Binary64.ofText (text : String) : Binary64 := .ofChars text.toList

end DigitMask
