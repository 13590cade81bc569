import DigitMask.Numeral.Parser
import DigitMask.Toml.Value

/-! Numbers in a TOML document. Integers have 64 bits, floats are binary64. -/
namespace DigitMask.Toml

variable {α : Type}

/-- Reads on after the reversed digits `read`: more digits, where an underscore may stand between
two. -/
def moreDigits (digit? : Char → Option α) (read : List α) :
    List Char → Option (List α × List Char)
  | [] => some (read.reverse, [])
  | '_' :: rest =>
    match rest with
    | [] => none
    | c :: rest =>
      match digit? c with
      | some d => moreDigits digit? (d :: read) rest
      | none => none
  | c :: rest =>
    match digit? c with
    | some d => moreDigits digit? (d :: read) rest
    | none => some (read.reverse, c :: rest)

def someDigits (digit? : Char → Option α) : List Char → Option (List α × List Char)
  | [] => none
  | c :: rest => (digit? c).bind fun d => moreDigits digit? [d] rest

def integer? (value : Int) : Option Value :=
  if -9223372036854775808 ≤ value ∧ value ≤ 9223372036854775807 then some (.integer value)
  else none

/-- A number beyond the greatest float is refused, one below the least is an infinity. -/
def float? (negative : Bool) (decimal : Decimal) : Option Value :=
  let value := decimal.toBinary64 negative
  if value = .infinity false then none else some (.float value)

def wholeNumber? (radix : Radix) (text : List Char) : Option (Value × List Char) := do
  let (digits, rest) ← someDigits radix.digit? text
  return (← integer? (radix.number digits), rest)

/-- The digits before a decimal point: a leading zero stands alone. -/
def integerPart? : List Char → Option (List Digit × List Char)
  | '0' :: rest => some ([Digit.zero], rest)
  | text => someDigits Digit.ofChar? text

def fractionPart? : List Char → Option (List Digit × List Char)
  | '.' :: rest => someDigits Digit.ofChar? rest
  | text => some ([], text)

def exponentPart? : List Char → Option (Option Int × List Char)
  | [] => some (none, [])
  | mark :: text =>
    if mark = 'e' ∨ mark = 'E' then do
      let (negative, unsigned) := takeSign text
      let (digits, rest) ← someDigits Digit.ofChar? unsigned
      return (some (signed negative (number digits)), rest)
    else some (none, mark :: text)

def decimalNumber? (negative : Bool) (text : List Char) : Option (Value × List Char) := do
  let (integer, afterInteger) ← integerPart? text
  let (fraction, afterFraction) ← fractionPart? afterInteger
  let (exponent, rest) ← exponentPart? afterFraction
  let coefficient := number (integer ++ fraction)
  if fraction.isEmpty && exponent.isNone then
    return (← integer? (signed negative coefficient), rest)
  else
    return (← float? negative ⟨coefficient, exponent.getD 0 - fraction.length⟩, rest)

/-- Only a number without a sign has a base other than ten. -/
def number? : List Char → Option (Value × List Char)
  | '0' :: 'x' :: rest => wholeNumber? .hexadecimal rest
  | '0' :: 'o' :: rest => wholeNumber? .octal rest
  | '0' :: 'b' :: rest => wholeNumber? .binary rest
  | text =>
    match takeSign text with
    | (negative, 'i' :: 'n' :: 'f' :: rest) => some (.float (.infinity negative), rest)
    | (_, 'n' :: 'a' :: 'n' :: rest) => some (.float .nan, rest)
    | (negative, unsigned) => decimalNumber? negative unsigned

end DigitMask.Toml
