import DigitMask.Binary64.Arithmetic
import DigitMask.Decimal.Basic

/-! Numerals and the numbers they denote. -/
namespace DigitMask

/-- The bases of whole numerals that are marked by a letter after a zero. -/
inductive Radix where
  | hexadecimal
  | octal
  | binary
  deriving DecidableEq

namespace Radix

def base : Radix → Nat
  | hexadecimal => 16
  | octal => 8
  | binary => 2

def ofMark? : Char → Option Radix
  | 'x' | 'X' => some hexadecimal
  | 'o' | 'O' => some octal
  | 'b' | 'B' => some binary
  | _ => none

def digit? (radix : Radix) (c : Char) : Option Nat :=
  let value? :=
    if '0' ≤ c ∧ c ≤ '9' then some (c.toNat - 48)
    else if 'a' ≤ c ∧ c ≤ 'f' then some (c.toNat - 87)
    else if 'A' ≤ c ∧ c ≤ 'F' then some (c.toNat - 55)
    else none
  value?.filter fun value => decide (value < radix.base)

/-- The number that digits denote, without rounding. -/
def number (radix : Radix) (digits : List Nat) : Nat :=
  digits.foldl (fun n d => radix.base * n + d) 0

end Radix

structure DecimalNumeral where
  negative : Bool
  integer : List Digit
  fraction : List Digit
  exponent : Int
  deriving DecidableEq

def DecimalNumeral.decimal (n : DecimalNumeral) : Decimal :=
  ⟨number (n.integer ++ n.fraction), n.exponent - n.fraction.length⟩

inductive Numeral where
  | blank
  | whole (radix : Radix) (digits : List Nat)
  | infinity (negative : Bool)
  | decimal (numeral : DecimalNumeral)
  deriving DecidableEq

namespace Numeral

/-- Takes the digits in one by one, rounding at every step. -/
def accumulate (base : Nat) (digits : List Nat) : Binary64 :=
  digits.foldl (fun sum digit => sum * .ofNat base + .ofNat digit) .zero

/-- Blank text denotes zero. -/
def value : Numeral → Binary64
  | blank => .zero
  | whole radix digits => accumulate radix.base digits
  | infinity negative => .infinity negative
  | decimal n => n.decimal.toBinary64 n.negative

end Numeral
end DigitMask
