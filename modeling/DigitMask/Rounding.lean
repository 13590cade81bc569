import DigitMask.Binary64.Arithmetic
import DigitMask.Decimal.Shortest

/-! Rounding and truncating a number to decimal places. Rounding scales by a power of ten in
binary64 and sends halves toward positive infinity; truncating cuts the shortest decimal. Neither
gives a negative zero. -/
namespace DigitMask.Binary64

def half : Binary64 := ofQuanta false (twoPow 1073) 1

def ten : Binary64 := ofNat 10

/-- The number `2^53`, from which on every number is whole. -/
def wholeFrom : Binary64 := ofNat (twoPow 53)

/-- The nearest whole number, halves going up. -/
def roundHalfUp (x : Binary64) : Binary64 :=
  if x.isFinite then
    if half.le (x - x.floor) then x.floor + ofNat 1 else x.floor
  else x

def unsignZero (x : Binary64) : Binary64 := if x.isZero then zero else x

def maxPlaces : Nat := 308

/-- A number too great to have digits beyond `places` decimal places keeps its value, and so does
one that scaling would carry out of range. -/
def roundTo (places : Nat) (x : Binary64) : Binary64 :=
  let power := ten.pow (min places maxPlaces)
  let scaled := x * power
  if !scaled.isFinite || (wholeFrom / power).le x.abs then x.unsignZero
  else (scaled.roundHalfUp / power).unsignZero

/-- Keeps the first `places` decimal places of the shortest decimal. -/
def truncateTo (places : Nat) : Binary64 → Binary64
  | finite negative m => ((m.shortest.cut places).toBinary64 negative).unsignZero
  | x => x

theorem unsignZero_of_isZero {x : Binary64} (h : x.isZero) : x.unsignZero = zero := by
  simp [unsignZero, h]

end DigitMask.Binary64
