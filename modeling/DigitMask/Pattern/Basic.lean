/-! Number patterns: literal text around a digit mask. `#` stands for a digit that is left out
when it carries nothing, `0` for one that is always written, a comma for a separator between
groups, and every other character inside the mask for itself. -/
namespace DigitMask

inductive Token where
  | digit
  | optional
  | separator
  | literal (c : Char)
  deriving DecidableEq

structure Pattern where
  leading : String := ""
  trailing : String := ""
  signFirst : Bool := false
  integer : List Token := []
  /-- None without a decimal point, which is not the same as an empty mask after one. -/
  fraction : Option (List Token) := none
  scaled : Bool := false
  deriving DecidableEq

namespace Pattern

def isPercent (p : Pattern) : Bool := p.trailing == "%"

/-- How many digits stand between two separators: the places after the last separator of the
integer mask. -/
def groupWidth (p : Pattern) : Option Nat :=
  if p.integer.contains .separator then
    some (p.integer.reverse.takeWhile (· != .separator)).length
  else none

def places (p : Pattern) : Nat := (p.fraction.getD []).length

theorem places_of_none {p : Pattern} (unmasked : p.fraction = none) : p.places = 0 := by
  rw [places, unmasked]; rfl

theorem places_of_some {p : Pattern} {mask : List Token} (masked : p.fraction = some mask) :
    p.places = mask.length := by
  rw [places, masked]; rfl

end Pattern
end DigitMask
