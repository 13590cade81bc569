import DigitMask.Decimal.Plain
import DigitMask.Options
import DigitMask.Pattern.Basic
import DigitMask.Rounding
import DigitMask.Scale

/-! The figure that a pattern shows of a number: its sign, its digits before and after the
decimal point, and its label. No symbol of a locale has a part in it. -/
namespace DigitMask

def Binary64.integerDigits (x : Binary64) : List Digit :=
  (x.floor.fixed 0).filterMap Digit.ofChar?

def Binary64.fractionDigits (places : Nat) (x : Binary64) : List Digit :=
  ((x.fixed places).dropWhile (· != '.')).tail.filterMap Digit.ofChar?

structure Figure where
  negative : Bool
  integer : List Digit
  fraction : List Digit
  /-- A zero in place of what is not a finite number. -/
  forced : Bool
  label : String
  deriving DecidableEq

namespace Figure

/-- The number to start from; none when it is not finite and is not to be shown as zero. -/
def start (options : Options) (value : Binary64) : Option Binary64 :=
  if value.isFinite then some value else if options.nanAsZero then some .zero else none

def scaled (pattern : Pattern) (options : Options) (value : Binary64) : String × Binary64 :=
  if options.scale || pattern.scaled then
    let scale := Scale.of value options.labels.length
    (options.labels[scale.index]?.getD "", value / scale.factor)
  else (options.labels.head?.getD "", value)

/-- The number with the places of the fraction mask. Without a mask it is rounded to a whole
number, even where it would be truncated. -/
def limited (pattern : Pattern) (options : Options) (value : Binary64) : Binary64 :=
  match pattern.fraction with
  | some mask =>
    if options.round then value.roundTo mask.length else value.truncateTo mask.length
  | none => value.roundTo 0

def shown (pattern : Pattern) (options : Options) (value : Binary64) : Binary64 :=
  limited pattern options (scaled pattern options value).2

def ofShown (pattern : Pattern) (label : String) (forced : Bool) (number : Binary64) : Figure where
  negative := number.lt .zero
  integer := number.abs.integerDigits
  fraction := match pattern.fraction with
    | some mask => number.abs.fractionDigits mask.length
    | none => []
  forced
  label

def of (pattern : Pattern) (options : Options) (value : Binary64) : Option Figure :=
  (start options value).map fun number =>
    ofShown pattern (scaled pattern options number).1 (!value.isFinite)
      (shown pattern options number)

def decimal (figure : Figure) : Decimal :=
  ⟨number (figure.integer ++ figure.fraction), -figure.fraction.length⟩

theorem of_finite (pattern : Pattern) (options : Options) (negative : Bool) (m : Magnitude) :
    of pattern options (.finite negative m) =
      some (ofShown pattern (scaled pattern options (.finite negative m)).1 false
        (shown pattern options (.finite negative m))) := rfl

end Figure
end DigitMask
