import DigitMask.Decimal.Plain
import DigitMask.Number

/-! A text field that holds a number. Formatting reads a plain numeral from it and may write the
displayed text back; parsing reads a displayed text and may write the plain numeral back. -/
namespace DigitMask

structure Field where
  text : String
  writes : Nat := 0
  deriving DecidableEq

namespace Field

def set (field : Field) (text : String) : Field := { field with text }

def write (field : Field) (text : String) : Field := ⟨text, field.writes + 1⟩

/-- What cannot be shown is written back as the empty text. -/
def format (field : Field) (options : Options) (writeBack : Bool) : Field × Option String :=
  let shown := formatText options field.text
  (if writeBack then field.write (shown.getD "") else field, shown)

/-- A zero and what is not a number are no result, and leave the field as it is. -/
def parse (field : Field) (options : Options) (writeBack : Bool) : Field × Option Binary64 :=
  let number := parseNumber options field.text
  if number.isZero || number.isNaN then (field, none)
  else (if writeBack then field.write (String.ofList number.plain) else field, some number)

end Field
end DigitMask
