import DigitMask.Numeral.Parser
import DigitMask.Toml.Spacing
import DigitMask.Toml.Value

/-! Dates and times in a TOML document. -/
namespace DigitMask.Toml

def boundedNumber? (width least greatest : Nat) (text : List Char) : Option (Nat × List Char) :=
  let digits := (text.take width).filterMap Digit.ofChar?
  let value := number digits
  if digits.length = width ∧ least ≤ value ∧ value ≤ greatest then some (value, text.drop width)
  else none

def isLeapYear (year : Nat) : Bool := year % 4 == 0 && (year % 100 != 0 || year % 400 == 0)

def daysIn (year month : Nat) : Nat :=
  if month = 2 then (if isLeapYear year then 29 else 28)
  else if month = 4 ∨ month = 6 ∨ month = 9 ∨ month = 11 then 30
  else 31

def date? (text : List Char) : Option (Date × List Char) := do
  let (year, rest) ← boundedNumber? 4 0 9999 text
  let (month, rest) ← boundedNumber? 2 1 12 (← expect? '-' rest)
  let (day, rest) ← boundedNumber? 2 1 (daysIn year month) (← expect? '-' rest)
  return (⟨year, month, day⟩, rest)

def hourAndMinute? (text : List Char) : Option ((Nat × Nat) × List Char) := do
  let (hour, rest) ← boundedNumber? 2 0 23 text
  let (minute, rest) ← boundedNumber? 2 0 59 (← expect? ':' rest)
  return ((hour, minute), rest)

/-- A point without a digit after it does not belong to the seconds. -/
def secondFraction : List Char → List Digit × List Char
  | '.' :: rest =>
    let (digits, after) := takeDigits rest
    if digits.isEmpty then ([], '.' :: rest) else (digits, after)
  | text => ([], text)

/-- A minute may have a leap second. -/
def time? (text : List Char) : Option (Time × List Char) := do
  let ((hour, minute), rest) ← hourAndMinute? text
  let (second, rest) ← boundedNumber? 2 0 60 (← expect? ':' rest)
  let (fraction, rest) := secondFraction rest
  return (⟨hour, minute, second, fraction⟩, rest)

def offset? : List Char → Option (Option Int × List Char)
  | [] => some (none, [])
  | c :: text =>
    if c = 'Z' ∨ c = 'z' then some (some 0, text)
    else if c = '+' ∨ c = '-' then do
      let ((hour, minute), rest) ← hourAndMinute? text
      return (some (signed (c == '-') (60 * hour + minute)), rest)
    else some (none, c :: text)

/-- A time of day belongs to a date only behind a `T` or a single space. -/
def timeOfDate? : List Char → Option (Option Time × List Char)
  | [] => some (none, [])
  | c :: text =>
    if c = 'T' ∨ c = 't' ∨ (c = ' ' ∧ (boundedNumber? 2 0 23 text).isSome) then do
      let (time, rest) ← time? text
      return (some time, rest)
    else some (none, c :: text)

def dateTime? (text : List Char) : Option (Moment × List Char) := do
  let (date, rest) ← date? text
  match ← timeOfDate? rest with
  | (none, rest) => return (.date date, rest)
  | (some time, rest) =>
    let (offset, rest) ← offset? rest
    return (.dateTime date time offset, rest)

/-- Four digits and a hyphen begin a date, two digits and a colon a time of day; nothing else
that begins with a digit does. -/
def moment? (text : List Char) : Option (Option (Moment × List Char)) :=
  let digits := text.takeWhile Char.isDigit
  match digits.length, (text.dropWhile Char.isDigit).head? with
  | 4, some '-' => some (dateTime? text)
  | 2, some ':' => some ((time? text).map fun (time, rest) => (.time time, rest))
  | _, _ => none

end DigitMask.Toml
