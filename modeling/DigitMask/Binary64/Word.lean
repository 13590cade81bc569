import DigitMask.Binary64.Basic

/-! The 64-bit words of binary64 numbers: a sign bit, eleven exponent bits and 52 fraction bits.
An exponent of zero marks the magnitudes without a leading one, an exponent of all ones the
infinities and, with a fraction, what is not a number. -/
namespace DigitMask.Binary64

def ofWord (word : Nat) : Binary64 :=
  let negative := word.testBit 63
  let exponent := word / twoPow 52 % 2048
  let fraction := word % twoPow 52
  if exponent = 2047 then
    if fraction = 0 then infinity negative else nan
  else if exponent = 0 then ofQuanta negative fraction 1
  else ofQuanta negative ((twoPow 52 + fraction) * twoPow (exponent - 1)) 1

def magnitudeWord (m : Magnitude) : Nat :=
  if m.quanta < twoPow 52 then m.quanta
  else
    let exponent := m.quanta.log2 - 52
    exponent * twoPow 52 + m.quanta / twoPow exponent

/-- What is not a number is written with a fraction of one leading bit. -/
def toWord : Binary64 → Nat
  | nan => 2047 * twoPow 52 + twoPow 51
  | infinity negative => (if negative then twoPow 63 else 0) + 2047 * twoPow 52
  | finite negative m => (if negative then twoPow 63 else 0) + magnitudeWord m

end DigitMask.Binary64
