import DigitMask.Decimal.Basic

/-! Magnitudes with a fixed number of decimal places. The exact value is rounded, a half to the
even neighbour. -/
namespace DigitMask.Magnitude

def fixed (m : Magnitude) (places : Nat) : Decimal :=
  ⟨roundQuotient (m.quanta * tenPow places) unit, -places⟩

end DigitMask.Magnitude
