/-! Sets of characters as runs of code points. -/
namespace DigitMask

/-- Each run is given by its first and last code point. -/
def inRuns (runs : List (Nat × Nat)) (c : Char) : Bool :=
  runs.any fun run => decide (run.1 ≤ c.toNat) && decide (c.toNat ≤ run.2)

end DigitMask
